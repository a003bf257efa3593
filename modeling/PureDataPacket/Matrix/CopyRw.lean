/-
# `PureDataPacket.Matrix.CopyRw` — copies of matrix packets

`pdp_packet_copy_rw` clones the packet and calls the `copy` method of its
class.  For a matrix that is `_pdp_matrix_copy`, and the call goes wrong twice.
The method takes the destination first and gets the source first, so it
initialises the packet that was to be copied.  It then adds `PDP_HEADER_SIZE`
to pointers to headers, which is 256 headers and not 256 bytes, and copies as
many bytes as there are data from there.

So the copy is as it should be only where it is not made: the packet is marked
`PDP_FLAG_DONOTCOPY`, or there is no packet for the copy.  `CopyRefused` says when
that is, in terms of the pool.

| | |
| :-- | :-- |
| `CopyRefused` | there is no packet for the copy |
| `MatrixPacket` | a matrix packet in use |
| `pdpMatrixCopy_faults` | a packet has no bytes that far behind its own |
| `copyRw_faults` | if there is a packet for the copy, the copy goes wrong |
| `Copyable` | what should be |
-/
import PureDataPacket.Matrix.MatrixSpec

namespace PureDataPacket

open Pool

/-! ## A pool that has nothing to give -/

/-- The search of a fifo goes on after `x`: it is in use, or of another type. -/
def PassedOver (s : Pool) (d : Symbol) (x : Int) : Prop :=
  ∃ q, s.pdpPacketHeader x = some q ∧
    (q.users ≠ 0 ∨ ∃ d', q.desc = some d' ∧ pdpTypeDescriptionMatch d' d = false)

/-- The heap has no block for a packet; a full pool can grow, though. -/
def NoMemory (s : Pool) : Prop :=
  match firstEmpty s with
  | some _ => s.malloc s.mallocs = none
  | none => 2 * s.pdpPoolSize * 8 < 2 ^ 31 ∧ s.malloc s.mallocs ≠ none ∧
      s.malloc (s.mallocs + 1) = none

/-- There is no packet of the type of `p` to reuse, no unused packet of its
size, and no memory for another one. -/
structure CopyRefused (s : Pool) (p : Packet) : Prop where
  fifo : ∀ d, p.desc = some d → ∀ x ∈ s.reusefifo d, PassedOver s d x
  pool : ∀ q, some q ∈ s.pdpPool → reapable p.data.size q = false
  heap : NoMemory s

theorem passedOver_congr {s s' : Pool} (h : ∀ x, s'.pdpPacketHeader x = s.pdpPacketHeader x)
    (d : Symbol) (x : Int) : PassedOver s' d x ↔ PassedOver s d x := by
  unfold PassedOver
  rw [h]

theorem reuseFrom_passedOver {d : Symbol} {l : List Int} {s : Pool}
    (h : ∀ x ∈ l, PassedOver s d x) : ∃ s', reuseFrom d l s = .ok (-1, s') := by
  induction l generalizing s with
  | nil => exact ⟨s, rfl⟩
  | cons x l ih =>
      obtain ⟨q, hq, hpass⟩ := h x List.mem_cons_self
      have hl : ∀ y ∈ l, PassedOver s d y := fun y hy => h y (List.mem_cons_of_mem x hy)
      simp only [reuseFrom, header_setFifo, hq]
      split
      · next hu =>
          obtain ⟨d', hd', hm⟩ := hpass.resolve_left (fun h => h hu)
          simp only [hd', hm, Bool.false_eq_true, if_false]
          refine ih fun y hy => (passedOver_congr (fun _ => ?_) d y).mpr (hl y hy)
          rw [header_save, header_setFifo]
      · exact ih fun y hy => (passedOver_congr (fun _ => header_setFifo s d l _) d y).mpr (hl y hy)

theorem passedOver_of_reuseFrom {d : Symbol} {l : List Int} {s s' : Pool}
    (h : reuseFrom d l s = .ok (-1, s')) : ∀ x ∈ l, PassedOver s d x := by
  induction l generalizing s with
  | nil => exact fun x hx => by cases hx
  | cons x l ih =>
      simp only [reuseFrom, header_setFifo] at h
      split at h
      · cases h
      · next q hq =>
          have hhead : ∀ t : Pool, (∀ y, t.pdpPacketHeader y = s.pdpPacketHeader y) →
              reuseFrom d l t = .ok (-1, s') → PassedOver s d x →
              ∀ y ∈ x :: l, PassedOver s d y := by
            intro t ht hrest hx y hy
            rcases List.mem_cons.mp hy with rfl | hy
            · exact hx
            · exact (passedOver_congr ht d y).mp (ih hrest y hy)
          split at h
          · split at h
            · cases h
            · next d' hd' =>
                split at h
                · cases h
                  exact absurd rfl (ne_neg_one_of_header hq)
                · next hm =>
                    refine hhead _ (fun _ => by rw [header_save, header_setFifo]) h
                      ⟨q, hq, Or.inr ⟨d', hd', ?_⟩⟩
                    simpa using hm
          · next hu => exact hhead _ (fun _ => header_setFifo s d l _) h ⟨q, hq, Or.inl hu⟩

theorem findPacketFrom_eq_none {test : Packet → Bool} {l : List (Option Packet)} {slot : Nat} :
    findPacketFrom test l slot = none ↔ ∀ q, some q ∈ l → test q = false := by
  induction l generalizing slot with
  | nil => exact ⟨fun _ q hq => absurd hq List.not_mem_nil, fun _ => rfl⟩
  | cons x l ih =>
      cases x with
      | none => simp [findPacketFrom, ih]
      | some p =>
          simp only [findPacketFrom, List.mem_cons, Option.some.injEq]
          split
          · next hp =>
              refine iff_of_false (fun h => by cases h) fun h => ?_
              have := h p (Or.inl rfl)
              rw [hp] at this
              cases this
          · next hp =>
              rw [ih]
              constructor
              · rintro h q (rfl | hq)
                · simpa using hp
                · exact h q hq
              · exact fun h q hq => h q (Or.inr hq)

theorem createAt_refused {t n slot : Nat} {s : Pool} (hn : n + pdpHeaderSize < 2 ^ 31) :
    (∃ s', createAt t n slot s = .ok (-1, s')) ↔ s.malloc s.mallocs = none := by
  have hu : u32 (n + pdpHeaderSize) = n + pdpHeaderSize := u32_eq_self (by omega)
  have hle : pdpHeaderSize ≤ n + pdpHeaderSize := Nat.le_add_left _ _
  unfold createAt pdpPacketAllocNolock
  simp only [hu, dif_pos hn, dif_pos hle]
  cases s.malloc s.mallocs with
  | none => exact iff_of_true ⟨_, rfl⟩ rfl
  | some fill =>
      refine iff_of_false ?_ (fun h => by cases h)
      rintro ⟨s', h⟩
      cases h

theorem pdpPacketNew_refused_iff {t n : Nat} {s : Pool} (hn : n + pdpHeaderSize < 2 ^ 31) :
    (∃ s', pdpPacketNew t n s = .ok (-1, s')) ↔
      (∀ q, some q ∈ s.pdpPool → reapable n q = false) ∧ NoMemory s := by
  unfold pdpPacketNew
  split
  · next i p hfind =>
      refine iff_of_false ?_ fun h => ?_
      · rintro ⟨s', h⟩
        cases h
      · rw [findPacketFrom_eq_none.mpr h.1] at hfind
        cases hfind
  · next hfind =>
      rw [and_iff_right (findPacketFrom_eq_none.mp hfind)]
      unfold pdpPacketCreate NoMemory
      cases firstEmpty s with
      | some slot => exact createAt_refused hn
      | none =>
          dsimp only
          unfold pdpPoolExpandNolock
          by_cases hsize : 2 ^ 31 ≤ 2 * s.pdpPoolSize * 8
          · rw [if_pos hsize]
            refine iff_of_false ?_ fun h => Nat.not_lt.mpr hsize h.1
            rintro ⟨s', h⟩
            cases h
          · rw [if_neg hsize, and_iff_right (Nat.not_le.mp hsize)]
            cases hm : s.malloc s.mallocs with
            | none =>
                refine iff_of_false ?_ fun h => h.1 rfl
                rintro ⟨s', h⟩
                cases h
            | some fill =>
                rw [and_iff_right (by simp)]
                exact createAt_refused hn

/-! ## Clones that are not made -/

section Clone

variable {w : MatrixPool} {h : Int} {p : Packet} {d : Symbol}

theorem room_of_size (p : Packet) : p.data.size + pdpHeaderSize < 2 ^ 31 := p.data.size_lt

theorem noMemory_congr {s s' : Pool} (hp : s'.pdpPool = s.pdpPool) (hm : s'.malloc = s.malloc)
    (hk : s'.mallocs = s.mallocs) : NoMemory s' ↔ NoMemory s := by
  unfold NoMemory firstEmpty pdpPoolSize
  rw [hp, hm, hk]

theorem cloneRw_refused (hp : w.pool.pdpPacketHeader h = some p) (hd : p.desc = some d)
    (hs : OfMatrixClass w.pool d) (hr : CopyRefused w.pool p) :
    ∃ w', matrixCloneRw h w = .ok (-1, w') := by
  obtain ⟨s, hreuse⟩ := reuseFrom_passedOver (hr.fifo d hd)
  have hreuse' : pdpPacketReuse (some d) w.pool = .ok (-1, s) := hreuse
  rcases pdpPacketReuse_cases hreuse' with ⟨_, hx⟩ | ⟨q, hq, _⟩
  · have hslots := slots_of_reuse hreuse'
    have hp₁ : s.pdpPacketHeader h = some p := (hx.header h).trans hp
    obtain ⟨s', hnew⟩ := (pdpPacketNew_refused_iff (t := p.type) (s := s) (room_of_size p)).mpr
      ⟨fun q hq => hr.pool q (hslots ▸ hq),
        (noMemory_congr hslots hx.malloc hx.mallocs).mpr hr.heap⟩
    refine ⟨{ w with pool := s' }, ?_⟩
    simp only [matrixCloneRw, hp, hd, hreuse', factory_served hx hs, cloneHeader, hp₁, hnew]
    rfl
  · exact absurd rfl (ne_neg_one_of_header hq.2.1)

theorem refused_of_cloneRw {w' : MatrixPool} (hp : w.pool.pdpPacketHeader h = some p)
    (hd : p.desc = some d) (hs : OfMatrixClass w.pool d)
    (hr : matrixCloneRw h w = .ok (-1, w')) : CopyRefused w.pool p := by
  simp only [matrixCloneRw, hp, hd] at hr
  split at hr
  · cases hr
  · next r s hreuse =>
      rcases pdpPacketReuse_cases hreuse with ⟨rfl, hx⟩ | ⟨q, hq, _⟩
      · have hslots := slots_of_reuse hreuse
        have hp₁ : s.pdpPacketHeader h = some p := (hx.header h).trans hp
        simp only [factory_served hx hs, cloneHeader, hp₁] at hr
        rw [if_neg (by simp), if_neg (by simp)] at hr
        have hnew : ∃ s', pdpPacketNew p.type p.data.size s = .ok (-1, s') := by
          split at hr
          · cases hr
          · next r s' hnew =>
              split at hr
              · next h1 => exact ⟨s', h1 ▸ hnew⟩
              · next h1 =>
                  split at hr
                  · cases hr
                  · cases hr
                    exact absurd rfl h1
        obtain ⟨hpool, hheap⟩ := (pdpPacketNew_refused_iff (room_of_size p)).mp hnew
        refine ⟨fun d' hd' => ?_, fun q hq => hpool q (hslots ▸ hq),
          (noMemory_congr hslots hx.malloc hx.mallocs).mp hheap⟩
        cases hd.symm.trans hd'
        exact passedOver_of_reuseFrom hreuse
      · rw [if_pos (ne_neg_one_of_header hq.2.1)] at hr
        cases hr
        exact absurd rfl (ne_neg_one_of_header hq.2.1)

end Clone

/-! ## The copy method -/

/-- `h` designates a matrix packet that is in use, in a pool where unused
packets of its type have data, too. -/
structure MatrixPacket (w : MatrixPool) (h : Int) (p : Packet) : Prop where
  header : w.pool.pdpPacketHeader h = some p
  users : p.users ≠ 0
  theclass : p.theclass = some matrixClass
  size : 0 < p.data.size
  desc : ∃ d, p.desc = some d ∧ OfMatrixClass w.pool d
  reusable : ∀ d x q, p.desc = some d → Reusable w.pool d x q → 0 < q.data.size

theorem pdpMatrixCopy_faults {w : MatrixPool} {dst src : Int} {pd ps : Packet}
    (hd : w.pool.pdpPacketHeader dst = some pd) (hs : w.pool.pdpPacketHeader src = some ps)
    (hsize : 0 < ps.data.size) : ∃ e, pdpMatrixCopy dst src w = .error e := by
  unfold pdpMatrixCopy
  dsimp only
  cases hinit : pdpMatrixInit dst (w.subheader src).rows (w.subheader src).columns
      (w.subheader src).type w with
  | error e => exact ⟨e, rfl⟩
  | ok w' =>
      obtain ⟨data, hdata, hputs⟩ := (pdpMatrixInit_spec hd hinit).puts
      have hq : ∃ q, w'.pool.pdpPacketHeader src = some q ∧ 0 < q.data.size := by
        by_cases hx : src = dst
        · subst hx
          cases hd.symm.trans hs
          refine ⟨_, hputs.self, ?_⟩
          show 0 < data.size
          omega
        · exact ⟨ps, (hputs.other hx).trans hs, hsize⟩
      obtain ⟨q, hq, hpos⟩ := hq
      have hoff : ¬ (q.data.size = 0 ∨
          pdpHeaderSize * sizeofPdp - pdpHeaderSize + q.data.size ≤ q.data.size) := by
        simp only [pdpHeaderSize, sizeofPdp]
        omega
      simp only [hq, if_neg hoff]
      exact ⟨_, rfl⟩

theorem copyRw_faults {w : MatrixPool} {h : Int} {p : Packet} (hm : MatrixPacket w h p)
    (hflag : p.flags &&& pdpFlagDonotcopy = 0) (hr : ¬ CopyRefused w.pool p) :
    ∃ e, matrixCopyRw h w = .error e := by
  obtain ⟨d, hd, hserved⟩ := hm.desc
  simp only [matrixCopyRw, hm.header, hflag, ne_eq, not_true_eq_false, if_false]
  cases hclone : matrixCloneRw h w with
  | error e => exact ⟨e, rfl⟩
  | ok x =>
      obtain ⟨r, w₁⟩ := x
      have hclone' : ∃ q, w₁.pool.pdpPacketHeader r = some q ∧ 0 < q.data.size := by
        rcases matrixCloneRw_cases hm.header hm.users hd hserved hclone with
          ⟨hrev, _⟩ | ⟨_, ⟨rfl, _⟩ | hcopied⟩
        · obtain ⟨q, hq, hh⟩ := hrev.reusable
          exact ⟨_, (hh r).trans (if_pos rfl), hm.reusable d r q hd hq⟩
        · exact absurd (refused_of_cloneRw hm.header hd hserved hclone) hr
        · obtain ⟨data, hdata, hh⟩ := hcopied.header
          refine ⟨_, (hh r).trans (if_pos rfl), ?_⟩
          show 0 < data.size
          rw [hdata]
          exact hm.size
      obtain ⟨q, hq, hpos⟩ := hclone'
      have hsource := (matrixCloneRw_source hm.header hm.users hd hserved hclone).1
      obtain ⟨e, he⟩ := pdpMatrixCopy_faults hsource hq hpos
      refine ⟨e, ?_⟩
      simp only [if_neg (ne_neg_one_of_header hq), hm.theclass, Option.bind_some, matrixClass, he]

theorem copyRw_refused {w : MatrixPool} {h : Int} {p : Packet} {d : Symbol}
    (hp : w.pool.pdpPacketHeader h = some p) (hu : p.users ≠ 0) (hd : p.desc = some d)
    (hserved : OfMatrixClass w.pool d)
    (hr : p.flags &&& pdpFlagDonotcopy ≠ 0 ∨ CopyRefused w.pool p) :
    ∃ w', matrixCopyRw h w = .ok (-1, w') ∧ Untouched w w' := by
  by_cases hflag : p.flags &&& pdpFlagDonotcopy = 0
  · obtain ⟨w', hclone⟩ := cloneRw_refused hp hd hserved (hr.resolve_left fun h => h hflag)
    refine ⟨w', ?_, ?_⟩
    · simp only [matrixCopyRw, hp, hflag, ne_eq, not_true_eq_false, if_false, hclone,
        if_true]
    · rcases matrixCloneRw_cases hp hu hd hserved hclone with
        ⟨hrev, _⟩ | ⟨_, ⟨_, hsame⟩ | hcopied⟩
      · obtain ⟨q, hq, _⟩ := hrev.reusable
        exact absurd rfl (ne_neg_one_of_header hq.2.1)
      · exact hsame
      · exact absurd hcopied.nonneg (by omega)
  · refine ⟨w, ?_, fun _ => rfl, rfl, rfl⟩
    simp only [matrixCopyRw, hp, if_pos hflag]

/-! ## What a copy is for -/

/-- A -1, or a packet with the dimensions, the type and the elements of `p`;
and what `h` designates is `source` now. -/
def CopyOf (w : MatrixPool) (h : Int) (p source : Packet) :
    Except Fault (Int × MatrixPool) → Prop
  | .error _ => False
  | .ok (r, w') =>
      w'.pool.pdpPacketHeader h = some source ∧ w'.subheader h = w.subheader h ∧
      (r = -1 ∨ ∃ q, w'.pool.pdpPacketHeader r = some q ∧
        (w'.subheader r).rows = (w.subheader h).rows ∧
        (w'.subheader r).columns = (w.subheader h).columns ∧
        (w'.subheader r).type = (w.subheader h).type ∧
        ∀ i < pdpMatrixMdataByteSize (w.subheader h).rows (w.subheader h).columns
          (w.subheader h).type, q.data.bytes[i]? = p.data.bytes[i]?)

/-- `pdp_packet_copy_rw` copies, and so does `pdp_packet_replace_with_writable`
on a shared packet.  The second gives up a reference to the source. -/
structure Copyable (w : MatrixPool) (h : Int) (p : Packet) : Prop where
  copy : CopyOf w h p p (matrixCopyRw h w)
  replace : 1 < p.users →
    CopyOf w h p { p with users := p.users - 1 } (matrixReplaceWithWritable h w)

/-- A matrix packet can be copied exactly if the copy is not made. -/
theorem matrix_copyable_iff (w : MatrixPool) (h : Int) (p : Packet) (hm : MatrixPacket w h p) :
    Copyable w h p ↔ p.flags &&& pdpFlagDonotcopy ≠ 0 ∨ CopyRefused w.pool p := by
  constructor
  · intro hc
    refine Classical.byContradiction fun hnot => ?_
    simp only [not_or, ne_eq, not_not] at hnot
    obtain ⟨e, he⟩ := copyRw_faults hm hnot.1 hnot.2
    have hcopy := hc.copy
    rw [he] at hcopy
    exact hcopy
  · intro hr
    obtain ⟨d, hd, hserved⟩ := hm.desc
    obtain ⟨w', hrun, hsame⟩ := copyRw_refused hm.header hm.users hd hserved hr
    have hp' : w'.pool.pdpPacketHeader h = some p := (hsame.header h).trans hm.header
    refine ⟨?_, fun hshared => ?_⟩
    · rw [hrun]
      exact ⟨hp', by rw [hsame.subheader], Or.inl rfl⟩
    · have hany : (w.pool.pdpPacketHeader h).any (·.users = 1) = false := by
        rw [hm.header, Option.any_some, decide_eq_false_iff_not]
        omega
      simp only [matrixReplaceWithWritable, hany, Bool.false_eq_true, if_false, hrun]
      refine ⟨?_, by rw [← hsame.subheader]; rfl, Or.inl rfl⟩
      exact (header_markUnused hp' h).trans (if_pos rfl)

/-! ## One matrix -/

theorem not_refused {s : Pool} {p : Packet} (hm : ∀ k, s.malloc k ≠ none) : ¬ CopyRefused s p := by
  intro hr
  have hheap := hr.heap
  unfold NoMemory at hheap
  split at hheap
  · exact hm _ hheap
  · exact hm _ hheap.2.2

theorem newMatrix_one : ∃ w, pdpPacketNewMatrix 1 1 pdpMatrixTypeRDOUBLE
    (matrixPoolSetup [matrixClass] zeroHeap) = .ok (0, w) ∧ ∀ k, w.pool.malloc k ≠ none :=
  ⟨_, by with_unfolding_all rfl, fun _ h => by cases h⟩

/-- A matrix of one double, in a pool with nothing else. -/
theorem matrixPacket_one : ∃ w p, MatrixPacket w 0 p ∧ p.flags = 0 ∧
    ∀ k, w.pool.malloc k ≠ none := by
  obtain ⟨w, hnew, hheap⟩ := newMatrix_one
  rcases pdpPacketNewMatrix_cases hnew with ⟨h, _⟩ | hm
  · cases h
  · obtain ⟨data, hdata, _, hputs⟩ := hm.puts
    refine ⟨w, _, ⟨hputs.self, Nat.one_ne_zero, rfl, ?_, ?_, ?_⟩, rfl, hheap⟩
    · rw [ofInt32_matrixDsize] at hdata
      show 0 < data.size
      have hsize : u32 (u32 (pdpMatrixMdataByteSize 1 1 pdpMatrixTypeRDOUBLE +
        8 * pdpMatrixPdataVectorSize 1 1) + pdpHeaderSize) = 272 := by decide
      rw [hsize] at hdata
      simp only [pdpHeaderSize] at hdata
      omega
    · refine ⟨matrixDescription 1 1 pdpMatrixTypeRDOUBLE, rfl, ?_⟩
      unfold OfMatrixClass
      rw [hputs.classList]
      decide
    · rintro d x q _ ⟨hx, _⟩
      rw [hputs.reusefifo] at hx
      exact absurd hx List.not_mem_nil

theorem matrix_copyable_iff_one : ∃ w p, MatrixPacket w 0 p ∧ ¬ Copyable w 0 p := by
  obtain ⟨w, p, hm, hflag, hheap⟩ := matrixPacket_one
  refine ⟨w, p, hm, fun hc => ?_⟩
  rcases (matrix_copyable_iff w 0 p hm).mp hc with h | h
  · rw [hflag] at h
    exact h rfl
  · exact not_refused hheap h

/-- The copy of a matrix of one double is an access out of bounds. -/
theorem not_matrix_copyable :
    ¬ ∀ (w : MatrixPool) (h : Int) (p : Packet), MatrixPacket w h p → Copyable w h p := by
  intro hall
  obtain ⟨w, p, hm, hflag, hheap⟩ := matrixPacket_one
  obtain ⟨e, he⟩ := copyRw_faults hm (by rw [hflag]; rfl) (not_refused hheap)
  have hcopy := (hall w 0 p hm).copy
  rw [he] at hcopy
  exact hcopy

end PureDataPacket
