/-
# `PureDataPacket.Matrix.MatrixSpec` — what the matrix operations do

What becomes of the packets and of the subheaders, once for each operation.
The clone is the one with cases: it comes out of the reuse fifo as it was left
there, or it is a copy of the header of its source.  The factory of the class
makes nothing.

| | |
| :-- | :-- |
| `Rewrites` | only the data of one packet may have changed, and not its size |
| `Initialised` | after `_pdp_matrix_init` of `dst`, which held `p` |
| `MatrixMade` | `pdp_packet_new_matrix` has made packet `r` |
| `cloneHeader_cases` | the manual clone |
| `matrixCloneRw_cases` | the three ends of a clone of a matrix packet |
-/
import PureDataPacket.Matrix.Matrix
import PureDataPacket.Kernel.CloneRw

namespace PureDataPacket

open Pool

/-! ## Writing -/

/-- Only the data of one packet may have changed, and not its size. -/
structure Rewrites (s : Pool) (h : Int) (s' : Pool) : Prop where
  other : ∀ x, x ≠ h → s'.pdpPacketHeader x = s.pdpPacketHeader x
  self : ∀ p, s.pdpPacketHeader h = some p → ∃ data : DataArea, data.size = p.data.size ∧
    s'.pdpPacketHeader h = some { p with data := data }
  empty : s.pdpPacketHeader h = none → s'.pdpPacketHeader h = none
  reusefifo : s'.reusefifo = s.reusefifo
  classList : s'.classList = s.classList

theorem Rewrites.refl (s : Pool) (h : Int) : Rewrites s h s where
  other _ _ := rfl
  self p hp := ⟨p.data, rfl, hp⟩
  empty hn := hn
  reusefifo := rfl
  classList := rfl

theorem Rewrites.trans {s s' s'' : Pool} {h : Int} (h₁ : Rewrites s h s')
    (h₂ : Rewrites s' h s'') : Rewrites s h s'' where
  other x hx := (h₂.other x hx).trans (h₁.other x hx)
  self p hp := by
    obtain ⟨data, hdata, hp'⟩ := h₁.self p hp
    obtain ⟨data', hdata', hp''⟩ := h₂.self _ hp'
    exact ⟨data', hdata'.trans hdata, hp''⟩
  empty hn := h₂.empty (h₁.empty hn)
  reusefifo := h₂.reusefifo.trans h₁.reusefifo
  classList := h₂.classList.trans h₁.classList

/-- Whatever packet it is, it keeps its header and its size. -/
theorem Rewrites.keeps {s s' : Pool} {h x : Int} {p : Packet} (hs : Rewrites s h s')
    (hp : s.pdpPacketHeader x = some p) : ∃ data : DataArea, data.size = p.data.size ∧
      s'.pdpPacketHeader x = some { p with data := data } := by
  by_cases hx : x = h
  · subst hx
    exact hs.self p hp
  · exact ⟨p.data, rfl, (hs.other x hx).trans hp⟩

theorem writeBytes_spec {dst : DataPointer} {l : List UInt8} {s s' : Pool}
    (h : writeBytes dst l s = .ok s') : Rewrites s dst.packet s' := by
  unfold writeBytes at h
  split at h
  · cases h
    exact .refl s _
  · split at h
    · cases h
    · next p hp =>
        split at h
        · cases h
          have hputs := puts_of_header hp
            (some { p with data := p.data.blitAt dst.offset.toNat l (by assumption : _ ∧ _).2 })
          refine ⟨fun x hx => hputs.other hx, fun q hq => ?_, fun hn => ?_, hputs.reusefifo,
            hputs.classList⟩
          · cases hp.symm.trans hq
            exact ⟨_, DataArea.size_blitAt _ _ _ _, hputs.self⟩
          · cases hp.symm.trans hn
        · cases h

theorem writeBytes_inside {dst off : Int} {l : List UInt8} {s s' : Pool} {p : Packet}
    (h : writeBytes ⟨dst, off⟩ l s = .ok s') (hp : s.pdpPacketHeader dst = some p) (hl : l ≠ []) :
    0 ≤ off ∧ off.toNat + l.length ≤ p.data.size := by
  simp only [writeBytes, if_neg hl, hp] at h
  split at h
  · assumption
  · cases h

theorem writeBytes_error {dst : DataPointer} {l : List UInt8} {s : Pool} {p : Packet} {e : Fault}
    (h : writeBytes dst l s = .error e) (hp : s.pdpPacketHeader dst.packet = some p) :
    e = .outOfBounds := by
  unfold writeBytes at h
  split at h
  · cases h
  · simp only [hp] at h
    split at h
    · cases h
    · cases h
      rfl

theorem writeBytes_ok {dst off : Int} {l : List UInt8} {s : Pool} {p : Packet}
    (hp : s.pdpPacketHeader dst = some p) (h0 : 0 ≤ off)
    (hl : off.toNat + l.length ≤ p.data.size) : ∃ s', writeBytes ⟨dst, off⟩ l s = .ok s' := by
  unfold writeBytes
  split
  · exact ⟨_, rfl⟩
  · simp only [hp, dif_pos (And.intro h0 hl)]
    exact ⟨_, rfl⟩

/-! ## Initialisation -/

theorem length_identityBytes (n : Nat) : (identityBytes n).length = 8 * n := by
  unfold identityBytes
  induction n with
  | zero => rfl
  | succ n ih =>
      have hone : ([n].flatMap fun i => le32 i ++ le32 0).length = 8 := rfl
      rw [List.range_succ, List.flatMap_append, List.length_append, ih, hone]
      omega

theorem identityBytes_inside {dst off : Int} {n : Nat} {s s' : Pool} {p : Packet}
    (h : writeBytes ⟨dst, off⟩ (identityBytes n) s = .ok s')
    (hp : s.pdpPacketHeader dst = some p) (hn : n ≠ 0) :
    0 ≤ off ∧ off.toNat + 8 * n ≤ p.data.size := by
  have hlen := length_identityBytes n
  have hl : identityBytes n ≠ [] := by
    intro h0
    rw [h0, List.length_nil] at hlen
    omega
  rw [← hlen]
  exact writeBytes_inside h hp hl

/-- After `_pdp_matrix_init` of `dst`, which held `p`. -/
structure Initialised (w : MatrixPool) (dst : Int) (m : TMatrix) (matrixBytesize permsize : Int)
    (p : Packet) (w' : MatrixPool) : Prop where
  subheader : w'.subheader = Function.update w.subheader dst m
  puts : ∃ data : DataArea, data.size = p.data.size ∧
    Puts w.pool dst (some ⟨initialHeader p.toMeta m, p.users, data⟩) w'.pool
  inside : permsize.toNat ≠ 0 →
    0 ≤ matrixBytesize ∧ matrixBytesize.toNat + 8 * permsize.toNat ≤ p.data.size

section Init

variable {w w' : MatrixPool} {dst matrixBytesize permsize : Int} {m : TMatrix} {p : Packet}

theorem initWith_spec (hp : w.pool.pdpPacketHeader dst = some p)
    (h : initWith dst m matrixBytesize permsize w = .ok w') :
    Initialised w dst m matrixBytesize permsize p w' := by
  simp only [initWith, hp] at h
  split at h
  · cases h
  · next s hs =>
      split at h
      · cases h
      · next s' hs' =>
          cases h
          have hrw := writeBytes_spec hs
          obtain ⟨data, hdata, hq⟩ := hrw.self p hp
          obtain ⟨q, hq', hputs⟩ := writeHeader_spec hs'
          cases hq.symm.trans hq'
          refine ⟨rfl, ⟨data, hdata, ⟨fun x => ?_, ?_, ?_⟩⟩, identityBytes_inside hs hp⟩
          · by_cases hx : x = dst
            · subst hx
              rw [if_pos rfl]
              exact hputs.self
            · rw [if_neg hx]
              exact (hputs.other hx).trans (hrw.other x hx)
          · exact hputs.reusefifo.trans hrw.reusefifo
          · exact hputs.classList.trans hrw.classList

theorem initWith_error {e : Fault} (hp : w.pool.pdpPacketHeader dst = some p)
    (h : initWith dst m matrixBytesize permsize w = .error e) : e = .outOfBounds := by
  simp only [initWith, hp] at h
  split at h
  · next he =>
      cases h
      exact writeBytes_error he hp
  · next s hs =>
      obtain ⟨data, _, hq⟩ := (writeBytes_spec hs).self p hp
      simp only [writeHeader, hq] at h
      cases h

theorem initWith_ok (hp : w.pool.pdpPacketHeader dst = some p) (h0 : 0 ≤ matrixBytesize)
    (hfit : matrixBytesize.toNat + 8 * permsize.toNat ≤ p.data.size) :
    ∃ w', initWith dst m matrixBytesize permsize w = .ok w' := by
  rw [← length_identityBytes] at hfit
  obtain ⟨s, hs⟩ := writeBytes_ok hp h0 hfit
  obtain ⟨data, _, hq⟩ := (writeBytes_spec hs).self p hp
  simp only [initWith, hp, hs, writeHeader, hq]
  exact ⟨_, rfl⟩

end Init

/-- After `_pdp_matrix_init` with these dimensions. -/
abbrev InitialisedAs (w : MatrixPool) (dst : Int) (rows columns type : Nat) : Packet →
    MatrixPool → Prop :=
  Initialised w dst (initialSubheader dst rows columns type) (matrixBytesize rows columns type)
    (permsize rows columns)

theorem pdpMatrixInit_spec {w w' : MatrixPool} {dst : Int} {rows columns type : Nat} {p : Packet}
    (hp : w.pool.pdpPacketHeader dst = some p)
    (h : pdpMatrixInit dst rows columns type w = .ok w') :
    InitialisedAs w dst rows columns type p w' :=
  initWith_spec hp h

/-! ## Construction -/

/-- What the pool is asked for is right modulo `2 ^ 32`. -/
theorem ofInt32_dsize (b v : Nat) :
    ofInt32 (toInt32 (toInt32 (b : Int) + 8 * (v : Int))) = u32 (b + 8 * v) := by
  rw [toInt32_eq, toInt32_eq]
  unfold ofInt32 u32
  split <;> split <;> omega

theorem ofInt32_matrixDsize (rows columns type : Nat) :
    ofInt32 (matrixDsize rows columns type) = u32 (pdpMatrixMdataByteSize rows columns type +
      8 * pdpMatrixPdataVectorSize rows columns) := by
  unfold matrixDsize matrixBytesize
  exact ofInt32_dsize _ _

/-- `pdp_packet_new_matrix` has made packet `r`. -/
structure MatrixMade (w : MatrixPool) (rows columns type : Nat) (r : Int) (w' : MatrixPool) :
    Prop where
  bytes : matrixBytesize rows columns type ≠ 0
  nonneg : 0 ≤ r
  unused : ∀ p, w.pool.pdpPacketHeader r = some p → p.users = 0
  subheader : w'.subheader =
    Function.update w.subheader r (initialSubheader r rows columns type)
  puts : ∃ data : DataArea,
    data.size + pdpHeaderSize = u32 (ofInt32 (matrixDsize rows columns type) + pdpHeaderSize) ∧
    ((permsize rows columns).toNat ≠ 0 → 0 ≤ matrixBytesize rows columns type ∧
      (matrixBytesize rows columns type).toNat + 8 * (permsize rows columns).toNat ≤ data.size) ∧
    Puts w.pool r (some ⟨initialHeader (Packet.fresh pdpMatrix data).toMeta
      (initialSubheader r rows columns type), 1, data⟩) w'.pool

theorem pdpPacketNewMatrix_cases {w w' : MatrixPool} {rows columns type : Nat} {r : Int}
    (h : pdpPacketNewMatrix rows columns type w = .ok (r, w')) :
    r = -1 ∧ Same w.pool w'.pool ∧ w'.subheader = w.subheader ∨
      MatrixMade w rows columns type r w' := by
  unfold pdpPacketNewMatrix at h
  split at h
  · cases h
    exact Or.inl ⟨rfl, .refl _, rfl⟩
  · next hb =>
      split at h
      · cases h
      · next p s hnew =>
          rcases pdpPacketNew_spec hnew with ⟨rfl, hs⟩ | ho
          · rw [if_pos rfl] at h
            cases h
            exact Or.inl ⟨rfl, hs, rfl⟩
          · rw [if_neg ho.ne_neg_one] at h
            split at h
            · cases h
            · next w₁ hinit =>
                cases h
                obtain ⟨data, hdata, hputs⟩ := ho.puts
                have hi := pdpMatrixInit_spec hputs.self hinit
                obtain ⟨data', hdata', hputs'⟩ := hi.puts
                refine Or.inr ⟨hb, ho.nonneg, ho.unused, hi.subheader, data', ?_, ?_,
                  hputs.trans hputs'⟩
                · rw [hdata']
                  exact hdata
                · rw [hdata']
                  exact hi.inside

/-! ## The clone -/

/-- The type is that of the matrix class. -/
def OfMatrixClass (s : Pool) (d : Symbol) : Prop :=
  s.classList.find? (·.handles d) = some matrixClass

/-- A -1 of `pdp_packet_reuse` leaves the slots alone, too. -/
theorem slots_of_reuse {d : Symbol} {s s' : Pool} (h : pdpPacketReuse (some d) s = .ok (-1, s')) :
    s'.pdpPool = s.pdpPool := by
  have hsave : ∀ (t : Pool) (x : Int) (d' : Symbol),
      (pdpPacketSaveNolock x d' t).pdpPool = t.pdpPool := by
    intro t x d'
    unfold pdpPacketSaveNolock
    split <;> rfl
  have hinv := reuseFrom_inv (I := fun t => t.pdpPool = s.pdpPool) (d := d)
    (fun t x l p hI _ _ _ => hI)
    (fun t x l p d' hI _ _ _ _ _ => (hsave _ x d').trans hI) rfl rfl h
  rcases hinv with ⟨_, hI, _⟩ | ⟨t, p, rest, _, hf, _⟩
  · exact hI
  · exact absurd rfl (ne_neg_one_of_header hf.header)

theorem factory_served {d : Symbol} {s s' : Pool} (hx : Exhausted s d s') (hd : OfMatrixClass s d) :
    (pdpFactoryNewpacket (some d)).run s' = .ok (-1, s') := by
  have hreuse : PoolOp.exec (.reuse (some d)) s' = .ok (-1, s') := by
    simp only [PoolOp.exec, pdpPacketReuse, hx.empty, reuseFrom]
  have hclasses : PoolOp.exec .classes s' = .ok (s'.classList, s') := rfl
  have hcreate : createFromClass s'.classList d = .done (-1) := by
    unfold createFromClass
    rw [hx.classList, hd]
    rfl
  refine (Prog.run_act_ok hreuse).trans ?_
  rw [Prog.done_bind, if_neg (by simp)]
  refine (Prog.run_act_ok hclasses).trans ?_
  show Prog.run PoolOp.exec (createFromClass s'.classList d) s' = _
  rw [hcreate]
  rfl

/-- `r` was reusable, and has one user now. -/
structure Revived (s : Pool) (d : Symbol) (r : Int) (s' : Pool) : Prop where
  reusable : ∃ q, Reusable s d r q ∧ ∀ x, s'.pdpPacketHeader x =
    if x = r then some { q with users := 1 } else s.pdpPacketHeader x
  classList : s'.classList = s.classList

/-- `r` was unused, and has the header of `h` now. -/
structure HeaderCopied (w : MatrixPool) (h : Int) (p : Packet) (r : Int) (w' : MatrixPool) :
    Prop where
  nonneg : 0 ≤ r
  unused : ∀ q, w.pool.pdpPacketHeader r = some q → q.users = 0
  subheader : w'.subheader = Function.update w.subheader r (w.subheader h)
  header : ∃ data : DataArea, data.size = p.data.size ∧ ∀ x, w'.pool.pdpPacketHeader x =
    if x = r then some { p with data := data } else w.pool.pdpPacketHeader x
  classList : w'.pool.classList = w.pool.classList

/-- No packet has changed. -/
structure Untouched (w w' : MatrixPool) : Prop where
  header : ∀ x, w'.pool.pdpPacketHeader x = w.pool.pdpPacketHeader x
  subheader : w'.subheader = w.subheader
  classList : w'.pool.classList = w.pool.classList

/-- The manual clone, after a search that only emptied the fifo. -/
theorem cloneHeader_cases {w w' : MatrixPool} {h r : Int} {p : Packet} {d : Symbol} {s : Pool}
    (hp : w.pool.pdpPacketHeader h = some p) (hu : p.users ≠ 0) (hx : Exhausted w.pool d s)
    (hr : cloneHeader h { w with pool := s } = .ok (r, w')) :
    r = -1 ∧ Untouched w w' ∨ HeaderCopied w h p r w' := by
  have hp₁ : s.pdpPacketHeader h = some p := (hx.header h).trans hp
  simp only [cloneHeader, hp₁] at hr
  split at hr
  · cases hr
  · next r' s₁ hnew =>
      rcases pdpPacketNew_spec hnew with ⟨rfl, hs⟩ | ho
      · rw [if_pos rfl] at hr
        cases hr
        exact Or.inl ⟨rfl, fun x => (hs.header x).trans (hx.header x), rfl,
          hs.classList.trans hx.classList⟩
      · rw [if_neg ho.ne_neg_one] at hr
        split at hr
        · cases hr
        · next s₂ hcopy =>
            cases hr
            obtain ⟨data, hdata, hputs⟩ := ho.puts
            have hne := ho.ne_of_used hp₁ hu
            have hp₂ : s₁.pdpPacketHeader h = some p := (hputs.other (Ne.symm hne)).trans hp₁
            obtain ⟨d₁, q, hd₁, hq, hw⟩ := memcpyHeader_spec hcopy
            cases hp₂.symm.trans hq
            cases hputs.self.symm.trans hd₁
            refine Or.inr ⟨ho.nonneg, fun q hq => ho.unused q ((hx.header r).trans hq), rfl,
              ⟨data, ?_, fun x => ?_⟩, hw.classList.trans (hputs.classList.trans hx.classList)⟩
            · have hlt := p.data.size_lt
              rw [u32_eq_self] at hdata <;> simp only [pdpHeaderSize, DataArea.size] at * <;> omega
            · by_cases hxr : x = r
              · subst hxr
                rw [if_pos rfl]
                exact hw.self
              · rw [if_neg hxr, hw.other hxr, hputs.other hxr, hx.header]

theorem matrixCloneRw_cases {w w' : MatrixPool} {h r : Int} {p : Packet} {d : Symbol}
    (hp : w.pool.pdpPacketHeader h = some p) (hu : p.users ≠ 0) (hd : p.desc = some d)
    (hs : OfMatrixClass w.pool d) (hr : matrixCloneRw h w = .ok (r, w')) :
    Revived w.pool d r w'.pool ∧ w'.subheader = w.subheader ∨
    (∀ x q, ¬ Reusable w.pool d x q) ∧ (r = -1 ∧ Untouched w w' ∨ HeaderCopied w h p r w') := by
  simp only [matrixCloneRw, hp] at hr
  rw [hd] at hr
  split at hr
  · cases hr
  · next r₁ s₁ hreuse =>
      rcases pdpPacketReuse_cases hreuse with ⟨rfl, hx⟩ | ⟨q, hq, hh⟩
      · rw [if_neg (by simp)] at hr
        simp only [factory_served hx hs] at hr
        rw [if_neg (by simp)] at hr
        exact Or.inr ⟨hx.none, cloneHeader_cases hp hu hx hr⟩
      · rw [if_pos (ne_neg_one_of_header hq.2.1)] at hr
        cases hr
        exact Or.inl ⟨⟨⟨q, hq, hh⟩, (pdpPacketReuse_spec hreuse).1⟩, rfl⟩

/-- A packet that waits in a fifo is not one that is in use. -/
theorem Reusable.ne {s : Pool} {d : Symbol} {h r : Int} {p q : Packet} (hq : Reusable s d r q)
    (hp : s.pdpPacketHeader h = some p) (hu : p.users ≠ 0) : h ≠ r := by
  rintro rfl
  cases hp.symm.trans hq.2.1
  exact hu hq.2.2.1

/-- However it ends, the clone is another packet, and the source is as it was. -/
theorem matrixCloneRw_source {w w' : MatrixPool} {h r : Int} {p : Packet} {d : Symbol}
    (hp : w.pool.pdpPacketHeader h = some p) (hu : p.users ≠ 0) (hd : p.desc = some d)
    (hs : OfMatrixClass w.pool d) (hr : matrixCloneRw h w = .ok (r, w')) :
    w'.pool.pdpPacketHeader h = some p ∧ w'.subheader h = w.subheader h ∧ h ≠ r := by
  rcases matrixCloneRw_cases hp hu hd hs hr with ⟨hrev, hsub⟩ | ⟨_, ⟨rfl, hsame⟩ | hcopied⟩
  · obtain ⟨q, hq, hh⟩ := hrev.reusable
    have hne := hq.ne hp hu
    exact ⟨by rw [hh, if_neg hne, hp], by rw [hsub], hne⟩
  · exact ⟨(hsame.header h).trans hp, by rw [hsame.subheader], ne_neg_one_of_header hp⟩
  · obtain ⟨data, _, hh⟩ := hcopied.header
    have hne : h ≠ r := by
      rintro rfl
      exact hu (hcopied.unused p hp)
    exact ⟨by rw [hh, if_neg hne, hp], by rw [hcopied.subheader, Function.update_of_ne hne], hne⟩

/-! ## The same calls without the subheaders -/

end PureDataPacket
