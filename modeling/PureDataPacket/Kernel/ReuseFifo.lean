/-
# `PureDataPacket.Kernel.ReuseFifo` — the fifos as an index of unused packets

Two questions about the hint fifos.

**Do they miss a packet?**  `Indexed` says that no fifo holds a handle twice
and that an unused packet with a description is in the fifo of that
description.  It holds in every run of legal clients that wrap no counter, and
it is what makes a -1 of `pdp_packet_reuse` mean that there is nothing to
reuse.

**Do they hold a handle without a packet?**  `pdp_packet_reuse` dereferences
what it pops.  A packet that `pdp_packet_new` took behind the back of its fifo
is still listed there; deleting it leaves the handle dangling.  `FifoLive`
holds as long as no listed packet is deleted, whoever deletes it.

| | |
| :-- | :-- |
| `Indexed` | unused packets are in the fifo of their description |
| `Indexed.step` | one guarded operation keeps the index |
| `reuseFrom` | the loop keeps the index |
| `FifosIndex` | the first question |
| `FifoLive` | every handle in a fifo has a packet |
| `FifoLive.step` | an operation keeps the handles alive |
| `ReuseSafe` | the second question |
-/
import PureDataPacket.Kernel.Clients

namespace PureDataPacket

open Pool World

/-! ## Completeness -/

/-- No fifo holds a handle twice, and every unused packet with a description
is in the fifo of that description. -/
structure Indexed (s : Pool) : Prop where
  nodup : ∀ d, (s.reusefifo d).Nodup
  complete : ∀ h p d, s.pdpPacketHeader h = some p → p.users = 0 → p.desc = some d →
    h ∈ s.reusefifo d

namespace Indexed

theorem setup (classList : List PdpClass) (malloc : Nat → Option (Nat → UInt8)) :
    Indexed (pdpPacketSetup classList malloc) where
  nodup _ := List.nodup_nil
  complete h p d hp _ _ := by
    have := mem_of_header hp
    simp [pdpPacketSetup] at this

/-- The fifos stay, and the slot that changes is not left out of them. -/
theorem of_slot {s s' : Pool} (hi : Indexed s) {h : Int} {x : Option Packet}
    (hp : Puts s h x s')
    (hx : ∀ p d, x = some p → p.users = 0 → p.desc = some d → h ∈ s.reusefifo d) :
    Indexed s' where
  nodup d := hp.reusefifo ▸ hi.nodup d
  complete y p d hy hu hd := by
    rw [hp.reusefifo]
    by_cases he : y = h
    · subst he
      exact hx p d (hp.self ▸ hy) hu hd
    · exact hi.complete y p d (hp.other he ▸ hy) hu hd

theorem of_used {s s' : Pool} (hi : Indexed s) {h : Int} {p : Packet}
    (hp : Puts s h (some p) s') (hu : p.users ≠ 0) : Indexed s' :=
  hi.of_slot hp fun q d hq hu' _ => by
    cases hq
    exact absurd hu' hu

theorem of_same {s s' : Pool} (hi : Indexed s) (hs : Same s s') : Indexed s' where
  nodup d := hs.reusefifo ▸ hi.nodup d
  complete y p d hy hu hd := by
    rw [hs.reusefifo]
    exact hi.complete y p d (hs.header y ▸ hy) hu hd

theorem nodup_save {s : Pool} {h : Int} {d d' : Symbol} (hn : (s.reusefifo d').Nodup) :
    ((pdpPacketSaveNolock h d s).reusefifo d').Nodup := by
  unfold pdpPacketSaveNolock
  split
  · exact hn
  · next hm =>
      rw [reusefifo_setFifo]
      split
      · next hd =>
          subst hd
          exact List.nodup_cons.mpr ⟨hm, hn⟩
      · exact hn

theorem drop {s : Pool} (hi : Indexed s) {d : Symbol} {h : Int} {l : List Int} {p : Packet}
    (hl : s.reusefifo d = h :: l) (hp : s.pdpPacketHeader h = some p) (hu : p.users ≠ 0) :
    Indexed (s.setFifo d l) where
  nodup d' := by
    rw [reusefifo_setFifo]
    split
    · exact (List.nodup_cons.mp (hl ▸ hi.nodup d)).2
    · exact hi.nodup d'
  complete y q d' hy hq hd := by
    have hm := hi.complete y q d' hy hq hd
    rw [reusefifo_setFifo]
    split
    · next he =>
        subst he
        rw [hl] at hm
        refine (List.mem_cons.mp hm).resolve_left fun he => ?_
        subst he
        cases hp.symm.trans hy
        exact hu hq
    · exact hm

/-- A popped packet of another description goes to its own fifo. -/
theorem move {s : Pool} (hi : Indexed s) {d d' : Symbol} {h : Int} {l : List Int} {p : Packet}
    (hl : s.reusefifo d = h :: l) (hp : s.pdpPacketHeader h = some p) (hd : p.desc = some d') :
    Indexed (pdpPacketSaveNolock h d' (s.setFifo d l)) where
  nodup e := by
    apply nodup_save
    rw [reusefifo_setFifo]
    split
    · exact (List.nodup_cons.mp (hl ▸ hi.nodup d)).2
    · exact hi.nodup e
  complete y q e hy hq he := by
    rw [header_save, header_setFifo] at hy
    have hm := hi.complete y q e hy hq he
    rw [mem_reusefifo_save, reusefifo_setFifo]
    by_cases hyh : y = h
    · subst hyh
      cases hp.symm.trans hy
      exact Or.inr ⟨Option.some.inj (he.symm.trans hd), rfl⟩
    · left
      split
      · next hed =>
          subst hed
          rw [hl] at hm
          exact (List.mem_cons.mp hm).resolve_left hyh
      · exact hm

/-- The packet that `pdp_packet_reuse` takes leaves the index. -/
theorem revive {s : Pool} (hi : Indexed s) {d : Symbol} {r : Int} {p : Packet} {rest : List Int}
    (hf : Found d r s p rest) : Indexed (PureDataPacket.revive d r p rest s) where
  nodup e := by
    rw [PureDataPacket.revive, reusefifo_put, reusefifo_setFifo]
    split
    · exact (List.nodup_cons.mp (hf.fifo ▸ hi.nodup d)).2
    · exact hi.nodup e
  complete y q e hy hq he := by
    have hp : (s.setFifo d rest).pdpPacketHeader r = some p := hf.header
    rw [PureDataPacket.revive, (puts_of_header hp _).header] at hy
    rw [PureDataPacket.revive, reusefifo_put, reusefifo_setFifo]
    by_cases hyr : y = r
    · rw [if_pos hyr] at hy
      cases hy
      cases hq
    · rw [if_neg hyr] at hy
      have hm := hi.complete y q e hy hq he
      split
      · next hed =>
          subst hed
          rw [hf.fifo] at hm
          exact (List.mem_cons.mp hm).resolve_left hyr
      · exact hm

/-- The whole loop keeps the index, and a -1 is only returned when the fifo
has been emptied. -/
theorem reuseFrom {s s' : Pool} (hi : Indexed s) {d : Symbol} {r : Int}
    (h : reuseFrom d (s.reusefifo d) s = .ok (r, s')) :
    Indexed s' ∧ (r = -1 → s'.reusefifo d = []) := by
  have hinv := reuseFrom_inv (I := Indexed)
    (fun _ _ _ _ hi hl hp hu => hi.drop hl hp hu)
    (fun _ _ _ _ _ hi hl hp _ hd _ => hi.move hl hp hd) hi rfl h
  rcases hinv with ⟨_, hi', he⟩ | ⟨t, p, rest, hi', hf, rfl⟩
  · exact ⟨hi', fun _ => he⟩
  · exact ⟨hi'.revive hf, fun hr => absurd hr (ne_neg_one_of_header hf.header)⟩

theorem reuse {s s' : Pool} (hi : Indexed s) {d : Option Symbol} {r : Int}
    (h : pdpPacketReuse d s = .ok (r, s')) : Indexed s' := by
  cases d with
  | none =>
      cases h
      exact hi
  | some d => exact (hi.reuseFrom h).1

theorem markUnused {s : Pool} (hi : Indexed s) (h : Int) : Indexed (pdpPacketMarkUnused h s) := by
  cases hp : s.pdpPacketHeader h with
  | none =>
      rw [pdpPacketMarkUnused_none hp]
      exact hi
  | some p =>
      rcases pdpPacketMarkUnused_eq hp with ⟨he, hd⟩ | ⟨d, hd, hu, he⟩
      · rw [he]
        refine hi.of_slot (puts_of_header hp _) fun q e hq hqu hqd => ?_
        cases hq
        rcases hd with hd | hd
        · simp only at hqu
          omega
        · simp only [hd] at hqd
          cases hqd
      · rw [he]
        refine ⟨fun e => nodup_save (hi.nodup e), fun y q e hy hqu hqe => ?_⟩
        rw [header_save, (puts_of_header hp _).header] at hy
        rw [mem_reusefifo_save, reusefifo_put]
        by_cases hyh : y = h
        · rw [if_pos hyh] at hy
          cases hy
          exact Or.inr ⟨Option.some.inj (hqe.symm.trans hd), hyh⟩
        · rw [if_neg hyh] at hy
          exact Or.inl (hi.complete y q e hy hqu hqe)

end Indexed

variable {C : Type} [DecidableEq C]

theorem Indexed.step {c : C} {w w' : World C} {o : PoolOp} {r : o.Answer} (ha : Accounted w)
    (hi : Indexed w.pool) (hg : Guarded c w o) (h : World.exec c o w = .ok (r, w')) :
    Indexed w'.pool := by
  obtain ⟨he, _⟩ := exec_eq_ok h
  obtain ⟨hperm, hwrap⟩ := hg
  cases o with
  | create t n =>
      rcases pdpPacketCreate_spec he with ⟨_, hs⟩ | ⟨_, ho⟩
      · exact hi.of_same hs
      · obtain ⟨data, _, hp⟩ := ho.puts
        exact hi.of_used hp Nat.one_ne_zero
  | new t n =>
      rcases pdpPacketNew_spec he with ⟨_, hs⟩ | ho
      · exact hi.of_same hs
      · obtain ⟨data, _, hp⟩ := ho.puts
        exact hi.of_used hp Nat.one_ne_zero
  | reuse d => exact hi.reuse he
  | copyRo x =>
      obtain ⟨p, hp, hpos, hle⟩ := ha.live hperm
      have hb := ha.bounded x p hp
      have hne := hwrap p hp
      have hu : u32 (p.users + 1) = p.users + 1 := u32_eq_self (by omega)
      simp only [PoolOp.exec, pdpPacketCopyRo_eq hp, Except.ok.injEq, Prod.mk.injEq] at he
      rw [← he.2]
      refine hi.of_used (puts_of_header hp _) ?_
      show u32 (p.users + 1) ≠ 0
      omega
  | markUnused x =>
      simp only [PoolOp.exec, Except.ok.injEq, Prod.mk.injEq] at he
      exact he.2 ▸ hi.markUnused x
  | delete x =>
      obtain ⟨_, hp⟩ := pdpPacketDelete_spec (PoolOp.effect_eq_ok he)
      exact hi.of_slot hp fun p d hx => by cases hx
  | header x =>
      simp only [PoolOp.exec, Except.ok.injEq, Prod.mk.injEq] at he
      exact he.2 ▸ hi
  | classes =>
      simp only [PoolOp.exec, Except.ok.injEq, Prod.mk.injEq] at he
      exact he.2 ▸ hi
  | writeHeader x m =>
      obtain ⟨p, hp, hputs⟩ := writeHeader_spec (PoolOp.effect_eq_ok he)
      obtain ⟨q, hq, hpos, _⟩ := ha.live hperm
      cases hp.symm.trans hq
      exact hi.of_used hputs (Nat.ne_of_gt hpos)
  | memcpyHeader d x =>
      obtain ⟨_, p, _, hp, hputs⟩ := memcpyHeader_spec (PoolOp.effect_eq_ok he)
      obtain ⟨q, hq, hle⟩ := ha.covered x hperm.2
      cases hp.symm.trans hq
      exact hi.of_used hputs (Nat.ne_of_gt (Nat.lt_of_lt_of_le hperm.2 hle))
  | memcpyData x l =>
      obtain ⟨p, _, hp, hputs⟩ := memcpyData_spec (PoolOp.effect_eq_ok he)
      obtain ⟨q, hq, hpos, _⟩ := ha.live hperm
      cases hp.symm.trans hq
      exact hi.of_used hputs (Nat.ne_of_gt hpos)

/-- A whole legal call keeps the books and the index. -/
theorem Indexed.call {c : C} {a : Call} {w w' : World C} {r : Int} (ha : Accounted w)
    (hi : Indexed w.pool) (hok : LegalNoWrap c w a) (hr : a.run c w = .ok (r, w')) :
    Accounted w' ∧ Indexed w'.pool := by
  have hwithin : a.prog.Within (World.exec c) (Guarded c) w :=
    Prog.within_of_wp (ensures_call ha hok.1 hok.2)
  refine Prog.run_inv (I := fun w => Accounted w ∧ Indexed w.pool) ?_ ⟨ha, hi⟩ hwithin hr
  intro w₁ o r₁ w₂ h hg he
  exact ⟨h.1.step hg he, Indexed.step h.1 h.2 hg he⟩

/-- What `pdp_packet_reuse` promises of its answer. -/
structure ReuseSpec (s : Pool) (d : Symbol) (r : Int) (s' : Pool) : Prop where
  exhausted : r = -1 → ∀ h p, s.pdpPacketHeader h = some p → p.users = 0 → p.desc ≠ some d
  taken : r ≠ -1 → ∃ p d', s.pdpPacketHeader r = some p ∧ p.users = 0 ∧
    s'.pdpPacketHeader r = some { p with users := 1 } ∧ p.desc = some d' ∧
    pdpTypeDescriptionMatch d' d = true

theorem Indexed.reuseSpec {s s' : Pool} (hi : Indexed s) {d : Symbol} {r : Int}
    (h : pdpPacketReuse (some d) s = .ok (r, s')) : ReuseSpec s d r s' := by
  obtain ⟨_, ⟨hr, hh⟩ | ⟨p, d', _, hp, hu, hd', hd, hm, _, hh⟩⟩ := pdpPacketReuse_spec h
  · refine ⟨fun _ x p hp hu hd => ?_, fun hne => absurd hr hne⟩
    have hm := (hi.reuse h).complete x p d (hh x ▸ hp) hu hd
    rw [(hi.reuseFrom h).2 hr] at hm
    cases hm
  · cases hd
    refine ⟨fun hr => absurd hr (ne_neg_one_of_header hp),
      fun _ => ⟨p, d', hp, hu, ?_, hd', hm⟩⟩
    rw [hh, if_pos rfl]

/-- The fifos index the unused packets, and `pdp_packet_reuse` lives up to it. -/
def FifosIndex (s : Pool) : Prop :=
  Indexed s ∧ ∀ d r s', pdpPacketReuse (some d) s = .ok (r, s') → ReuseSpec s d r s'

/-- In every run of legal clients in which no counter wraps, the fifos index
the unused packets. -/
theorem reachable_fifosIndex (classList : List PdpClass) (malloc : Nat → Option (Nat → UInt8))
    (w : World C) (h : Reaches LegalNoWrap (World.init C classList malloc) w) :
    FifosIndex w.pool := by
  have hinv : Accounted w ∧ Indexed w.pool :=
    h.inv (I := fun w => Accounted w ∧ Indexed w.pool)
      ⟨Accounted.init classList malloc, Indexed.setup classList malloc⟩
      fun _ _ _ _ _ hI hok hr => Indexed.call hI.1 hI.2 hok hr
  exact ⟨hinv.2, fun _ _ _ => hinv.2.reuseSpec⟩

/-- The header that the runs below write to a new packet. -/
def described (d : Symbol) : Meta where
  type := pdpImage
  desc := some d
  flags := 0
  theclass := none
  info := ⟨0, 0, 0, 0, 0⟩

/-- A packet is released, and waits in the fifo of its type. -/
theorem reachable_fifosIndex_once : ∃ w : World Unit, w.refs = [] ∧
    w.pool.reusefifo symUnknown = [0] ∧ FifosIndex w.pool :=
  ⟨_, rfl, rfl, reachable_fifosIndex [] zeroHeap _
    (.step () (.markUnused 0)
      (.step () (.writeHeader 0 (described symUnknown))
        (.step () (.new 0 16) .refl ⟨trivial, trivial⟩ rfl) ⟨List.mem_cons_self, trivial⟩ rfl)
      ⟨List.mem_cons_self, trivial⟩ rfl)⟩

/-- A packet whose count wraps to 0 has not been released, and is in no fifo. -/
theorem copies_not_indexed :
    ¬ ∀ w : World Unit, Reaches (fun c w a => a.Legal c w) (World.init Unit [] zeroHeap) w →
      FifosIndex w.pool := by
  intro hall
  have hw₀ : Reaches (fun c w a => a.Legal c w) (World.init Unit [] zeroHeap) _ :=
    .step () (.writeHeader 0 (described symUnknown))
      (.step () (.new 0 16) .refl trivial rfl) (List.mem_cons_self) rfl
  obtain ⟨w, hw, _, hp, _, hf⟩ :=
    reaches_copies (h := 0) hw₀ (List.mem_cons_self) rfl (by decide) (2 ^ 32 - 1)
  have hm := (hall w hw).1.complete 0 _ symUnknown hp (by decide) rfl
  rw [hf] at hm
  exact absurd hm (by decide)

/-! ## Dangling handles -/

/-- Every handle in a fifo has a packet. -/
def FifoLive (s : Pool) : Prop := ∀ d h, h ∈ s.reusefifo d → ∃ p, s.pdpPacketHeader h = some p

namespace FifoLive

theorem of_slot {s s' : Pool} (hl : FifoLive s) {h : Int} {p : Packet}
    (hp : Puts s h (some p) s') : FifoLive s' := by
  intro d y hy
  rw [hp.reusefifo] at hy
  by_cases he : y = h
  · exact ⟨p, he ▸ hp.self⟩
  · obtain ⟨q, hq⟩ := hl d y hy
    exact ⟨q, (hp.other he).trans hq⟩

theorem of_same {s s' : Pool} (hl : FifoLive s) (hs : Same s s') : FifoLive s' := by
  intro d y hy
  rw [hs.reusefifo] at hy
  obtain ⟨q, hq⟩ := hl d y hy
  exact ⟨q, (hs.header y).trans hq⟩

theorem pop {s : Pool} (hl : FifoLive s) {d : Symbol} {h : Int} {l : List Int}
    (hf : s.reusefifo d = h :: l) : FifoLive (s.setFifo d l) := by
  intro e y hy
  rw [reusefifo_setFifo] at hy
  split at hy
  · exact hl d y (hf ▸ List.mem_cons_of_mem _ hy)
  · exact hl e y hy

theorem save {s : Pool} (hl : FifoLive s) {h : Int} {d : Symbol} {p : Packet}
    (hp : s.pdpPacketHeader h = some p) : FifoLive (pdpPacketSaveNolock h d s) := by
  intro e y hy
  rw [header_save]
  rcases mem_reusefifo_save.mp hy with hy | ⟨_, rfl⟩
  · exact hl e y hy
  · exact ⟨p, hp⟩

theorem reuse {s s' : Pool} (hl : FifoLive s) {d : Option Symbol} {r : Int}
    (h : pdpPacketReuse d s = .ok (r, s')) : FifoLive s' := by
  cases d with
  | none =>
      cases h
      exact hl
  | some d =>
      have hinv := reuseFrom_inv (I := FifoLive)
        (fun _ _ _ _ hl hf _ _ => hl.pop hf)
        (fun _ _ _ _ _ hl hf hp _ _ _ => (hl.pop hf).save hp) hl rfl h
      rcases hinv with ⟨_, hl', _⟩ | ⟨t, p, rest, hl', hf, rfl⟩
      · exact hl'
      · have hp : (t.setFifo d rest).pdpPacketHeader r = some p := hf.header
        exact (hl'.pop hf.fifo).of_slot (puts_of_header hp _)

theorem markUnused {s : Pool} (hl : FifoLive s) (h : Int) :
    FifoLive (pdpPacketMarkUnused h s) := by
  cases hp : s.pdpPacketHeader h with
  | none =>
      rw [pdpPacketMarkUnused_none hp]
      exact hl
  | some p =>
      have hputs := puts_of_header hp (some { p with users := p.users - 1 })
      rcases pdpPacketMarkUnused_eq hp with ⟨he, _⟩ | ⟨d, _, _, he⟩
      · rw [he]
        exact hl.of_slot hputs
      · rw [he]
        exact (hl.of_slot hputs).save hputs.self

/-- The loop of `pdp_packet_reuse` finds a header behind each handle it pops. -/
theorem reuse_ne_nullHeader {s : Pool} (hl : FifoLive s) (d : Option Symbol) :
    pdpPacketReuse d s ≠ .error .nullHeader := by
  cases d with
  | none => exact fun h => by cases h
  | some d =>
      show reuseFrom d (s.reusefifo d) s ≠ _
      have hall : ∀ y ∈ s.reusefifo d, ∃ p, s.pdpPacketHeader y = some p := hl d
      generalize s.reusefifo d = l at hall
      clear hl
      induction l generalizing s with
      | nil => exact fun h => by cases h
      | cons y l ih =>
          obtain ⟨p, hp⟩ := hall y List.mem_cons_self
          have rest : ∀ x ∈ l, ∃ q, s.pdpPacketHeader x = some q :=
            fun x hx => hall x (List.mem_cons_of_mem _ hx)
          simp only [reuseFrom, header_setFifo, hp]
          split
          · split
            · exact fun h => by cases h
            · split
              · exact fun h => by cases h
              · exact ih (by simpa using rest)
          · exact ih (by simpa using rest)

end FifoLive

/-- A packet that is deleted is in no fifo. -/
def Unlisted (w : World C) : PoolOp → Prop
  | .delete h => ∀ d, h ∉ w.pool.reusefifo d
  | _ => True

/-- One operation keeps the handles in the fifos alive, if it does not delete
one of them. -/
theorem FifoLive.step {c : C} {w w' : World C} {o : PoolOp} {r : o.Answer} (hl : FifoLive w.pool)
    (hg : Unlisted w o) (h : World.exec c o w = .ok (r, w')) : FifoLive w'.pool := by
  obtain ⟨he, _⟩ := exec_eq_ok h
  cases o with
  | create t n =>
      rcases pdpPacketCreate_spec he with ⟨_, hs⟩ | ⟨_, ho⟩
      · exact hl.of_same hs
      · obtain ⟨data, _, hp⟩ := ho.puts
        exact hl.of_slot hp
  | new t n =>
      rcases pdpPacketNew_spec he with ⟨_, hs⟩ | ho
      · exact hl.of_same hs
      · obtain ⟨data, _, hp⟩ := ho.puts
        exact hl.of_slot hp
  | reuse d => exact hl.reuse he
  | copyRo x =>
      simp only [PoolOp.exec, Except.ok.injEq] at he
      cases hp : w.pool.pdpPacketHeader x with
      | none =>
          rw [pdpPacketCopyRo_none hp, Prod.mk.injEq] at he
          exact he.2 ▸ hl
      | some p =>
          rw [pdpPacketCopyRo_eq hp, Prod.mk.injEq] at he
          exact he.2 ▸ hl.of_slot (puts_of_header hp _)
  | markUnused x =>
      simp only [PoolOp.exec, Except.ok.injEq, Prod.mk.injEq] at he
      exact he.2 ▸ hl.markUnused x
  | delete x =>
      obtain ⟨_, hp⟩ := pdpPacketDelete_spec (PoolOp.effect_eq_ok he)
      intro d y hy
      rw [hp.reusefifo] at hy
      have hne : y ≠ x := fun h => hg d (h ▸ hy)
      obtain ⟨q, hq⟩ := hl d y hy
      exact ⟨q, (hp.other hne).trans hq⟩
  | header x =>
      simp only [PoolOp.exec, Except.ok.injEq, Prod.mk.injEq] at he
      exact he.2 ▸ hl
  | classes =>
      simp only [PoolOp.exec, Except.ok.injEq, Prod.mk.injEq] at he
      exact he.2 ▸ hl
  | writeHeader x m =>
      obtain ⟨p, _, hp⟩ := writeHeader_spec (PoolOp.effect_eq_ok he)
      exact hl.of_slot hp
  | memcpyHeader d x =>
      obtain ⟨_, p, _, _, hp⟩ := memcpyHeader_spec (PoolOp.effect_eq_ok he)
      exact hl.of_slot hp
  | memcpyData x l =>
      obtain ⟨p, _, _, hp⟩ := memcpyData_spec (PoolOp.effect_eq_ok he)
      exact hl.of_slot hp

/-- No `pdp_packet_delete` in the course of the call, be it the client's own or
that of a factory that refuses what it made, hits a packet in a fifo. -/
def DeletesUnlisted (c : C) (w : World C) (a : Call) : Prop :=
  a.prog.Within (World.exec c) Unlisted w

/-- Every handle in a fifo has a packet, so that `pdp_packet_reuse` never
dereferences a null header. -/
def ReuseSafe (s : Pool) : Prop :=
  FifoLive s ∧ ∀ d, pdpPacketReuse d s ≠ .error .nullHeader

/-- In every run in which nothing that is in a fifo gets deleted, no fifo holds
a dangling handle.  The clients need not even be legal. -/
theorem reachable_reuseSafe (classList : List PdpClass) (malloc : Nat → Option (Nat → UInt8))
    (w : World C) (h : Reaches DeletesUnlisted (World.init C classList malloc) w) :
    ReuseSafe w.pool := by
  have hl : FifoLive w.pool := by
    refine h.inv (I := fun w => FifoLive w.pool) ?_ fun c a w₁ w₂ r hl hok hr => ?_
    · intro d y hy
      cases hy
    · have hwithin : a.prog.Within (World.exec c) Unlisted w₁ := hok
      refine Prog.run_inv (I := fun w => FifoLive w.pool) ?_ hl hwithin hr
      exact fun w₁ o r₁ w₂ hl hg he => hl.step hg he
  exact ⟨hl, hl.reuse_ne_nullHeader⟩

theorem reachable_reuseSafe_once :
    ∃ w : World Unit, w.refs = [((), 0)] ∧ ReuseSafe w.pool := by
  -- the packet that is released waits in a fifo, from which it is taken again
  refine ⟨_, ?_, reachable_reuseSafe [] zeroHeap _
    (.step () (.reuse symUnknown) (.step () (.markUnused 0)
      (.step () (.writeHeader 0 (described symUnknown))
        (.step () (.new 0 16) .refl ⟨trivial, fun _ _ _ => trivial⟩ rfl)
        ⟨trivial, fun _ _ _ => trivial⟩ rfl)
      ⟨trivial, fun _ _ _ => trivial⟩ rfl) ⟨trivial, fun _ _ _ => trivial⟩ rfl)⟩
  rfl

/-- Release, take by size, delete, reuse: a legal client leaves the handle of a
deleted packet in a fifo. -/
theorem delete_leaves_dangling :
    ¬ ∀ w : World Unit, Reaches (fun c w a => a.Legal c w) (World.init Unit [] zeroHeap) w →
      ReuseSafe w.pool := by
  intro hall
  have released : Reaches (fun c w a => a.Legal c w) (World.init Unit [] zeroHeap) _ :=
    .step () (.markUnused 0)
      (.step () (.writeHeader 0 (described symUnknown))
        (.step () (.new 0 16) .refl trivial rfl) (List.mem_cons_self) rfl)
      (List.mem_cons_self) rfl
  have deleted : Reaches (fun c w a => a.Legal c w) (World.init Unit [] zeroHeap) _ :=
    .step () (.delete 0) (.step () (.new 0 16) released trivial rfl)
      ⟨List.mem_cons_self, _, rfl, rfl⟩ rfl
  exact (hall _ deleted).2 (some symUnknown) rfl

end PureDataPacket
