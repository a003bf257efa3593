/-
# `PureDataPacket.Kernel.PoolSpec` — what each pool operation does

Everything above the pool sees two things of it: which packet a handle
designates, and what is in the fifos.  This file says once, for each operation
that can fail or search, what becomes of the two; no later proof unfolds an
operation again.

| | |
| :-- | :-- |
| `Pool.Same` | neither has changed |
| `Pool.Puts` | one slot has changed, and no fifo |
| `Pool.HandsOut` | a slot that nobody used holds a new packet with one user |
-/
import PureDataPacket.Kernel.PoolOp

namespace PureDataPacket

namespace Pool

/-! ## Slots -/

theorem lt_of_header {s : Pool} {h : Int} {p : Packet} (hp : s.pdpPacketHeader h = some p) :
    0 ≤ h ∧ h < s.pdpPoolSize := by
  unfold pdpPacketHeader at hp
  split at hp
  · assumption
  · cases hp

theorem header_neg_one (s : Pool) : s.pdpPacketHeader (-1) = none := by
  unfold pdpPacketHeader
  rw [if_neg (by omega)]

theorem header_of_getElem {s : Pool} {i : Nat} {x : Option Packet} (hx : s.pdpPool[i]? = some x) :
    s.pdpPacketHeader i = x := by
  have hi : i < s.pdpPool.length := (List.getElem?_eq_some_iff.mp hx).1
  have hr : (0 : Int) ≤ i ∧ (i : Int) < s.pdpPoolSize := by
    simp only [pdpPoolSize]
    omega
  simp only [pdpPacketHeader, if_pos hr, Int.toNat_natCast, List.getD_eq_getElem?_getD, hx,
    Option.getD_some]

theorem mem_of_header {s : Pool} {h : Int} {p : Packet} (hp : s.pdpPacketHeader h = some p) :
    some p ∈ s.pdpPool := by
  have hr := lt_of_header hp
  simp only [pdpPacketHeader, if_pos hr] at hp
  have hi : h.toNat < s.pdpPool.length := by
    simp only [pdpPoolSize] at hr
    omega
  rw [List.getD_eq_getElem?_getD, List.getElem?_eq_getElem hi, Option.getD_some] at hp
  exact hp ▸ List.getElem_mem hi

theorem header_put {s : Pool} {h : Int} (lo : 0 ≤ h) (hi : h < s.pdpPoolSize) (x : Option Packet)
    (h' : Int) : (s.put h x).pdpPacketHeader h' = if h' = h then x else s.pdpPacketHeader h' := by
  have hs : (s.put h x).pdpPoolSize = s.pdpPoolSize := List.length_set
  unfold pdpPacketHeader
  rw [hs]
  by_cases he : h' = h
  · subst he
    have hr : 0 ≤ h' ∧ h' < s.pdpPoolSize := ⟨lo, hi⟩
    have hlen : h'.toNat < s.pdpPool.length := by
      simp only [pdpPoolSize] at hi
      omega
    rw [if_pos hr, if_pos rfl]
    simp only [put, List.getD_eq_getElem?_getD, List.getElem?_set_self hlen, Option.getD_some]
  · rw [if_neg he]
    split
    · next hr =>
        simp only [put, List.getD_eq_getElem?_getD]
        rw [List.getElem?_set_ne (by omega)]
    · rfl

@[simp] theorem reusefifo_put (s : Pool) (h : Int) (x : Option Packet) :
    (s.put h x).reusefifo = s.reusefifo := rfl

@[simp] theorem header_setFifo (s : Pool) (d : Symbol) (l : List Int) (h : Int) :
    (s.setFifo d l).pdpPacketHeader h = s.pdpPacketHeader h := rfl

@[simp] theorem classList_setFifo (s : Pool) (d : Symbol) (l : List Int) :
    (s.setFifo d l).classList = s.classList := rfl

theorem reusefifo_setFifo (s : Pool) (d d' : Symbol) (l : List Int) :
    (s.setFifo d l).reusefifo d' = if d' = d then l else s.reusefifo d' := by
  simp only [setFifo, Function.update_apply]

@[simp] theorem header_tick (s : Pool) (h : Int) :
    s.tick.pdpPacketHeader h = s.pdpPacketHeader h := rfl

@[simp] theorem reusefifo_tick (s : Pool) : s.tick.reusefifo = s.reusefifo := rfl

@[simp] theorem header_grow (s : Pool) (h : Int) :
    s.grow.pdpPacketHeader h = s.pdpPacketHeader h := by
  have hs : s.grow.pdpPoolSize = s.pdpPoolSize + s.pdpPoolSize := by
    simp [grow, pdpPoolSize]
  unfold pdpPacketHeader
  rw [hs]
  simp only [grow, List.getD_eq_getElem?_getD, List.getElem?_append, List.getElem?_replicate]
  by_cases hr : 0 ≤ h ∧ h < s.pdpPoolSize
  · have hl : h.toNat < s.pdpPool.length := by
      simp only [pdpPoolSize] at hr
      omega
    rw [if_pos hr, if_pos (by omega), if_pos hl]
  · rw [if_neg hr]
    split
    · next hr' =>
        rw [if_neg (by simp only [pdpPoolSize] at hr; omega)]
        split <;> rfl
    · rfl

@[simp] theorem reusefifo_grow (s : Pool) : s.grow.reusefifo = s.reusefifo := rfl

/-! ## Two pools compared -/

/-- The same packets and the same fifos. -/
structure Same (s s' : Pool) : Prop where
  header : ∀ h, s'.pdpPacketHeader h = s.pdpPacketHeader h
  reusefifo : s'.reusefifo = s.reusefifo
  classList : s'.classList = s.classList

theorem Same.refl (s : Pool) : Same s s := ⟨fun _ => rfl, rfl, rfl⟩

theorem Same.trans {s s' s'' : Pool} (h : Same s s') (h' : Same s' s'') : Same s s'' where
  header x := (h'.header x).trans (h.header x)
  reusefifo := h'.reusefifo.trans h.reusefifo
  classList := h'.classList.trans h.classList

theorem same_tick (s : Pool) : Same s s.tick := ⟨fun _ => rfl, rfl, rfl⟩

theorem same_grow (s : Pool) : Same s s.tick.grow := ⟨fun h => header_grow s.tick h, rfl, rfl⟩

/-- `s'` is `s` with `x` in slot `h`. -/
structure Puts (s : Pool) (h : Int) (x : Option Packet) (s' : Pool) : Prop where
  header : ∀ h', s'.pdpPacketHeader h' = if h' = h then x else s.pdpPacketHeader h'
  reusefifo : s'.reusefifo = s.reusefifo
  classList : s'.classList = s.classList

theorem puts_put {s : Pool} {h : Int} (lo : 0 ≤ h) (hi : h < s.pdpPoolSize) (x : Option Packet) :
    Puts s h x (s.put h x) := ⟨header_put lo hi x, rfl, rfl⟩

theorem puts_of_header {s : Pool} {h : Int} {p : Packet} (hp : s.pdpPacketHeader h = some p)
    (x : Option Packet) : Puts s h x (s.put h x) :=
  puts_put (lt_of_header hp).1 (lt_of_header hp).2 x

theorem Same.puts {s s' t : Pool} {h : Int} {x : Option Packet} (hs : Same s s')
    (hp : Puts s' h x t) : Puts s h x t where
  header h' := by rw [hp.header, hs.header]
  reusefifo := hp.reusefifo.trans hs.reusefifo
  classList := hp.classList.trans hs.classList

theorem Puts.trans {s s₁ s₂ : Pool} {h : Int} {x y : Option Packet} (hx : Puts s h x s₁)
    (hy : Puts s₁ h y s₂) : Puts s h y s₂ where
  header h' := by
    rw [hy.header, hx.header]
    split <;> rfl
  reusefifo := hy.reusefifo.trans hx.reusefifo
  classList := hy.classList.trans hx.classList

theorem Puts.self {s s' : Pool} {h : Int} {x : Option Packet} (hp : Puts s h x s') :
    s'.pdpPacketHeader h = x := by
  rw [hp.header, if_pos rfl]

theorem Puts.other {s s' : Pool} {h h' : Int} {x : Option Packet} (hp : Puts s h x s')
    (hne : h' ≠ h) : s'.pdpPacketHeader h' = s.pdpPacketHeader h' := by
  rw [hp.header, if_neg hne]

/-- Slot `h`, empty or unused before, holds a new packet of `n` bytes. -/
structure HandsOut (s : Pool) (t n : Nat) (h : Int) (s' : Pool) : Prop where
  nonneg : 0 ≤ h
  unused : ∀ p, s.pdpPacketHeader h = some p → p.users = 0
  puts : ∃ data : DataArea, data.size + pdpHeaderSize = u32 (n + pdpHeaderSize) ∧
    Puts s h (some (.fresh t data)) s'

theorem Same.handsOut {s s' s'' : Pool} {t n : Nat} {r : Int} (hs : Same s s')
    (ho : HandsOut s' t n r s'') : HandsOut s t n r s'' where
  nonneg := ho.nonneg
  unused := by
    intro p hp
    exact ho.unused p (by rw [hs.header, hp])
  puts := by
    obtain ⟨data, hd, hp⟩ := ho.puts
    exact ⟨data, hd, hs.puts hp⟩

theorem HandsOut.ne_neg_one {s s' : Pool} {t n : Nat} {h : Int} (ho : HandsOut s t n h s') :
    h ≠ -1 := by
  have := ho.nonneg
  omega

end Pool

open Pool

/-! ## Creation -/

theorem pdpPacketAllocNolock_spec {t n : Nat} {s s' : Pool} {x : Option Packet}
    (h : pdpPacketAllocNolock t n s = .ok (x, s')) :
    s' = s.tick ∧ (x = none ∨ ∃ data : DataArea,
      data.size + pdpHeaderSize = u32 (n + pdpHeaderSize) ∧ x = some (.fresh t data)) := by
  simp only [pdpPacketAllocNolock] at h
  by_cases hi : u32 (n + pdpHeaderSize) < 2 ^ 31
  · rw [dif_pos hi] at h
    split at h
    · cases h
      exact ⟨rfl, Or.inl rfl⟩
    · by_cases lo : pdpHeaderSize ≤ u32 (n + pdpHeaderSize)
      · rw [dif_pos lo] at h
        cases h
        refine ⟨rfl, Or.inr ⟨_, ?_, rfl⟩⟩
        rw [DataArea.size_ofFill]
        omega
      · rw [dif_neg lo] at h
        cases h
  · rw [dif_neg hi] at h
    cases h
    exact ⟨rfl, Or.inl rfl⟩

theorem createAt_spec {t n slot : Nat} {s s' : Pool} {r : Int}
    (hslot : s.pdpPool[slot]? = some none) (h : createAt t n slot s = .ok (r, s')) :
    r = -1 ∧ Same s s' ∨ s.pdpPacketHeader r = none ∧ HandsOut s t n r s' := by
  have hempty := header_of_getElem hslot
  have hlt : slot < s.pdpPool.length := (List.getElem?_eq_some_iff.mp hslot).1
  unfold createAt at h
  split at h
  · cases h
  · next he =>
      cases h
      exact Or.inl ⟨rfl, (pdpPacketAllocNolock_spec he).1 ▸ same_tick s⟩
  · next header s₁ he =>
      obtain ⟨rfl, hx | ⟨data, hd, hx⟩⟩ := pdpPacketAllocNolock_spec he
      · cases hx
      · cases hx
        cases h
        have hp : Puts s.tick slot (some (.fresh t data)) (s.tick.put slot (some (.fresh t data))) :=
          puts_put (by omega) (by simpa [tick, pdpPoolSize] using hlt) _
        exact Or.inr ⟨hempty, by omega, by simp [hempty], data, hd, (same_tick s).puts hp⟩

theorem firstEmpty_spec {s : Pool} {slot : Nat} (h : firstEmpty s = some slot) :
    s.pdpPool[slot]? = some none := by
  obtain ⟨hlt, hnone, _⟩ := List.findIdx?_eq_some_iff_getElem.mp h
  rw [List.getElem?_eq_getElem hlt, Option.isNone_iff_eq_none.mp hnone]

theorem expand_spec {s s' : Pool} (h : pdpPoolExpandNolock s = .ok s') :
    Same s s' ∧ s'.pdpPool[s.pdpPoolSize]? = some none := by
  unfold pdpPoolExpandNolock at h
  split at h
  · cases h
  · split at h
    · cases h
    · cases h
      refine ⟨same_grow s, ?_⟩
      have := s.size_pos
      simp [grow, tick, pdpPoolSize, this]

theorem pdpPacketCreate_spec {t n : Nat} {s s' : Pool} {r : Int}
    (h : pdpPacketCreate t n s = .ok (r, s')) :
    r = -1 ∧ Same s s' ∨ s.pdpPacketHeader r = none ∧ HandsOut s t n r s' := by
  unfold pdpPacketCreate at h
  split at h
  · next he => exact createAt_spec (firstEmpty_spec he) h
  · split at h
    · cases h
    · next he =>
        obtain ⟨hs, hslot⟩ := expand_spec he
        rcases createAt_spec hslot h with ⟨hr, hs'⟩ | ⟨hr, ho⟩
        · exact Or.inl ⟨hr, hs.trans hs'⟩
        · exact Or.inr ⟨hs.header r ▸ hr, hs.handsOut ho⟩

theorem findPacketFrom_spec {test : Packet → Bool} {l : List (Option Packet)} {slot i : Nat}
    {p : Packet} (h : findPacketFrom test l slot = some (i, p)) :
    slot ≤ i ∧ l[i - slot]? = some (some p) ∧ test p = true := by
  induction l generalizing slot with
  | nil => cases h
  | cons x l ih =>
      have later : findPacketFrom test l (slot + 1) = some (i, p) →
          slot ≤ i ∧ (x :: l)[i - slot]? = some (some p) ∧ test p = true := by
        intro h
        obtain ⟨hle, hget, ht⟩ := ih h
        have : i - slot = (i - (slot + 1)) + 1 := by omega
        exact ⟨by omega, by rw [this, List.getElem?_cons_succ, hget], ht⟩
      cases x with
      | none => exact later h
      | some q =>
          simp only [findPacketFrom] at h
          split at h
          · next ht =>
              cases h
              exact ⟨Nat.le_refl _, by simp, ht⟩
          · exact later h

theorem pdpPacketNew_spec {t n : Nat} {s s' : Pool} {r : Int}
    (h : pdpPacketNew t n s = .ok (r, s')) :
    r = -1 ∧ Same s s' ∨ HandsOut s t n r s' := by
  unfold pdpPacketNew at h
  split at h
  · next i p he =>
      cases h
      obtain ⟨_, hget, ht⟩ := findPacketFrom_spec he
      have hp := header_of_getElem hget
      simp only [reapable, Nat.sub_zero, Bool.and_eq_true, decide_eq_true_eq] at ht hp
      refine Or.inr ⟨by omega, ?_, p.data, ht.1.2, puts_of_header hp _⟩
      intro q hq
      cases hp.symm.trans hq
      exact ht.1.1
  · rcases pdpPacketCreate_spec h with hr | ⟨_, ho⟩
    · exact Or.inl hr
    · exact Or.inr ho

/-! ## Reuse -/

theorem pdpTypeDescriptionMatch_self (d : Symbol) : pdpTypeDescriptionMatch d d = true := by
  simp [pdpTypeDescriptionMatch]

@[simp] theorem header_save (s : Pool) (packet : Int) (d : Symbol) (h : Int) :
    (pdpPacketSaveNolock packet d s).pdpPacketHeader h = s.pdpPacketHeader h := by
  unfold pdpPacketSaveNolock
  split <;> rfl

@[simp] theorem classList_save (s : Pool) (packet : Int) (d : Symbol) :
    (pdpPacketSaveNolock packet d s).classList = s.classList := by
  unfold pdpPacketSaveNolock
  split <;> rfl

theorem mem_reusefifo_save {s : Pool} {packet h : Int} {d d' : Symbol} :
    h ∈ (pdpPacketSaveNolock packet d s).reusefifo d' ↔
      h ∈ s.reusefifo d' ∨ d' = d ∧ h = packet := by
  unfold pdpPacketSaveNolock
  split
  · next hm =>
      constructor
      · exact Or.inl
      · rintro (h | ⟨rfl, rfl⟩)
        · exact h
        · exact hm
  · rw [reusefifo_setFifo]
    split
    · next hd =>
        subst hd
        simp only [List.mem_cons, true_and]
        exact or_comm
    · next hd => simp [hd]

theorem reusefifo_save_ne {s : Pool} {packet : Int} {d d' : Symbol} (hd : d' ≠ d) :
    (pdpPacketSaveNolock packet d s).reusefifo d' = s.reusefifo d' := by
  unfold pdpPacketSaveNolock
  split
  · rfl
  · rw [reusefifo_setFifo, if_neg hd]

/-- The state in which the loop of `pdp_packet_reuse` found packet `r`: it is
the first of its fifo, and it is what is wanted. -/
structure Found (d : Symbol) (r : Int) (s : Pool) (p : Packet) (rest : List Int) : Prop where
  fifo : s.reusefifo d = r :: rest
  header : s.pdpPacketHeader r = some p
  unused : p.users = 0
  matches' : ∃ d', p.desc = some d' ∧ pdpTypeDescriptionMatch d' d = true

/-- The last step of `pdp_packet_reuse`: pop the packet and take it. -/
def revive (d : Symbol) (r : Int) (p : Packet) (rest : List Int) (s : Pool) : Pool :=
  (s.setFifo d rest).put r (some { p with users := 1 })

/-- The loop rule: what popping a used packet and moving an unused one both
preserve holds when the loop finds its packet, or when its fifo is empty. -/
theorem reuseFrom_inv {I : Pool → Prop} {d : Symbol}
    (drop : ∀ s h l p, I s → s.reusefifo d = h :: l → s.pdpPacketHeader h = some p →
      p.users ≠ 0 → I (s.setFifo d l))
    (move : ∀ s h l p d', I s → s.reusefifo d = h :: l → s.pdpPacketHeader h = some p →
      p.users = 0 → p.desc = some d' → pdpTypeDescriptionMatch d' d = false →
      I (pdpPacketSaveNolock h d' (s.setFifo d l)))
    {l : List Int} {s s' : Pool} {r : Int} (hI : I s) (hl : s.reusefifo d = l)
    (h : reuseFrom d l s = .ok (r, s')) :
    (r = -1 ∧ I s' ∧ s'.reusefifo d = []) ∨
      ∃ t p rest, I t ∧ Found d r t p rest ∧ s' = revive d r p rest t := by
  induction l generalizing s with
  | nil =>
      cases h
      exact Or.inl ⟨rfl, hI, hl⟩
  | cons packet l ih =>
      simp only [reuseFrom, header_setFifo] at h
      split at h
      · cases h
      · next p hp =>
          split at h
          · next hu =>
              split at h
              · cases h
              · next d' hd' =>
                  split at h
                  · next hm =>
                      cases h
                      exact Or.inr ⟨s, p, l, hI, ⟨hl, hp, hu, d', hd', hm⟩, rfl⟩
                  · next hm =>
                      simp only [Bool.not_eq_true] at hm
                      have hne : d ≠ d' := by
                        rintro rfl
                        simp [pdpTypeDescriptionMatch_self] at hm
                      refine ih (move s packet l p d' hI hl hp hu hd' hm) ?_ h
                      rw [reusefifo_save_ne hne, reusefifo_setFifo, if_pos rfl]
          · next hu =>
              refine ih (drop s packet l p hI hl hp hu) ?_ h
              rw [reusefifo_setFifo, if_pos rfl]

/-- What a client sees of `pdp_packet_reuse`: no packet has changed, but for
an unused one that is now his. -/
theorem pdpPacketReuse_spec {d : Option Symbol} {s s' : Pool} {r : Int}
    (h : pdpPacketReuse d s = .ok (r, s')) :
    s'.classList = s.classList ∧
    (r = -1 ∧ (∀ x, s'.pdpPacketHeader x = s.pdpPacketHeader x) ∨
      ∃ p dr dd, s.pdpPacketHeader r = some p ∧ p.users = 0 ∧ p.desc = some dr ∧ d = some dd ∧
        pdpTypeDescriptionMatch dr dd = true ∧ r ∈ s.reusefifo dd ∧
        ∀ x, s'.pdpPacketHeader x =
          if x = r then some { p with users := 1 } else s.pdpPacketHeader x) := by
  cases d with
  | none =>
      cases h
      exact ⟨rfl, Or.inl ⟨rfl, fun _ => rfl⟩⟩
  | some d =>
      have hinv := reuseFrom_inv (d := d)
        (I := fun t => t.classList = s.classList ∧
          (∀ x, t.pdpPacketHeader x = s.pdpPacketHeader x) ∧
          ∀ x, x ∈ t.reusefifo d → x ∈ s.reusefifo d)
        (fun t h l p hI hl _ _ => ⟨hI.1, hI.2.1, fun x hx => by
          rw [reusefifo_setFifo, if_pos rfl] at hx
          exact hI.2.2 x (by rw [hl]; exact List.mem_cons_of_mem _ hx)⟩)
        (fun t h l p d' hI hl _ _ _ hm => ⟨by simpa using hI.1, by simpa using hI.2.1, fun x hx => by
          have hne : d ≠ d' := by
            rintro rfl
            simp [pdpTypeDescriptionMatch_self] at hm
          rw [reusefifo_save_ne hne, reusefifo_setFifo, if_pos rfl] at hx
          exact hI.2.2 x (by rw [hl]; exact List.mem_cons_of_mem _ hx)⟩)
        ⟨rfl, fun _ => rfl, fun _ => id⟩ rfl h
      rcases hinv with ⟨hr, ⟨hc, hh, _⟩, _⟩ | ⟨t, p, rest, ⟨hc, hh, hf⟩, hfound, rfl⟩
      · exact ⟨hc, Or.inl ⟨hr, hh⟩⟩
      · obtain ⟨dr, hdr, hm⟩ := hfound.matches'
        refine ⟨hc, Or.inr ⟨p, dr, d, hh r ▸ hfound.header, hfound.unused, hdr, rfl, hm,
          hf r (by rw [hfound.fifo]; exact List.mem_cons_self), fun x => ?_⟩⟩
        have hp : (t.setFifo d rest).pdpPacketHeader r = some p := hfound.header
        rw [revive, (puts_of_header hp _).header, header_setFifo, hh]

/-! ## References and writes -/

theorem pdpPacketCopyRo_eq {handle : Int} {s : Pool} {p : Packet}
    (hp : s.pdpPacketHeader handle = some p) :
    pdpPacketCopyRo handle s =
      (handle, s.put handle (some { p with users := u32 (p.users + 1) })) := by
  simp only [pdpPacketCopyRo, hp]

theorem pdpPacketCopyRo_none {handle : Int} {s : Pool} (hp : s.pdpPacketHeader handle = none) :
    pdpPacketCopyRo handle s = (-1, s) := by
  simp only [pdpPacketCopyRo, hp]

theorem pdpPacketMarkUnused_none {handle : Int} {s : Pool}
    (hp : s.pdpPacketHeader handle = none) : pdpPacketMarkUnused handle s = s := by
  simp only [pdpPacketMarkUnused, hp]

/-- A release counts down, and the last one saves a packet that has a
description to its fifo. -/
theorem pdpPacketMarkUnused_eq {handle : Int} {s : Pool} {p : Packet}
    (hp : s.pdpPacketHeader handle = some p) :
    (pdpPacketMarkUnused handle s = s.put handle (some { p with users := p.users - 1 }) ∧
      (1 < p.users ∨ p.desc = none)) ∨
    ∃ d, p.desc = some d ∧ p.users ≤ 1 ∧ pdpPacketMarkUnused handle s =
      pdpPacketSaveNolock handle d (s.put handle (some { p with users := p.users - 1 })) := by
  simp only [pdpPacketMarkUnused, hp]
  by_cases hu : 1 < p.users
  · rw [if_pos hu]
    exact Or.inl ⟨rfl, Or.inl hu⟩
  · have h0 : p.users - 1 = 0 := by omega
    rw [if_neg hu, h0]
    cases hd : p.desc with
    | none => exact Or.inl ⟨rfl, Or.inr rfl⟩
    | some d => exact Or.inr ⟨d, rfl, by omega, rfl⟩

theorem header_markUnused {handle : Int} {s : Pool} {p : Packet}
    (hp : s.pdpPacketHeader handle = some p) (x : Int) :
    (pdpPacketMarkUnused handle s).pdpPacketHeader x =
      if x = handle then some { p with users := p.users - 1 } else s.pdpPacketHeader x := by
  rcases pdpPacketMarkUnused_eq hp with ⟨he, _⟩ | ⟨d, _, _, he⟩
  · rw [he, (puts_of_header hp _).header]
  · rw [he, header_save, (puts_of_header hp _).header]

theorem pdpPacketDelete_spec {handle : Int} {s s' : Pool}
    (h : pdpPacketDelete handle s = .ok s') :
    (∃ p, s.pdpPacketHeader handle = some p) ∧ Puts s handle none s' := by
  unfold pdpPacketDelete at h
  split at h
  · cases h
  · next p hp =>
      cases h
      exact ⟨⟨p, hp⟩, puts_of_header hp none⟩

theorem writeHeader_spec {handle : Int} {m : Meta} {s s' : Pool}
    (h : writeHeader handle m s = .ok s') :
    ∃ p, s.pdpPacketHeader handle = some p ∧ Puts s handle (some { p with toMeta := m }) s' := by
  unfold writeHeader at h
  split at h
  · cases h
  · next p hp =>
      cases h
      exact ⟨p, hp, puts_of_header hp _⟩

theorem memcpyHeader_spec {dst src : Int} {s s' : Pool} (h : memcpyHeader dst src s = .ok s') :
    ∃ d p, s.pdpPacketHeader dst = some d ∧ s.pdpPacketHeader src = some p ∧
      Puts s dst (some { p with data := d.data }) s' := by
  unfold memcpyHeader at h
  split at h
  · next d p hd hp =>
      cases h
      exact ⟨d, p, hd, hp, puts_of_header hd _⟩
  · cases h

theorem memcpyData_spec {dst : Int} {l : List UInt8} {s s' : Pool}
    (h : memcpyData dst l s = .ok s') :
    ∃ d, ∃ fits : l.length ≤ d.data.size, s.pdpPacketHeader dst = some d ∧
      Puts s dst (some { d with data := d.data.overwrite l fits }) s' := by
  unfold memcpyData at h
  split at h
  · cases h
  · next d hd =>
      by_cases fits : l.length ≤ d.data.size
      · rw [dif_pos fits] at h
        cases h
        exact ⟨d, fits, hd, puts_of_header hd _⟩
      · rw [dif_neg fits] at h
        cases h

theorem PoolOp.effect_eq_ok {x : Except Fault Pool} {s : Pool} {r : Unit}
    (h : PoolOp.effect x = .ok (r, s)) : x = .ok s := by
  cases x with
  | error e => cases h
  | ok t =>
      cases h
      rfl

end PureDataPacket
