/-
# `PureDataPacket.Kernel.Teardown` — every packet buffer is freed once

`_pdp_packet_alloc_nolock` obtains the buffer of a packet;
`_pdp_packet_dealloc_nolock` gives it back, in `pdp_packet_delete` and for all
that is left in `pdp_packet_destroy`.  The ledger numbers the buffers in the
order in which they are obtained and keeps which of them is in which slot.

`pdp_packet_destroy` walks the pool up to the first empty slot.  So what is
left over after it is what lies behind a hole; the pool without one is all that
it can clear.

| | |
| :-- | :-- |
| `Accounted` | every buffer is either in one slot or has been given back |
| `occupies_exec` | what an operation does to the slots is what the ledger is told |
| `Accounted.record` | an operation keeps the ledger balanced |
| `NoHole` | there is no packet behind an empty slot |
| `FreedOnce` | every buffer ever obtained is given back once |
-/
import PureDataPacket.Kernel.PoolSpec
import Mathlib.Data.List.Nodup

namespace PureDataPacket

open Pool

/-- The slots that `pdp_packet_destroy` frees, from slot `i` on. -/
def pdpPacketDestroy : List (Option Packet) → Nat → List Nat
  | some _ :: rest, i => i :: pdpPacketDestroy rest (i + 1)
  | none :: _, _ => []
  | [], _ => []

/-- The pool and the buffers behind it: which one a slot has, how many have
been obtained, and which have been given back. -/
structure Ledger where
  pool : Pool
  buffer : Int → Option Nat
  obtained : Nat
  freed : List Nat

/-- The slot for which an operation has obtained a buffer.  `pdp_packet_new`
does so if its search was in vain; -1 says that there was no memory. -/
def obtains : ∀ o : PoolOp, o.Answer → Pool → Option Int
  | .create _ _, answer, _ => if answer = -1 then none else some answer
  | .new _ datasize, answer, s =>
      match findPacketFrom (reapable datasize) s.pdpPool 0 with
      | some _ => none
      | none => if answer = -1 then none else some answer
  | .reuse _, _, _ => none
  | .copyRo _, _, _ => none
  | .markUnused _, _, _ => none
  | .delete _, _, _ => none
  | .header _, _, _ => none
  | .classes, _, _ => none
  | .writeHeader _ _, _, _ => none
  | .memcpyHeader _ _, _, _ => none
  | .memcpyData _ _, _, _ => none

/-- The slot whose buffer an operation gives back. -/
def releases : PoolOp → Option Int
  | .delete handle => some handle
  | _ => none

namespace Ledger

/-- After `pdp_packet_setup`. -/
def setup (classList : List PdpClass) (malloc : Nat → Option (Nat → UInt8)) : Ledger where
  pool := pdpPacketSetup classList malloc
  buffer := fun _ => none
  obtained := 0
  freed := []

/-- `_pdp_packet_alloc_nolock`, for a slot. -/
def fill (l : Ledger) (slot : Int) (pool : Pool) : Ledger where
  pool := pool
  buffer := Function.update l.buffer slot (some l.obtained)
  obtained := l.obtained + 1
  freed := l.freed

/-- `_pdp_packet_dealloc_nolock`, of what is in a slot. -/
def vacate (l : Ledger) (slot : Int) (pool : Pool) : Ledger where
  pool := pool
  buffer := Function.update l.buffer slot none
  obtained := l.obtained
  freed := (l.buffer slot).toList ++ l.freed

theorem buffer_fill (l : Ledger) (slot h : Int) (pool : Pool) :
    (l.fill slot pool).buffer h = if h = slot then some l.obtained else l.buffer h :=
  Function.update_apply ..

theorem buffer_vacate (l : Ledger) (slot h : Int) (pool : Pool) :
    (l.vacate slot pool).buffer h = if h = slot then none else l.buffer h :=
  Function.update_apply ..

def record (l : Ledger) (o : PoolOp) (answer : o.Answer) (pool : Pool) : Ledger :=
  match obtains o answer l.pool with
  | some slot => l.fill slot pool
  | none =>
      match releases o with
      | some slot => l.vacate slot pool
      | none => { l with pool := pool }

/-- The ledgers that pool operations lead to. -/
inductive Run (classList : List PdpClass) (malloc : Nat → Option (Nat → UInt8)) : Ledger → Prop
  | setup : Run classList malloc (setup classList malloc)
  | step {l : Ledger} {o : PoolOp} {answer : o.Answer} {pool : Pool} (hl : Run classList malloc l)
      (h : o.exec l.pool = .ok (answer, pool)) : Run classList malloc (l.record o answer pool)

/-- What has been given back when `pdp_packet_destroy` has returned. -/
def destroyed (l : Ledger) : List Nat :=
  (pdpPacketDestroy l.pool.pdpPool 0).filterMap (fun i : Nat => l.buffer i) ++ l.freed

/-- Every buffer ever obtained is given back once. -/
def FreedOnce (l : Ledger) : Prop := ∀ b < l.obtained, l.destroyed.count b = 1

end Ledger

/-! ## Which slots an operation fills and empties -/

def SameSlots (s s' : Pool) : Prop :=
  ∀ h, (s'.pdpPacketHeader h).isSome = (s.pdpPacketHeader h).isSome

/-- `s'` is `s` with slot `h` occupied, or empty, or as it was. -/
inductive Occupies (s s' : Pool) : Option Int → Option Int → Prop
  | fills {h : Int} (hnone : s.pdpPacketHeader h = none) (hlo : 0 ≤ h)
      (hslots : ∀ h', (s'.pdpPacketHeader h').isSome =
        if h' = h then true else (s.pdpPacketHeader h').isSome) (r : Option Int) :
      Occupies s s' (some h) r
  | empties {h : Int} (hslots : ∀ h', (s'.pdpPacketHeader h').isSome =
        if h' = h then false else (s.pdpPacketHeader h').isSome) : Occupies s s' none (some h)
  | keeps (hsame : SameSlots s s') : Occupies s s' none none

section Slots

variable {s s' : Pool}

theorem SameSlots.of_header (h : ∀ x, s'.pdpPacketHeader x = s.pdpPacketHeader x) :
    SameSlots s s' := fun x => by rw [h x]

theorem SameSlots.of_puts {h : Int} {p q : Packet} (hp : s.pdpPacketHeader h = some p)
    (hput : Puts s h (some q) s') : SameSlots s s' := by
  intro x
  rw [hput.header]
  split
  · next he => rw [he, hp]; rfl
  · rfl

theorem occupies_create {t n : Nat} {r : Int} (h : pdpPacketCreate t n s = .ok (r, s')) :
    Occupies s s' (if r = -1 then none else some r) none := by
  rcases pdpPacketCreate_spec h with ⟨rfl, hsame⟩ | ⟨hnone, hout⟩
  · rw [if_pos rfl]
    exact .keeps (.of_header hsame.header)
  · rw [if_neg hout.ne_neg_one]
    obtain ⟨data, _, hput⟩ := hout.puts
    refine .fills hnone hout.nonneg (fun h' => ?_) _
    rw [hput.header]
    split <;> rfl

theorem occupies_new {t n : Nat} {r : Int} (h : pdpPacketNew t n s = .ok (r, s')) :
    Occupies s s' (obtains (.new t n) r s) none := by
  unfold pdpPacketNew at h
  cases hfind : findPacketFrom (reapable n) s.pdpPool 0 with
  | none =>
      rw [hfind] at h
      simp only [obtains, hfind]
      exact occupies_create h
  | some found =>
      obtain ⟨i, q⟩ := found
      rw [hfind] at h
      cases h
      simp only [obtains, hfind]
      obtain ⟨_, hget, _⟩ := findPacketFrom_spec hfind
      have hp := header_of_getElem hget
      exact .keeps (.of_puts hp (puts_of_header hp _))

theorem occupies_exec {o : PoolOp} {answer : o.Answer} (h : o.exec s = .ok (answer, s')) :
    Occupies s s' (obtains o answer s) (releases o) := by
  cases o with
  | create t n => exact occupies_create h
  | new t n => exact occupies_new h
  | reuse d =>
      refine .keeps ?_
      rcases (pdpPacketReuse_spec h).2 with ⟨_, hsame⟩ | ⟨p, _, _, hp, _, _, _, _, _, hput⟩
      · exact .of_header hsame
      · intro x
        rw [hput]
        split
        · next he => rw [he, hp]; rfl
        · rfl
  | copyRo handle =>
      have he : pdpPacketCopyRo handle s = (answer, s') := Except.ok.inj h
      refine .keeps ?_
      cases hp : s.pdpPacketHeader handle with
      | none =>
          rw [pdpPacketCopyRo_none hp] at he
          cases he
          exact .of_header fun _ => rfl
      | some p =>
          rw [pdpPacketCopyRo_eq hp] at he
          cases he
          exact .of_puts hp (puts_of_header hp _)
  | markUnused handle =>
      refine .keeps ?_
      cases h
      cases hp : s.pdpPacketHeader handle with
      | none =>
          rw [pdpPacketMarkUnused_none hp]
          exact .of_header fun _ => rfl
      | some p =>
          intro x
          rw [header_markUnused hp]
          split
          · next he => rw [he, hp]; rfl
          · rfl
  | delete handle =>
      refine .empties fun h' => ?_
      rw [(pdpPacketDelete_spec (PoolOp.effect_eq_ok h)).2.header]
      split <;> rfl
  | header handle =>
      cases h
      exact .keeps (.of_header fun _ => rfl)
  | classes =>
      cases h
      exact .keeps (.of_header fun _ => rfl)
  | writeHeader handle m =>
      obtain ⟨p, hp, hput⟩ := writeHeader_spec (PoolOp.effect_eq_ok h)
      exact .keeps (.of_puts hp hput)
  | memcpyHeader dst src =>
      obtain ⟨d, p, hd, _, hput⟩ := memcpyHeader_spec (PoolOp.effect_eq_ok h)
      exact .keeps (.of_puts hd hput)
  | memcpyData dst bytes =>
      obtain ⟨d, _, hd, hput⟩ := memcpyData_spec (PoolOp.effect_eq_ok h)
      exact .keeps (.of_puts hd hput)

end Slots

/-! ## The ledger balances -/

namespace Ledger

/-- Every buffer is either in one slot or has been given back. -/
structure Accounted (l : Ledger) : Prop where
  holds : ∀ h, (l.buffer h).isSome = (l.pool.pdpPacketHeader h).isSome
  distinct : ∀ h h' b, l.buffer h = some b → l.buffer h' = some b → h = h'
  live : ∀ h b, l.buffer h = some b → b < l.obtained ∧ b ∉ l.freed
  nodup : l.freed.Nodup
  known : ∀ b ∈ l.freed, b < l.obtained
  complete : ∀ b < l.obtained, b ∈ l.freed ∨ ∃ h, l.buffer h = some b

theorem accounted_setup (classList : List PdpClass) (malloc : Nat → Option (Nat → UInt8)) :
    (setup classList malloc).Accounted where
  holds h := by
    show false = _
    unfold pdpPacketHeader
    split
    · simp [setup, pdpPacketSetup, List.getElem?_replicate]
      split <;> rfl
    · rfl
  distinct := fun h h' b hb => by cases hb
  live := fun h b hb => by cases hb
  nodup := List.nodup_nil
  known := fun b hb => absurd hb List.not_mem_nil
  complete := fun b hb => absurd hb (Nat.not_lt_zero b)

section Step

variable {l : Ledger} {pool : Pool} {slot : Int}

theorem Accounted.fill (hl : l.Accounted) (hnone : l.pool.pdpPacketHeader slot = none)
    (hslots : ∀ h, (pool.pdpPacketHeader h).isSome =
      if h = slot then true else (l.pool.pdpPacketHeader h).isSome) :
    (l.fill slot pool).Accounted where
  holds h := by
    rw [buffer_fill]
    show _ = (pool.pdpPacketHeader h).isSome
    rw [hslots]
    split
    · rfl
    · exact hl.holds h
  distinct h h' b hb hb' := by
    rw [buffer_fill] at hb hb'
    split at hb
    · next he =>
        split at hb'
        · next he' => rw [he, he']
        · cases hb
          exact absurd (hl.live h' _ hb').1 (Nat.lt_irrefl _)
    · split at hb'
      · cases hb'
        exact absurd (hl.live h _ hb).1 (Nat.lt_irrefl _)
      · exact hl.distinct h h' b hb hb'
  live h b hb := by
    rw [buffer_fill] at hb
    split at hb
    · cases hb
      exact ⟨Nat.lt_succ_self _, fun hfreed => absurd (hl.known _ hfreed) (Nat.lt_irrefl _)⟩
    · obtain ⟨hlt, hfreed⟩ := hl.live h b hb
      exact ⟨Nat.lt_succ_of_lt hlt, hfreed⟩
  nodup := hl.nodup
  known b hb := Nat.lt_succ_of_lt (hl.known b hb)
  complete b hb := by
    rcases Nat.lt_succ_iff_lt_or_eq.mp hb with hlt | rfl
    · refine (hl.complete b hlt).imp_right fun ⟨h, hh⟩ => ⟨h, ?_⟩
      have hne : h ≠ slot := by
        rintro rfl
        have := hl.holds h
        rw [hh, hnone] at this
        cases this
      rw [buffer_fill, if_neg hne, hh]
    · exact Or.inr ⟨slot, by rw [buffer_fill, if_pos rfl]⟩

theorem Accounted.vacate (hl : l.Accounted)
    (hslots : ∀ h, (pool.pdpPacketHeader h).isSome =
      if h = slot then false else (l.pool.pdpPacketHeader h).isSome) :
    (l.vacate slot pool).Accounted where
  holds h := by
    rw [buffer_vacate]
    show _ = (pool.pdpPacketHeader h).isSome
    rw [hslots]
    split
    · rfl
    · exact hl.holds h
  distinct h h' b hb hb' := by
    rw [buffer_vacate] at hb hb'
    split at hb
    · cases hb
    · split at hb'
      · cases hb'
      · exact hl.distinct h h' b hb hb'
  live h b hb := by
    rw [buffer_vacate] at hb
    split at hb
    · cases hb
    · next hne =>
        obtain ⟨hlt, hfreed⟩ := hl.live h b hb
        refine ⟨hlt, fun hmem => ?_⟩
        rcases List.mem_append.mp hmem with hmem | hmem
        · exact hne (hl.distinct h slot b hb (Option.mem_toList.mp hmem))
        · exact hfreed hmem
  nodup := by
    refine List.nodup_append.mpr ⟨?_, hl.nodup, fun b hb b' hb' he => ?_⟩
    · cases l.buffer slot with
      | none => exact List.nodup_nil
      | some b => exact List.nodup_singleton b
    · exact (hl.live slot b (Option.mem_toList.mp hb)).2 (he ▸ hb')
  known b hb := by
    rcases List.mem_append.mp hb with hb | hb
    · exact (hl.live slot b (Option.mem_toList.mp hb)).1
    · exact hl.known b hb
  complete b hb := by
    rcases hl.complete b hb with hfreed | ⟨h, hh⟩
    · exact Or.inl (List.mem_append_right _ hfreed)
    · by_cases he : h = slot
      · subst he
        exact Or.inl (List.mem_append_left _ (Option.mem_toList.mpr hh))
      · exact Or.inr ⟨h, by rw [buffer_vacate, if_neg he, hh]⟩

theorem Accounted.record (hl : l.Accounted) {o : PoolOp} {answer : o.Answer}
    (h : o.exec l.pool = .ok (answer, pool)) : (l.record o answer pool).Accounted := by
  have hocc := occupies_exec h
  unfold Ledger.record
  generalize obtains o answer l.pool = gained at hocc
  generalize releases o = lost at hocc
  cases hocc with
  | fills hnone _ hslots => exact hl.fill hnone hslots
  | empties hslots => exact hl.vacate hslots
  | keeps hsame =>
      exact ⟨fun h => by rw [hsame h]; exact hl.holds h, hl.distinct, hl.live, hl.nodup, hl.known,
        hl.complete⟩

end Step

theorem Run.accounted {classList : List PdpClass} {malloc : Nat → Option (Nat → UInt8)}
    {l : Ledger} (hl : Run classList malloc l) : l.Accounted := by
  induction hl with
  | setup => exact accounted_setup classList malloc
  | step _ h ih => exact ih.record h

end Ledger

/-! ## The last walk -/

/-- The walk goes through the occupied slots at the front. -/
theorem mem_pdpPacketDestroy {l : List (Option Packet)} {i k : Nat} :
    i ∈ pdpPacketDestroy l k ↔ k ≤ i ∧ ∀ j, k ≤ j → j ≤ i → ∃ p, l[j - k]? = some (some p) := by
  induction l generalizing k with
  | nil =>
      refine iff_of_false List.not_mem_nil fun ⟨hle, h⟩ => ?_
      obtain ⟨p, hp⟩ := h k (Nat.le_refl k) hle
      cases hp
  | cons x l ih =>
      cases x with
      | none =>
          refine iff_of_false List.not_mem_nil fun ⟨hle, h⟩ => ?_
          obtain ⟨p, hp⟩ := h k (Nat.le_refl k) hle
          rw [Nat.sub_self] at hp
          cases hp
      | some q =>
          show i ∈ k :: pdpPacketDestroy l (k + 1) ↔ _
          rw [List.mem_cons, ih]
          constructor
          · rintro (rfl | ⟨hle, h⟩)
            · refine ⟨Nat.le_refl i, fun j hj hj' => ⟨q, ?_⟩⟩
              rw [Nat.le_antisymm hj' hj, Nat.sub_self]
              rfl
            · refine ⟨Nat.le_of_succ_le hle, fun j hj hj' => ?_⟩
              rcases Nat.eq_or_lt_of_le hj with rfl | hlt
              · exact ⟨q, by rw [Nat.sub_self]; rfl⟩
              · obtain ⟨p, hp⟩ := h j hlt hj'
                refine ⟨p, ?_⟩
                rw [show j - k = (j - (k + 1)) + 1 by omega, List.getElem?_cons_succ, hp]
          · rintro ⟨hle, h⟩
            rcases Nat.eq_or_lt_of_le hle with rfl | hlt
            · exact Or.inl rfl
            · refine Or.inr ⟨hlt, fun j hj hj' => ?_⟩
              obtain ⟨p, hp⟩ := h j (Nat.le_of_succ_le hj) hj'
              refine ⟨p, ?_⟩
              rwa [show j - k = (j - (k + 1)) + 1 by omega, List.getElem?_cons_succ] at hp

theorem nodup_pdpPacketDestroy (l : List (Option Packet)) (k : Nat) :
    (pdpPacketDestroy l k).Nodup := by
  induction l generalizing k with
  | nil => exact List.nodup_nil
  | cons x l ih =>
      cases x with
      | none => exact List.nodup_nil
      | some q =>
          refine List.nodup_cons.mpr ⟨fun hmem => ?_, ih (k + 1)⟩
          have := (mem_pdpPacketDestroy.mp hmem).1
          omega

theorem isSome_header_iff {s : Pool} {i : Nat} :
    (s.pdpPacketHeader i).isSome = true ↔ ∃ p, s.pdpPool[i]? = some (some p) := by
  cases hx : s.pdpPool[i]? with
  | none =>
      have hle : s.pdpPool.length ≤ i := List.getElem?_eq_none_iff.mp hx
      have hout : ¬(0 ≤ (i : Int) ∧ (i : Int) < s.pdpPoolSize) := by
        unfold pdpPoolSize
        omega
      unfold pdpPacketHeader
      rw [if_neg hout]
      exact iff_of_false (fun h => by cases h) fun ⟨p, h⟩ => by cases h
  | some x =>
      rw [header_of_getElem hx, Option.isSome_iff_exists]
      exact exists_congr fun p => Option.some_inj.symm

namespace Ledger

/-- There is no packet behind an empty slot. -/
def NoHole (s : Pool) : Prop :=
  ∀ i j : Nat, i < j → s.pdpPacketHeader i = none → s.pdpPacketHeader j = none

theorem mem_destroyed {l : Ledger} {b : Nat} : b ∈ l.destroyed ↔
    b ∈ l.freed ∨ ∃ i : Nat, (∀ j ≤ i, (l.pool.pdpPacketHeader j).isSome = true) ∧
      l.buffer i = some b := by
  unfold destroyed
  rw [List.mem_append, List.mem_filterMap, or_comm]
  refine or_congr_right (exists_congr fun i => and_congr_left fun _ => ?_)
  rw [mem_pdpPacketDestroy]
  simp only [isSome_header_iff, Nat.zero_le, true_and, true_implies, Nat.sub_zero]

theorem Accounted.nodup_destroyed {l : Ledger} (hl : l.Accounted) : l.destroyed.Nodup := by
  unfold destroyed
  refine List.nodup_append.mpr ⟨?_, hl.nodup, fun b hb b' hb' he => ?_⟩
  · refine List.Nodup.filterMap ?_ (nodup_pdpPacketDestroy _ _)
    intro i i' b hb hb'
    exact Int.ofNat.inj (hl.distinct i i' b hb hb')
  · obtain ⟨i, _, hi⟩ := List.mem_filterMap.mp hb
    exact (hl.live i b hi).2 (he ▸ hb')

/-- After any run, `pdp_packet_destroy` leaves every buffer freed once exactly if
no packet lies behind an empty slot. -/
theorem freedOnce_iff {classList : List PdpClass} {malloc : Nat → Option (Nat → UInt8)}
    {l : Ledger} (hl : Run classList malloc l) : l.FreedOnce ↔ NoHole l.pool := by
  have hacc := hl.accounted
  constructor
  · intro hfreed i j hij hi
    rw [← Option.not_isSome_iff_eq_none]
    intro hj
    rw [← hacc.holds j] at hj
    obtain ⟨b, hb⟩ := Option.isSome_iff_exists.mp hj
    obtain ⟨hlt, hnot⟩ := hacc.live j b hb
    have hcount := hfreed b hlt
    have hmem : b ∈ l.destroyed := List.count_pos_iff.mp (hcount ▸ Nat.one_pos)
    rcases mem_destroyed.mp hmem with hmem | ⟨k, hk, hkb⟩
    · exact hnot hmem
    · obtain rfl := Int.ofNat.inj (hacc.distinct j k b hb hkb)
      have := hk i (Nat.le_of_lt hij)
      rw [hi] at this
      cases this
  · intro hhole b hb
    refine List.count_eq_one_of_mem hacc.nodup_destroyed (mem_destroyed.mpr ?_)
    refine (hacc.complete b hb).imp_right fun ⟨h, hh⟩ => ?_
    have hsome : (l.pool.pdpPacketHeader h).isSome = true := by rw [← hacc.holds h, hh]; rfl
    obtain ⟨p, hp⟩ := Option.isSome_iff_exists.mp hsome
    obtain ⟨i, rfl⟩ := Int.eq_ofNat_of_zero_le (lt_of_header hp).1
    refine ⟨i, fun j hj => ?_, hh⟩
    rcases Nat.eq_or_lt_of_le hj with rfl | hlt
    · exact hsome
    · by_contra hnone
      have := hhole j i hlt (Option.not_isSome_iff_eq_none.mp hnone)
      rw [hp] at this
      cases this

/-- An operation, and nothing if it faults. -/
def perform (l : Ledger) (o : PoolOp) : Ledger :=
  match o.exec l.pool with
  | .ok (answer, pool) => l.record o answer pool
  | .error _ => l

theorem Run.perform {classList : List PdpClass} {malloc : Nat → Option (Nat → UInt8)}
    {l : Ledger} (hl : Run classList malloc l) (o : PoolOp) :
    Run classList malloc (l.perform o) := by
  unfold Ledger.perform
  split
  · next answer pool h => exact hl.step h
  · exact hl

def freshMemory (_ : Nat) : Option (Nat → UInt8) := some fun _ => 0

def pair : Ledger := ((setup [] freshMemory).perform (.create 0 1)).perform (.create 0 1)

theorem run_pair : Run [] freshMemory pair := (Run.setup.perform _).perform _

/-- The second packet of a pair is deleted: both buffers are freed once. -/
theorem freedOnce_second : (pair.perform (.delete 1)).obtained = 2 ∧
    (pair.perform (.delete 1)).destroyed = [0, 1] ∧
    ((pair.perform (.delete 1)).FreedOnce ↔ NoHole (pair.perform (.delete 1)).pool) :=
  ⟨by decide +kernel, by decide +kernel, freedOnce_iff (run_pair.perform _)⟩

/-- The first one is deleted: the buffer of the second is never freed. -/
theorem not_freedOnce_first : ∃ l, Run [] freshMemory l ∧ l.obtained = 2 ∧ l.destroyed = [0] ∧
    ¬l.FreedOnce := by
  have hdestroyed : (pair.perform (.delete 0)).destroyed = [0] := by decide +kernel
  have hobtained : (pair.perform (.delete 0)).obtained = 2 := by decide +kernel
  refine ⟨_, run_pair.perform (.delete 0), hobtained, hdestroyed, fun h => ?_⟩
  have hsecond := h 1 (by rw [hobtained]; decide)
  rw [hdestroyed] at hsecond
  revert hsecond
  decide

end Ledger

end PureDataPacket
