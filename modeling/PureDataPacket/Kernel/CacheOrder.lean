/-
# `PureDataPacket.Kernel.CacheOrder` — which conversion the cache gives up

The comment above `_pdp_type_find_cached_conversion_program` says that what is
found is moved to the back of the queue.  What is done is an exchange with the
last entry, so that this one, the most recently used of all so far, goes
anywhere.

To say which entry has not been used for the longest time, every entry is given
the time of its last use here.  Nothing is decided by it: without the times the
two operations are those of `Kernel.Convert` (`Run.cached`, `Cached.exists_run`).

The order is right as long as every hit is near the back: a hit at the last
place changes nothing, one at the place before it exchanges two neighbours, and
any other hit puts the last entry before entries that were used earlier.  A
registration appends, and drops the front of a full cache first; and in order,
the front is what has waited for the longest time.

| | |
| :-- | :-- |
| `NearBack` | a lookup that finds nothing, or one of the last two entries |
| `InOrder` | the order of the list is the order of use |
| `InOrder.lookup_iff` | a lookup keeps the order exactly if what it finds is near the back |
| `EvictsOldest` | least recently used first |
| `Run.length_le` | the cache does not grow over its bound, whatever is looked up |
-/
import PureDataPacket.Kernel.Convert
import PureDataPacket.Lib.Recency

namespace PureDataPacket

/-- A cached conversion and when it was last found or registered. -/
structure CacheEntry where
  conversion : Conversion
  lastUse : Nat

/-- `cached_conversion_list`, and how many operations there have been. -/
structure TimedCache where
  clock : Nat
  entries : List CacheEntry

namespace TimedCache

/-- What `pdp_type_setup` makes. -/
def empty : TimedCache := ⟨0, []⟩

/-- `cached_conversion_list`. -/
def conversions (x : TimedCache) : List Conversion := x.entries.map CacheEntry.conversion

/-- Where the entry for `src` and `dst` is. -/
def position (src dst : Symbol) (x : TimedCache) : Option Nat :=
  x.entries.findIdx? fun e => src = e.conversion.srcPattern ∧ dst = e.conversion.dstPattern

/-- `_pdp_type_find_cached_conversion_program`. -/
def lookup (src dst : Symbol) (x : TimedCache) : TimedCache :=
  match x.position src dst with
  | none => { x with clock := x.clock + 1 }
  | some i =>
      match x.entries[i]? with
      | none => { x with clock := x.clock + 1 }
      | some e =>
          { clock := x.clock + 1, entries := swapToBack ⟨e.conversion, x.clock⟩ i x.entries }

/-- How many entries `pdp_type_register_cached_conversion` removes. -/
def surplus (x : TimedCache) : Nat := x.entries.length + 1 - maxCacheSize

/-- The entries that the next registration removes. -/
def evicted (x : TimedCache) : List CacheEntry := x.entries.take x.surplus

def kept (x : TimedCache) : List CacheEntry := x.entries.drop x.surplus

/-- `pdp_type_register_cached_conversion`. -/
def register (c : Conversion) (x : TimedCache) : TimedCache :=
  { clock := x.clock + 1, entries := x.kept ++ [⟨c, x.clock⟩] }

/-! ## The cache without the times -/

theorem map_swapToBack {α β : Type} (f : α → β) (used : α) (i : Nat) (l : List α) :
    (swapToBack used i l).map f = swapToBack (f used) i (l.map f) := by
  unfold swapToBack
  rw [List.getLast?_map]
  cases l.getLast? with
  | none => rfl
  | some last =>
      simp only [Option.map_some, List.map_set, List.length_map]

/-- The cache that `findCached` leaves. -/
def afterLookup (src dst : Symbol) (cached : List Conversion) : List Conversion :=
  ((findCached src dst cached).map Prod.snd).getD cached

theorem lookup_conversions (src dst : Symbol) (x : TimedCache) :
    (x.lookup src dst).conversions = afterLookup src dst x.conversions := by
  have hposition : x.conversions.findIdx? (fun c => src = c.srcPattern ∧ dst = c.dstPattern) =
      x.position src dst := List.findIdx?_map ..
  unfold afterLookup findCached lookup
  rw [hposition]
  cases x.position src dst with
  | none => rfl
  | some i =>
      unfold conversions
      simp only [List.getElem?_map, List.getLast?_map]
      cases he : x.entries[i]? with
      | none => rfl
      | some e =>
          obtain ⟨hi, _⟩ := List.getElem?_eq_some_iff.mp he
          have hne : x.entries ≠ [] := List.ne_nil_of_length_pos (Nat.zero_lt_of_lt hi)
          simp only [map_swapToBack]
          unfold swapToBack
          simp only [List.getLast?_map, List.getLast?_eq_some_getLast hne, Option.map_some,
        Option.getD_some]

theorem register_conversions (c : Conversion) (x : TimedCache) :
    (x.register c).conversions = registerCached c x.conversions := by
  unfold register kept surplus registerCached conversions
  rw [List.map_append, List.map_drop, List.length_map]
  rfl

/-! ## Runs -/

/-- A lookup that finds nothing, or one of the last two entries. -/
def NearBack (src dst : Symbol) (x : TimedCache) : Prop :=
  ∀ i, x.position src dst = some i → x.entries.length ≤ i + 2

/-- The caches that lookups with `allowed` and registrations lead to. -/
inductive Run (allowed : Symbol → Symbol → TimedCache → Prop) : TimedCache → Prop
  | empty : Run allowed empty
  | lookup {x : TimedCache} {src dst : Symbol} (hx : Run allowed x) (h : allowed src dst x) :
      Run allowed (x.lookup src dst)
  | register {x : TimedCache} {c : Conversion} (hx : Run allowed x) : Run allowed (x.register c)

/-- The caches that the operations of `Kernel.Convert` lead to. -/
inductive Cached : List Conversion → Prop
  | empty : Cached []
  | lookup {l : List Conversion} (src dst : Symbol) (h : Cached l) :
      Cached (afterLookup src dst l)
  | register {l : List Conversion} (c : Conversion) (h : Cached l) : Cached (registerCached c l)

/-- Without the times a run is one of `Kernel.Convert`. -/
theorem Run.cached {allowed : Symbol → Symbol → TimedCache → Prop} {x : TimedCache}
    (hx : Run allowed x) : Cached x.conversions := by
  induction hx with
  | empty => exact .empty
  | lookup _ _ ih =>
      rw [lookup_conversions]
      exact .lookup _ _ ih
  | register _ ih =>
      rw [register_conversions]
      exact .register _ ih

/-- And every one of `Kernel.Convert` is one with times. -/
theorem Cached.exists_run {l : List Conversion} (h : Cached l) :
    ∃ x, Run (fun _ _ _ => True) x ∧ x.conversions = l := by
  induction h with
  | empty => exact ⟨_, .empty, rfl⟩
  | lookup src dst _ ih =>
      obtain ⟨x, hx, rfl⟩ := ih
      exact ⟨_, .lookup hx trivial, lookup_conversions src dst x⟩
  | register c _ ih =>
      obtain ⟨x, hx, rfl⟩ := ih
      exact ⟨_, .register hx, register_conversions c x⟩

theorem length_lookup (src dst : Symbol) (x : TimedCache) :
    (x.lookup src dst).entries.length = x.entries.length := by
  unfold lookup
  split
  · rfl
  · split
    · rfl
    · exact length_swapToBack

theorem length_register (c : Conversion) (x : TimedCache) :
    (x.register c).entries.length ≤ maxCacheSize := by
  unfold register kept surplus
  rw [List.length_append, List.length_drop, List.length_singleton]
  unfold maxCacheSize
  omega

theorem Run.length_le {allowed : Symbol → Symbol → TimedCache → Prop} {x : TimedCache}
    (hx : Run allowed x) : x.entries.length ≤ maxCacheSize := by
  induction hx with
  | empty => exact Nat.zero_le _
  | lookup _ _ ih =>
      rw [length_lookup]
      exact ih
  | register _ _ => exact length_register ..

/-- The order of the list is the order of use. -/
structure InOrder (x : TimedCache) : Prop where
  ordered : Ordered CacheEntry.lastUse x.entries
  past : ∀ e ∈ x.entries, e.lastUse < x.clock

theorem InOrder.register {x : TimedCache} (hx : x.InOrder) (c : Conversion) :
    (x.register c).InOrder := by
  have hkept : ∀ e ∈ x.kept, e.lastUse < x.clock := fun e he => hx.past e (List.mem_of_mem_drop he)
  refine ⟨(hx.ordered.drop _).append_back hkept, fun e he => ?_⟩
  rcases List.mem_append.mp he with he | he
  · exact Nat.lt_succ_of_lt (hkept e he)
  · rw [List.mem_singleton.mp he]
    exact Nat.lt_succ_self _

theorem InOrder.lookup_iff {x : TimedCache} (hx : x.InOrder) (src dst : Symbol) :
    (x.lookup src dst).InOrder ↔ x.NearBack src dst := by
  unfold TimedCache.lookup NearBack
  cases hp : x.position src dst with
  | none =>
      refine iff_of_true ⟨hx.ordered, fun e he => Nat.lt_succ_of_lt (hx.past e he)⟩ fun i hi => ?_
      cases hi
  | some i =>
      have hi : i < x.entries.length := by
        obtain ⟨hi, _⟩ := List.findIdx?_eq_some_iff_getElem.mp hp
        exact hi
      simp only [List.getElem?_eq_getElem hi, Option.some.injEq, forall_eq']
      have hnew : ∀ e ∈ x.entries,
          e.lastUse < (CacheEntry.mk x.entries[i].conversion x.clock).lastUse := hx.past
      rw [← ordered_swapToBack_iff hx.ordered hi hnew]
      refine ⟨fun h => h.ordered, fun h => ⟨h, fun e he => ?_⟩⟩
      rcases mem_swapToBack he with he | rfl
      · exact Nat.lt_succ_of_lt (hx.past e he)
      · exact Nat.lt_succ_self _

theorem Run.inOrder {x : TimedCache} (hx : Run NearBack x) : x.InOrder := by
  induction hx with
  | empty => exact ⟨List.Pairwise.nil, fun e he => absurd he List.not_mem_nil⟩
  | lookup _ h ih => exact (ih.lookup_iff _ _).mpr h
  | register _ ih => exact ih.register _

/-- Least recently used first: at most one entry goes, and it is older than all
that stay. -/
structure EvictsOldest (x : TimedCache) : Prop where
  one : x.evicted.length ≤ 1
  oldest : ∀ e ∈ x.evicted, ∀ e' ∈ x.kept, e.lastUse < e'.lastUse

/-- As long as all hits are near the back, the cache keeps its bound and evicts
what has not been used for the longest time. -/
theorem evictsOldest {x : TimedCache} (hx : Run NearBack x) :
    x.entries.length ≤ maxCacheSize ∧ x.EvictsOldest := by
  have hlen := hx.length_le
  refine ⟨hlen, ?_, hx.inOrder.ordered.take_lt_drop _⟩
  unfold evicted surplus
  rw [List.length_take]
  omega

/-! ## A cache that fills -/

/-- A conversion from type `a…a`, with `n` letters. -/
def conversionFrom (n : Nat) : Conversion where
  srcPattern := List.replicate n 'a'
  dstPattern := ['b']
  program := ⟨fun packet _ s => .ok (packet, s), []⟩

/-- The cache after `n` registrations of different conversions. -/
def filled : Nat → TimedCache
  | 0 => empty
  | n + 1 => (filled n).register (conversionFrom n)

theorem run_filled (allowed : Symbol → Symbol → TimedCache → Prop) : ∀ n, Run allowed (filled n)
  | 0 => .empty
  | n + 1 => (run_filled allowed n).register

/-- One registration more than there is room for, and a lookup of the last entry but one: the oldest
is next to go. -/
theorem evictsOldest_filled : ∃ x, Run NearBack x ∧
    x = (filled 33).lookup (List.replicate 31 'a') ['b'] ∧
    (x.entries.map CacheEntry.lastUse).drop 29 = [30, 32, 33] ∧
    x.evicted.map CacheEntry.lastUse = [1] ∧ x.entries.length ≤ maxCacheSize ∧
    x.EvictsOldest := by
  have hposition : (filled 33).position (List.replicate 31 'a') ['b'] = some 30 := by
    decide +kernel
  have hrun : Run NearBack ((filled 33).lookup (List.replicate 31 'a') ['b']) :=
    (run_filled NearBack 33).lookup fun i hi => by
      obtain rfl := Option.some.inj (hposition.symm.trans hi)
      decide +kernel
  exact ⟨_, hrun, rfl, by decide +kernel, by decide +kernel, evictsOldest hrun⟩

def AnyLookup (_ _ : Symbol) (_ : TimedCache) : Prop := True

/-- In a full cache the oldest conversion is found again: the next registration
then removes the newest of the others. -/
theorem evicts_newest : ∃ x, Run AnyLookup x ∧
    (x.conversions.map Conversion.srcPattern).Nodup ∧
    x.evicted.map CacheEntry.lastUse = [31] ∧ (x.kept.map CacheEntry.lastUse).head? = some 1 ∧
    ¬x.EvictsOldest := by
  refine ⟨(filled 32).lookup [] ['b'], (run_filled AnyLookup 32).lookup trivial, ?_, ?_, ?_, ?_⟩
  · decide +kernel
  · decide +kernel
  · decide +kernel
  · intro h
    have hold := h.oldest
    have hall : ∀ t ∈ ((filled 32).lookup [] ['b']).evicted.map CacheEntry.lastUse,
        ∀ t' ∈ ((filled 32).lookup [] ['b']).kept.map CacheEntry.lastUse, t < t' := by
      intro t ht t' ht'
      obtain ⟨e, he, rfl⟩ := List.mem_map.mp ht
      obtain ⟨e', he', rfl⟩ := List.mem_map.mp ht'
      exact hold e he e' he'
    revert hall
    decide +kernel

end TimedCache

end PureDataPacket
