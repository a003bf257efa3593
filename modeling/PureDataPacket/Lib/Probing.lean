/-
# `PureDataPacket.Lib.Probing` — tables that are filled at random places

A value goes to the first place without one, from a place on that is chosen at random, and around
the end of the table.  Then the values are moved to the front.  Neither loop is bounded: a search
in a full table goes on for ever, and so it needs fuel; moving more values than there are leaves
the table, which has no result.

| | |
| :-- | :-- |
| `probe_spec` | the place that is found has no value |
| `scatter_spec` | the table has all of the values |
| `exists_scatter` | there is room for all of them |
| `compact_spec` | the first places have the values in the order of their places |
| `exists_compact` | there are as many as are wanted |
-/
import Mathlib.Data.List.Perm.Basic
import Mathlib.Data.List.ReduceOption

namespace PureDataPacket

/-- Places; `none` is one without a value. -/
abbrev Table (α : Type*) := List (Option α)

namespace Table

variable {α : Type*} {table table' : Table α} {fuel start place n : Nat} {v : α}

/-- The first place without a value from `start` on. -/
def probe (table : Table α) : (fuel start : Nat) → Option Nat
  | 0, _ => none
  | fuel + 1, start =>
      match table[start % table.length]? with
      | some (some _) => probe table fuel (start + 1)
      | some none => some (start % table.length)
      | none => none

/-- Each value is put somewhere, from its own start on. -/
def scatter (fuel : Nat) : List (α × Nat) → Table α → Option (Table α)
  | [], table => some table
  | (v, start) :: l, table =>
      (table.probe fuel start).bind fun place => scatter fuel l (table.set place (some v))

/-- `n` values are moved to the front; the search for the next one is at `i`, and `k` have been
moved. -/
def compact (n : Nat) : (fuel i k : Nat) → Table α → Option (Table α)
  | 0, _, _, _ => none
  | fuel + 1, i, k, table =>
      if k < n then
        match table[i]? with
        | some (some v) => compact n fuel (i + 1) (k + 1) (table.set k (some v))
        | some none => compact n fuel (i + 1) k table
        | none => none
      else some table

/-! ## One place -/

theorem probe_spec (h : table.probe fuel start = some place) : table[place]? = some none := by
  induction fuel generalizing start with
  | zero => cases h
  | succ fuel ih =>
      rw [probe] at h
      split at h
      · exact ih h
      · next hnone =>
          cases h
          exact hnone
      · cases h

/-- It is found when there is one among the next places. -/
theorem probe_isSome {j : Nat} (hj : table[(start + j) % table.length]? = some none)
    (hfuel : j < fuel) : ∃ place, table.probe fuel start = some place := by
  induction fuel generalizing start j with
  | zero => exact absurd hfuel (Nat.not_lt_zero j)
  | succ fuel ih =>
      have hpos : 0 < table.length := by
        obtain ⟨hlt, -⟩ := List.getElem?_eq_some_iff.mp hj
        omega
      rw [probe]
      cases hstart : table[start % table.length]? with
      | none =>
          have := List.getElem?_eq_none_iff.mp hstart
          have := Nat.mod_lt start hpos
          omega
      | some x =>
          cases x with
          | none => exact ⟨_, rfl⟩
          | some w =>
              cases j with
              | zero =>
                  rw [Nat.add_zero, hstart] at hj
                  cases hj
              | succ j =>
                  rw [← Nat.add_assoc, Nat.add_right_comm] at hj
                  exact ih hj (Nat.lt_of_succ_lt_succ hfuel)

theorem exists_probe (hnone : none ∈ table) (hfuel : table.length ≤ fuel) (start : Nat) :
    ∃ place, table.probe fuel start = some place := by
  obtain ⟨s, hs, hget⟩ := List.getElem_of_mem hnone
  have hpos : 0 < table.length := by omega
  obtain ⟨j, hj, hmod⟩ : ∃ j < table.length, (start + j) % table.length = s := by
    have hlt := Nat.mod_lt start hpos
    refine ⟨(s + (table.length - start % table.length)) % table.length, Nat.mod_lt _ hpos, ?_⟩
    rw [Nat.add_mod_mod, ← Nat.mod_add_mod,
      show start % table.length + (s + (table.length - start % table.length)) =
        s + table.length by omega, Nat.add_mod_right, Nat.mod_eq_of_lt hs]
  refine probe_isSome (j := j) ?_ (by omega)
  rw [hmod, List.getElem?_eq_getElem hs, hget]

theorem reduceOption_set (h : table[place]? = some none) (v : α) :
    (List.reduceOption (table.set place (some v))).Perm (v :: List.reduceOption table) := by
  induction table generalizing place with
  | nil => cases h
  | cons x table ih =>
      cases place with
      | zero =>
          rw [List.getElem?_cons_zero, Option.some.injEq] at h
          subst h
          rw [List.set_cons_zero, List.reduceOption_cons_of_some, List.reduceOption_cons_of_none]
      | succ place =>
          rw [List.getElem?_cons_succ] at h
          rw [List.set_cons_succ]
          cases x with
          | none =>
              rw [List.reduceOption_cons_of_none, List.reduceOption_cons_of_none]
              exact ih h
          | some w =>
              rw [List.reduceOption_cons_of_some, List.reduceOption_cons_of_some]
              exact ((ih h).cons w).trans (List.Perm.swap v w _)

/-! ## All the values -/

theorem scatter_spec {l : List (α × Nat)} (h : scatter fuel l table = some table') :
    table'.length = table.length ∧
      (List.reduceOption table').Perm (l.map Prod.fst ++ List.reduceOption table) := by
  induction l generalizing table with
  | nil =>
      cases h
      exact ⟨rfl, List.Perm.refl _⟩
  | cons x l ih =>
      obtain ⟨place, hprobe, hrest⟩ := Option.bind_eq_some_iff.mp h
      obtain ⟨hlength, hperm⟩ := ih hrest
      refine ⟨hlength.trans List.length_set, hperm.trans ?_⟩
      rw [List.map_cons]
      exact ((reduceOption_set (probe_spec hprobe) x.1).append_left _).trans List.perm_middle

theorem exists_scatter {l : List (α × Nat)} (hfuel : table.length ≤ fuel)
    (hroom : l.length + (List.reduceOption table).length ≤ table.length) :
    ∃ table', scatter fuel l table = some table' := by
  induction l generalizing table with
  | nil => exact ⟨table, rfl⟩
  | cons x l ih =>
      rw [List.length_cons] at hroom
      have hlt : (List.reduceOption table).length < table.length := by omega
      obtain ⟨place, hprobe⟩ :=
        exists_probe (List.reduceOption_length_lt_iff.mp hlt) hfuel x.2
      have hperm := (reduceOption_set (probe_spec hprobe) x.1).length_eq
      rw [List.length_cons] at hperm
      have hlength : (table.set place (some x.1)).length = table.length := List.length_set
      obtain ⟨table', hrest⟩ :
          ∃ table', scatter fuel l (table.set place (some x.1)) = some table' :=
        ih (by omega) (by omega)
      exact ⟨table', Option.bind_eq_some_iff.mpr ⟨place, hprobe, hrest⟩⟩

/-! ## The values at the front -/

theorem compact_spec {i k : Nat} (h : compact n fuel i k table = some table') (hki : k ≤ i)
    (hkn : k ≤ n) : n ≤ k + (List.reduceOption (table.drop i)).length ∧
      table'.take n =
        table.take k ++ ((List.reduceOption (table.drop i)).take (n - k)).map some := by
  induction fuel generalizing i k table with
  | zero => cases h
  | succ fuel ih =>
      rw [compact] at h
      split at h
      · next hlt =>
          split at h
          · next v hv =>
              obtain ⟨hi, hget⟩ := List.getElem?_eq_some_iff.mp hv
              have hdrop : table.drop i = some v :: table.drop (i + 1) := by
                rw [List.drop_eq_getElem_cons hi, hget]
              obtain ⟨hle, htake⟩ := ih h (by omega) (by omega)
              rw [List.drop_set_of_lt (by omega)] at hle htake
              rw [hdrop, List.reduceOption_cons_of_some, List.length_cons]
              refine ⟨by omega, ?_⟩
              have hsub : n - k = n - (k + 1) + 1 := by omega
              have hset : (table.set k (some v)).take (k + 1) = table.take k ++ [some v] := by
                rw [List.take_add_one, List.take_set_of_le (Nat.le_refl k),
                  List.getElem?_set_self (by omega)]
                rfl
              rw [htake, hset, hsub, List.take_succ_cons, List.map_cons, List.append_assoc,
                List.singleton_append]
          · next hv =>
              obtain ⟨hi, hget⟩ := List.getElem?_eq_some_iff.mp hv
              have hdrop : table.drop i = none :: table.drop (i + 1) := by
                rw [List.drop_eq_getElem_cons hi, hget]
              rw [hdrop, List.reduceOption_cons_of_none]
              exact ih h (by omega) hkn
          · cases h
      · cases h
        have heq : n = k := by omega
        subst heq
        refine ⟨Nat.le_add_right _ _, ?_⟩
        rw [Nat.sub_self, List.take_zero, List.map_nil, List.append_nil]

theorem exists_compact {i k : Nat} (hki : k ≤ i)
    (hn : n ≤ k + (List.reduceOption (table.drop i)).length) (hfuel : table.length - i < fuel) :
    ∃ table', compact n fuel i k table = some table' := by
  induction fuel generalizing i k table with
  | zero => exact absurd hfuel (Nat.not_lt_zero _)
  | succ fuel ih =>
      rw [compact]
      split
      · next hlt =>
          have hi : i < table.length := by
            by_contra hnot
            rw [List.drop_eq_nil_of_le (by omega)] at hn
            simp only [List.reduceOption_nil, List.length_nil] at hn
            omega
          have hdrop := List.drop_eq_getElem_cons hi
          rw [List.getElem?_eq_getElem hi]
          cases hget : table[i] with
          | none =>
              rw [hdrop, hget, List.reduceOption_cons_of_none] at hn
              exact ih (by omega) hn (by omega)
          | some v =>
              rw [hdrop, hget, List.reduceOption_cons_of_some, List.length_cons] at hn
              refine ih (by omega) ?_ ?_
              · rw [List.drop_set_of_lt (by omega)]
                omega
              · rw [List.length_set]
                omega
      · exact ⟨table, rfl⟩

end Table

end PureDataPacket
