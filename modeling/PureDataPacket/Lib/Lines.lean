/-
# `PureDataPacket.Lib.Lines` — recurrences along lines of a memory

A recurrence goes along a list of values with a state, and puts a new value in the place
of each.  `Filters` says that several lines of a memory have been gone along, each with a
recurrence and a state of its own.  Lines that follow each other make one line, so a
routine that does its lines piece by piece does them as wholes.

| | |
| :-- | :-- |
| `Filters` | the recurrences have gone along the lines |
| `append` | the rest of the lines, which is somewhere else |
| `loop` | a loop goes along the lines |
-/
import Mathlib.Data.List.Basic

namespace PureDataPacket

variable {ι α σ : Type}

/-- The recurrence along a list: the new values and the state at the end. -/
def scan (f : σ → α → α × σ) : σ → List α → List α × σ
  | u, [] => ([], u)
  | u, x :: xs =>
      let rest := scan f (f u x).2 xs
      ((f u x).1 :: rest.1, rest.2)

theorem scan_append (f : σ → α → α × σ) (u : σ) (xs ys : List α) :
    scan f u (xs ++ ys) =
      ((scan f u xs).1 ++ (scan f (scan f u xs).2 ys).1, (scan f (scan f u xs).2 ys).2) := by
  induction xs generalizing u with
  | nil => rfl
  | cons x xs ih =>
      simp only [List.cons_append, scan, ih]

/-- The recurrences `f` have gone along the lines, from states `u` to states `u'`. -/
structure Filters (f : ι → σ → α → α × σ) (lines : ι → List Int) (m : Int → α) (u : ι → σ)
    (m' : Int → α) (u' : ι → σ) : Prop where
  values : ∀ k, (lines k).map m' = (scan (f k) (u k) ((lines k).map m)).1
  states : ∀ k, u' k = (scan (f k) (u k) ((lines k).map m)).2
  others : ∀ a, (∀ k, a ∉ lines k) → m' a = m a

namespace Filters

variable {f : ι → σ → α → α × σ} {lines rest : ι → List Int} {m m' m'' : Int → α}
  {u u' u'' : ι → σ}

theorem nil (f : ι → σ → α → α × σ) (m : Int → α) (u : ι → σ) :
    Filters f (fun _ => []) m u m u :=
  ⟨fun _ => rfl, fun _ => rfl, fun _ _ => rfl⟩

theorem append (h : Filters f lines m u m' u') (h' : Filters f rest m' u' m'' u'')
    (hapart : ∀ j k, ∀ a ∈ lines j, a ∉ rest k) :
    Filters f (fun k => lines k ++ rest k) m u m'' u'' := by
  have hdone : ∀ k, (lines k).map m'' = (lines k).map m' := fun k =>
    List.map_congr_left fun a ha => h'.others a fun j => hapart k j a ha
  have htodo : ∀ k, (rest k).map m' = (rest k).map m := fun k =>
    List.map_congr_left fun a ha => h.others a fun j hj => hapart j k a hj ha
  constructor
  · intro k
    rw [List.map_append, List.map_append, scan_append, hdone, h.values, h'.values, h.states, htodo]
  · intro k
    rw [List.map_append, scan_append, h'.states, h.states, htodo]
  · intro a ha
    rw [h'.others a fun k hk => ha k (List.mem_append_right _ hk)]
    exact h.others a fun k hk => ha k (List.mem_append_left _ hk)

/-- A loop goes along the lines, `size` places at a time; `place k t` is place `t` of line `k`,
and `states` says what the states are in the loop's own state. -/
theorem loop {τ : Type} (states : τ → ι → σ) {step : Nat → (Int → α) × τ → (Int → α) × τ}
    {place : ι → Nat → Int} {size n : Nat}
    (hapart : ∀ j k s t, s < size * n → t < size * n → place j s = place k t → s = t)
    (hstep : ∀ b < n, ∀ s, Filters f (fun k => (List.range size).map fun t =>
      place k (size * b + t)) s.1 (states s.2) (step b s).1 (states (step b s).2))
    (s : (Int → α) × τ) :
    Filters f (fun k => (List.range (size * n)).map (place k)) s.1 (states s.2)
      ((List.range n).foldl (fun s b => step b s) s).1
      (states ((List.range n).foldl (fun s b => step b s) s).2) := by
  induction n with
  | zero => exact nil f s.1 (states s.2)
  | succ n ih =>
      have hblock : size * (n + 1) = size * n + size := Nat.mul_succ size n
      have hdone := ih (fun j k s t hs ht => hapart j k s t (by omega) (by omega))
        fun b hb => hstep b (by omega)
      have hnext := hstep n (Nat.lt_succ_self n) ((List.range n).foldl (fun s b => step b s) s)
      have hboth := hdone.append hnext fun j k a ha hk => by
        obtain ⟨s, hs, rfl⟩ := List.mem_map.mp ha
        obtain ⟨t, ht, hst⟩ := List.mem_map.mp hk
        rw [List.mem_range] at hs ht
        have := hapart k j _ _ (by omega) (by omega) hst
        omega
      have hline : ∀ k, (List.range (size * n)).map (place k) ++
          (List.range size).map (fun t => place k (size * n + t)) =
          (List.range (size * (n + 1))).map (place k) := by
        intro k
        rw [hblock, List.range_add, List.map_append, List.map_map]
        rfl
      rw [List.range_succ, List.foldl_append]
      simp only [hline] at hboth
      exact hboth

end Filters

end PureDataPacket
