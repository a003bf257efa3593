/-
# `PureDataPacket.Lib.Sweep` — `for` loops that establish something at every step

`counter start stop step` is the values that `for (v = start; v < stop; v += step)` goes
through, and `after` what `v` is when the loop is done.

A sweep is a loop whose steps each have a goal: a step reaches its own and spoils no
other one.  Then all of them are reached at the end.

| | |
| :-- | :-- |
| `after_of_mul` | a counter that can hit its bound hits it |
| `mem_counter_one` | a counter that goes through all numbers below a bound |
| `sweep` | every goal is reached, and what the steps keep is kept |
-/
import PureDataPacket.Lib.Routine

namespace PureDataPacket

/-! ## Counters -/

/-- The values of the counter in the body. -/
def counter (start stop step : Int) : List Int :=
  (List.range (iterations (stop - start) step)).map fun k : Nat => start + step * (k : Int)

/-- The value of the counter after the loop. -/
def after (start stop step : Int) : Int := start + step * (iterations (stop - start) step : Int)

theorem mem_counter {start stop step v : Int} (hstep : 0 < step) :
    v ∈ counter start stop step ↔ ∃ k : Nat, v = start + step * k ∧ v < stop := by
  simp only [counter, List.mem_map, List.mem_range, lt_iterations hstep]
  constructor
  · rintro ⟨k, hk, rfl⟩
    exact ⟨k, rfl, by omega⟩
  · rintro ⟨k, rfl, hk⟩
    exact ⟨k, by omega, rfl⟩

theorem iterations_of_mul (start : Int) {step : Int} (hstep : 0 < step) (n : Nat) :
    iterations (start + step * n - start) step = n := by
  have hiff : ∀ k : Nat, k < iterations (start + step * n - start) step ↔ k < n := by
    intro k
    rw [lt_iterations hstep, add_sub_cancel_left, Int.mul_lt_mul_left hstep, Int.ofNat_lt]
  have hlo := hiff n
  have hhi := hiff (iterations (start + step * n - start) step)
  omega

theorem after_of_mul (start : Int) {step : Int} (hstep : 0 < step) (n : Nat) :
    after start (start + step * n) step = start + step * n := by
  unfold after
  rw [iterations_of_mul start hstep]

theorem counter_of_mul (start : Int) {step : Int} (hstep : 0 < step) (n : Nat) :
    counter start (start + step * n) step =
      (List.range n).map fun k : Nat => start + step * (k : Int) := by
  unfold counter
  rw [iterations_of_mul start hstep]

theorem mem_counter_one {n v : Int} : v ∈ counter 0 n 1 ↔ 0 ≤ v ∧ v < n := by
  rw [mem_counter Int.one_pos]
  constructor
  · rintro ⟨k, rfl, hk⟩
    omega
  · rintro ⟨hv, hvn⟩
    exact ⟨v.toNat, by omega, hvn⟩

theorem after_one {n : Int} (hn : 0 ≤ n) : after 0 n 1 = n := by
  have := after_of_mul 0 Int.one_pos n.toNat
  rw [Int.toNat_of_nonneg hn, Int.zero_add, Int.one_mul] at this
  exact this

/-! ## Sweeps -/

variable {σ β : Type}

theorem sweep (step : σ → β → σ) (Inv : σ → Prop) (Goal : β → σ → Prop) (l : List β)
    (hinv : ∀ s, Inv s → ∀ b ∈ l, Inv (step s b))
    (hgoal : ∀ s, Inv s → ∀ b ∈ l, Goal b (step s b))
    (hkeep : ∀ s, Inv s → ∀ b ∈ l, ∀ b' ∈ l, Goal b' s → Goal b' (step s b)) {s : σ}
    (hs : Inv s) : Inv (l.foldl step s) ∧ ∀ b ∈ l, Goal b (l.foldl step s) := by
  -- The goals of the steps taken so far are part of the invariant.
  suffices h : ∀ todo done : List β, todo ⊆ l → done ⊆ l → ∀ s, Inv s → (∀ b ∈ done, Goal b s) →
      Inv (todo.foldl step s) ∧ ∀ b, b ∈ done ∨ b ∈ todo → Goal b (todo.foldl step s) by
    obtain ⟨hinv', hgoal'⟩ := h l [] (fun _ h => h) (List.nil_subset l) s hs
      (fun b hb => absurd hb List.not_mem_nil)
    exact ⟨hinv', fun b hb => hgoal' b (Or.inr hb)⟩
  intro todo
  induction todo with
  | nil =>
      intro done _ _ s hs hdone
      exact ⟨hs, fun b hb => hdone b (hb.resolve_right List.not_mem_nil)⟩
  | cons b todo ih =>
      intro done htodo hdone s hs hgoals
      have hb : b ∈ l := htodo List.mem_cons_self
      have hrest : todo ⊆ l := fun c hc => htodo (List.mem_cons_of_mem b hc)
      obtain ⟨hinv', hgoal'⟩ := ih (b :: done) hrest (List.cons_subset.mpr ⟨hb, hdone⟩)
        (step s b) (hinv s hs b hb) fun c hc => by
          rcases List.mem_cons.mp hc with rfl | hc
          · exact hgoal s hs c hb
          · exact hkeep s hs b hb c (hdone hc) (hgoals c hc)
      refine ⟨hinv', ?_⟩
      rintro c (hc | hc)
      · exact hgoal' c (Or.inl (List.mem_cons_of_mem b hc))
      · rcases List.mem_cons.mp hc with rfl | hc
        · exact hgoal' c (Or.inl List.mem_cons_self)
        · exact hgoal' c (Or.inr hc)

end PureDataPacket
