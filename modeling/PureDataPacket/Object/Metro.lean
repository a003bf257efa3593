/-
# `PureDataPacket.Object.Metro` — bangs at a rational rate

`pdp_metro~` counts samples times the denominator of the frame rate, and takes a period, the
sample rate times the nominator, from the count for every bang.

The variables are of type `t_int`, which is a `long`; a value that is none is no result, and
neither is a loop that does not end.  `clock_set` with a delay of 0 asks for a bang that the
scheduler delivers before the next block.

| | |
| :-- | :-- |
| `Bounded` | neither a rate nor the count is too large |
| `drain_spec` | the loop over the periods |
| `block_spec` | whatever the count was, it is within the period afterwards |
| `Exact` | the state after `k` blocks since `x`, with `b` bangs |
-/
import Mathlib.Data.Int.Order.Basic
import Mathlib.Tactic.Ring
import PureDataPacket.Lib.CInt

namespace PureDataPacket

/-- The values of a `long`. -/
def IsLong (n : Int) : Prop := -2 ^ 63 ≤ n ∧ n < 2 ^ 63

instance (n : Int) : Decidable (IsLong n) := inferInstanceAs (Decidable (_ ∧ _))

/-- A sum or a product in a `long`. -/
def asLong (n : Int) : Option Int := if IsLong n then some n else none

theorem asLong_eq {n : Int} (h : IsLong n) : asLong n = some n := if_pos h

/-- `t_metro`, and how many bangs have left the outlet. -/
structure Metro where
  count : Int
  den : Int
  nom : Int
  bangs : Nat
  deriving DecidableEq

namespace Metro

/-- `while (x->x_count > period)`.  A period that is not positive makes the count no smaller. -/
def drain (period count : Int) (dobang : Bool) : Option (Int × Bool) :=
  if period < count then
    if 0 < period then drain period (count - period) true else none
  else some (count, dobang)
termination_by count.toNat
decreasing_by omega

/-- `metro_perform`; the second component says if `clock_set` was called. -/
def perform (n sr : Int) (x : Metro) : Option (Metro × Bool) := do
  let period ← asLong (sr * x.nom)
  let added ← asLong (n * x.den)
  let count ← asLong (x.count + added)
  let (count, dobang) ← drain period count false
  return ({ x with count := count }, dobang)

/-- `metro_tick`. -/
def tick (x : Metro) : Metro := { x with bangs := x.bangs + 1 }

/-- A block of `n` samples at the rate `sr`, and the clock. -/
def block (n sr : Int) (x : Metro) : Option Metro :=
  (x.perform n sr).map fun r => if r.2 then r.1.tick else r.1

/-- `metro_reset`. -/
def reset (x : Metro) : Metro := { x with count := 0 }

/-- `metro_fps`, with both floats as the ints that they are cast to. -/
def fps (fden fnom : Int) (x : Metro) : Metro :=
  { x with
    den := if fden < 1 then 1 else fden
    nom := if fnom < 1 then 1 else fnom }

/-- `metro_new`. -/
def new : Metro := fps 1 1 ⟨0, 0, 0, 0⟩

def blocks (n sr : Int) : Nat → Metro → Option Metro
  | 0, x => some x
  | k + 1, x => (blocks n sr k x).bind (block n sr)

end Metro

/-- What happens to a metro. -/
inductive MetroEvent where
  | block (n sr : Int)
  | reset
  | fps (fden fnom : Int)
  deriving DecidableEq

/-- Lengths and rates are ints; a block has no negative length and a sample rate is positive. -/
def MetroEvent.Real : MetroEvent → Prop
  | .block n sr => IsInt n ∧ 0 ≤ n ∧ IsInt sr ∧ 0 < sr
  | .reset => True
  | .fps fden fnom => IsInt fden ∧ IsInt fnom

namespace Metro

def handle (x : Metro) : MetroEvent → Option Metro
  | .block n sr => x.block n sr
  | .reset => some x.reset
  | .fps fden fnom => some (x.fps fden fnom)

def run : List MetroEvent → Metro → Option Metro
  | [], x => some x
  | e :: l, x => (x.handle e).bind (run l)

/-! ## A block -/

section Block

variable {x : Metro} {n sr period count : Int} {dobang : Bool}

/-- The loop ends with the count within the period, and as many periods less. -/
theorem drain_spec (hperiod : 0 < period) (hcount : 0 ≤ count) (dobang : Bool) :
    ∃ c b, drain period count dobang = some (c, b) ∧ 0 ≤ c ∧ c ≤ period := by
  induction hn : count.toNat using Nat.strong_induction_on generalizing count dobang with
  | _ m ih =>
      unfold drain
      by_cases hlt : period < count
      · rw [if_pos hlt, if_pos hperiod]
        exact ih (count - period).toNat (by omega) (by omega) true rfl
      · rw [if_neg hlt]
        exact ⟨count, dobang, rfl, hcount, by omega⟩

/-- At most one period is taken if the count was within one before. -/
theorem drain_once (hle : count ≤ 2 * period) : drain period count dobang =
    if period < count then some (count - period, true) else some (count, dobang) := by
  unfold drain
  by_cases hlt : period < count
  · rw [if_pos hlt, if_pos hlt, if_pos (by omega)]
    unfold drain
    rw [if_neg (by omega)]
  · rw [if_neg hlt, if_neg hlt]

/-- Neither a rate nor the count is too large. -/
structure Bounded (x : Metro) : Prop where
  den : 1 ≤ x.den ∧ x.den < 2 ^ 31
  nom : 1 ≤ x.nom ∧ x.nom < 2 ^ 31
  count : 0 ≤ x.count ∧ x.count ≤ 2 ^ 62

theorem mul_bounds {a b : Int} (ha : 0 ≤ a) (ha' : a < 2 ^ 31) (hb : 0 ≤ b) (hb' : b < 2 ^ 31) :
    0 ≤ a * b ∧ a * b < 2 ^ 62 := by
  have hle : a * b ≤ (2 ^ 31 - 1) * (2 ^ 31 - 1) :=
    Int.mul_le_mul (by omega) (by omega) hb (by decide)
  exact ⟨Int.mul_nonneg ha hb, by omega⟩

/-- Nothing in a block is too large for a `long`. -/
theorem perform_eq (hx : x.Bounded) (hn : IsInt n) (hn0 : 0 ≤ n) (hsr : IsInt sr)
    (hsr0 : 0 ≤ sr) : x.perform n sr =
      (drain (sr * x.nom) (x.count + n * x.den) false).map fun r =>
        ({ x with count := r.1 }, r.2) := by
  have hperiod := mul_bounds hsr0 hsr.2 (Int.le_of_lt hx.nom.1) hx.nom.2
  have hadded := mul_bounds hn0 hn.2 (Int.le_of_lt hx.den.1) hx.den.2
  have hcount := hx.count
  have h1 : IsLong (sr * x.nom) := ⟨by omega, by omega⟩
  have h2 : IsLong (n * x.den) := ⟨by omega, by omega⟩
  have h3 : IsLong (x.count + n * x.den) := ⟨by omega, by omega⟩
  unfold perform
  simp only [asLong_eq h1, asLong_eq h2, asLong_eq h3, Option.bind_eq_bind, Option.bind_some]
  cases drain (sr * x.nom) (x.count + n * x.den) false with
  | none => rfl
  | some r => rfl

theorem block_spec (hx : x.Bounded) (hn : IsInt n) (hn0 : 0 ≤ n) (hsr : IsInt sr)
    (hsr0 : 0 < sr) : ∃ x', x.block n sr = some x' ∧ x'.Bounded ∧ 0 ≤ x'.count ∧
      x'.count ≤ sr * x.nom := by
  have hnom := hx.nom
  have hadded := mul_bounds hn0 hn.2 (Int.le_of_lt hx.den.1) hx.den.2
  have hperiod := mul_bounds (Int.le_of_lt hsr0) hsr.2 (Int.le_of_lt hnom.1) hnom.2
  have hcount := hx.count
  obtain ⟨c, b, hdrain, h0, hle⟩ := @drain_spec _ (x.count + n * x.den)
    (Int.mul_pos hsr0 (by omega : 0 < x.nom)) (by omega) false
  have hbounded : ({ x with count := c } : Metro).Bounded :=
    ⟨hx.den, hx.nom, h0, show c ≤ 2 ^ 62 by omega⟩
  unfold block
  rw [perform_eq hx hn hn0 hsr (Int.le_of_lt hsr0), hdrain]
  cases b with
  | false => exact ⟨_, rfl, hbounded, h0, hle⟩
  | true => exact ⟨_, rfl, ⟨hbounded.den, hbounded.nom, hbounded.count⟩, h0, hle⟩

end Block

/-! ## Any history -/

section History

variable {x : Metro} {e : MetroEvent} {l : List MetroEvent}

theorem Bounded.fps (hx : x.Bounded) {fden fnom : Int} (hden : IsInt fden) (hnom : IsInt fnom) :
    (x.fps fden fnom).Bounded := by
  have hdlt := hden.2
  have hnlt := hnom.2
  refine ⟨?_, ?_, hx.count⟩
  · show 1 ≤ (if fden < 1 then 1 else fden) ∧ (if fden < 1 then 1 else fden) < 2 ^ 31
    split <;> omega
  · show 1 ≤ (if fnom < 1 then 1 else fnom) ∧ (if fnom < 1 then 1 else fnom) < 2 ^ 31
    split <;> omega

theorem bounded_new : new.Bounded :=
  ⟨⟨by decide, by decide⟩, ⟨by decide, by decide⟩, ⟨by decide, by decide⟩⟩

theorem Bounded.reset (hx : x.Bounded) : x.reset.Bounded :=
  ⟨hx.den, hx.nom, Int.le_refl 0, show (0 : Int) ≤ 2 ^ 62 by decide⟩

theorem Bounded.handle (hx : x.Bounded) (he : e.Real) :
    ∃ x', x.handle e = some x' ∧ x'.Bounded := by
  cases e with
  | block n sr =>
      obtain ⟨hn, hn0, hsr, hsr0⟩ := he
      obtain ⟨x', hblock, hx', _⟩ := block_spec hx hn hn0 hsr hsr0
      exact ⟨x', hblock, hx'⟩
  | reset => exact ⟨_, rfl, hx.reset⟩
  | fps fden fnom => exact ⟨_, rfl, hx.fps he.1 he.2⟩

theorem Bounded.run (hx : x.Bounded) (hl : ∀ e ∈ l, e.Real) :
    ∃ x', Metro.run l x = some x' ∧ x'.Bounded := by
  induction l generalizing x with
  | nil => exact ⟨x, rfl, hx⟩
  | cons e l ih =>
      obtain ⟨x₁, hhandle, h₁⟩ := hx.handle (hl e List.mem_cons_self)
      obtain ⟨x', hrun, h'⟩ := ih h₁ fun e he => hl e (List.mem_cons_of_mem _ he)
      refine ⟨x', ?_, h'⟩
      rw [Metro.run, hhandle, Option.bind_some, hrun]

end History

/-! ## The rate -/

section Rate

variable {x : Metro} {n sr : Int}

/-- The state after `k` blocks since `x`, with `b` bangs. -/
structure Exact (x : Metro) (n sr : Int) (k b : Nat) (x' : Metro) : Prop where
  bounded : x'.Bounded
  den : x'.den = x.den
  nom : x'.nom = x.nom
  bangs : x'.bangs = x.bangs + b
  nonneg : 0 ≤ x'.count
  le : x'.count ≤ sr * x.nom
  balance : b * (sr * x.nom) + x'.count = k * n * x.den

/-- One block takes at most one period from the count. -/
theorem Exact.block {x' : Metro} {k b : Nat} (h : Exact x n sr k b x') (hn : IsInt n)
    (hn0 : 0 ≤ n) (hsr : IsInt sr) (hsr0 : 0 ≤ sr) (hslow : n * x.den ≤ sr * x.nom) :
    ∃ x'' b', x'.block n sr = some x'' ∧ Exact x n sr (k + 1) b' x'' := by
  have hle := h.le
  have hnonneg := h.nonneg
  have hbalance := h.balance
  have hden := h.bounded.den
  rw [h.den] at hden
  have hnom := h.bounded.nom
  rw [h.nom] at hnom
  have hadded : 0 ≤ n * x.den := Int.mul_nonneg hn0 (by omega)
  have hperiod : sr * x.nom < 2 ^ 62 := (mul_bounds hsr0 hsr.2 (Int.le_of_lt hnom.1) hnom.2).2
  have hstep : ((k + 1 : Nat) : Int) * n * x.den = k * n * x.den + n * x.den := by
    push_cast
    ring
  unfold Metro.block
  rw [perform_eq h.bounded hn hn0 hsr hsr0, h.nom, h.den, drain_once (by omega)]
  by_cases hlt : sr * x.nom < x'.count + n * x.den
  · rw [if_pos hlt]
    refine ⟨_, b + 1, rfl, ?_⟩
    have hbangs : x'.bangs + 1 = x.bangs + (b + 1) := by rw [h.bangs, Nat.add_assoc]
    refine ⟨⟨hden, hnom, ?_, ?_⟩, rfl, rfl, hbangs, ?_, ?_, ?_⟩
    · show 0 ≤ x'.count + n * x.den - sr * x.nom
      omega
    · show x'.count + n * x.den - sr * x.nom ≤ 2 ^ 62
      omega
    · show 0 ≤ x'.count + n * x.den - sr * x.nom
      omega
    · show x'.count + n * x.den - sr * x.nom ≤ sr * x.nom
      omega
    · show ((b + 1 : Nat) : Int) * (sr * x.nom) + (x'.count + n * x.den - sr * x.nom) = _
      rw [hstep, ← hbalance]
      push_cast
      ring
  · rw [if_neg hlt]
    refine ⟨_, b, rfl, ⟨hden, hnom, ?_, ?_⟩, rfl, rfl, h.bangs, ?_, ?_, ?_⟩
    · show 0 ≤ x'.count + n * x.den
      omega
    · show x'.count + n * x.den ≤ 2 ^ 62
      omega
    · show 0 ≤ x'.count + n * x.den
      omega
    · show x'.count + n * x.den ≤ sr * x.nom
      omega
    · show (b : Int) * (sr * x.nom) + (x'.count + n * x.den) = _
      rw [hstep, ← hbalance]
      ring

theorem exact_blocks (hx : x.Bounded) (hn : IsInt n) (hn0 : 0 ≤ n) (hsr : IsInt sr)
    (hslow : n * x.den ≤ sr * x.nom) (k : Nat) :
    ∃ x' b, blocks n sr k x.reset = some x' ∧ Exact x n sr k b x' := by
  have hperiod : 0 ≤ sr * x.nom :=
    Int.le_trans (Int.mul_nonneg hn0 (by have := hx.den; omega)) hslow
  have hsr0 : 0 ≤ sr := by
    have hnom := hx.nom
    by_contra hneg
    have : sr * x.nom < 0 := Int.mul_neg_of_neg_of_pos (by omega) (by omega)
    omega
  induction k with
  | zero =>
      refine ⟨x.reset, 0, rfl, hx.reset, rfl, rfl, rfl, Int.le_refl 0, hperiod, ?_⟩
      show ((0 : Nat) : Int) * (sr * x.nom) + 0 = ((0 : Nat) : Int) * n * x.den
      simp
  | succ k ih =>
      obtain ⟨x₁, b, hblocks, h₁⟩ := ih
      obtain ⟨x', b', hblock, h'⟩ := h₁.block hn hn0 hsr hsr0 hslow
      refine ⟨x', b', ?_, h'⟩
      rw [blocks, hblocks, Option.bind_some, hblock]

/-- After any history the bangs keep up with the samples since a reset, and a new rate takes
effect with the next block. -/
theorem metro_no_drift (l : List MetroEvent) (hl : ∀ e ∈ l, e.Real) :
    ∃ x, run l new = some x ∧
      (∀ n sr, IsInt n → 0 ≤ n → IsInt sr → n * x.den ≤ sr * x.nom → ∀ k : Nat,
        ∃ x' b, blocks n sr k x.reset = some x' ∧ x'.bangs = x.bangs + b ∧ 0 ≤ x'.count ∧
          x'.count ≤ sr * x.nom ∧ b * (sr * x.nom) + x'.count = k * n * x.den ∧
          |k * n * x.den - b * (sr * x.nom)| ≤ sr * x.nom) ∧
      ∀ fden fnom n sr, MetroEvent.Real (.fps fden fnom) → MetroEvent.Real (.block n sr) →
        ∃ x', (x.fps fden fnom).block n sr = some x' ∧ 0 ≤ x'.count ∧
          x'.count ≤ sr * (x.fps fden fnom).nom := by
  obtain ⟨x, hrun, hx⟩ := bounded_new.run hl
  refine ⟨x, hrun, ?_, ?_⟩
  · intro n sr hn hn0 hsr hslow k
    obtain ⟨x', b, hblocks, h⟩ := exact_blocks hx hn hn0 hsr hslow k
    have hbalance := h.balance
    refine ⟨x', b, hblocks, h.bangs, h.nonneg, h.le, hbalance, ?_⟩
    rw [← hbalance, add_sub_cancel_left, abs_of_nonneg h.nonneg]
    exact h.le
  · rintro fden fnom n sr ⟨hden, hnom⟩ ⟨hn, hn0, hsr, hsr0⟩
    obtain ⟨x', hblock, _, h0, hle⟩ := block_spec (hx.fps hden hnom) hn hn0 hsr hsr0
    exact ⟨x', hblock, h0, hle⟩

/-- Blocks of 64 samples at 44100 Hz, then 25 frames per second, then ten blocks more. -/
theorem metro_no_drift_25 :
    ∃ x, run [.block 64 44100, .fps 25 1, .block 64 44100] new = some x ∧
      (∀ n sr, IsInt n → 0 ≤ n → IsInt sr → n * x.den ≤ sr * x.nom → ∀ k : Nat,
        ∃ x' b, blocks n sr k x.reset = some x' ∧ x'.bangs = x.bangs + b ∧ 0 ≤ x'.count ∧
          x'.count ≤ sr * x.nom ∧ b * (sr * x.nom) + x'.count = k * n * x.den ∧
          |k * n * x.den - b * (sr * x.nom)| ≤ sr * x.nom) ∧
      ∀ fden fnom n sr, MetroEvent.Real (.fps fden fnom) → MetroEvent.Real (.block n sr) →
        ∃ x', (x.fps fden fnom).block n sr = some x' ∧ 0 ≤ x'.count ∧
          x'.count ≤ sr * (x.fps fden fnom).nom := by
  refine metro_no_drift [.block 64 44100, .fps 25 1, .block 64 44100] fun e he => ?_
  simp only [List.mem_cons, List.not_mem_nil, or_false] at he
  rcases he with rfl | rfl | rfl
  · exact ⟨by decide, by decide, by decide, by decide⟩
  · exact ⟨by decide, by decide⟩
  · exact ⟨by decide, by decide, by decide, by decide⟩

end Rate

end Metro

end PureDataPacket
