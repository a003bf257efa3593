/-
# `PureDataPacket.Lib.CInt` — C's 32-bit integers and their decimal text

Machine words are natural numbers below `2 ^ 32` (`unsigned int`) or integers
between `-2 ^ 31` and `2 ^ 31` (`int`).  `u32` and `toInt32` are the
conversions, `printInt` is `printf("%d")` and `scanInt` is `scanf("%d")`: the
value goes through a 64-bit `long`, which saturates, and is then cut to 32
bits.
-/
import Mathlib.Algebra.Group.Int.Defs
import Mathlib.Algebra.Group.Nat.Defs
import Mathlib.Data.Int.Init
import Mathlib.Data.List.Basic

namespace PureDataPacket

/-- Conversion to `unsigned int`. -/
def u32 (n : Nat) : Nat := n % 2 ^ 32

theorem u32_lt (n : Nat) : u32 n < 2 ^ 32 := Nat.mod_lt _ (by decide)

theorem u32_eq_self {n : Nat} (h : n < 2 ^ 32) : u32 n = n := Nat.mod_eq_of_lt h

/-- Conversion to `int`. -/
def toInt32 (n : Int) : Int := n.bmod (2 ^ 32)

/-- An `int` seen as an `unsigned int`. -/
def ofInt32 (n : Int) : Nat := (n % 2 ^ 32).toNat

theorem toInt32_of_nat_lt {n : Nat} (h : n < 2 ^ 31) : toInt32 n = n := by
  unfold toInt32
  apply Int.bmod_eq_of_le <;> omega

theorem ofInt32_of_nat_lt {n : Nat} (h : n < 2 ^ 32) : ofInt32 (n : Int) = n := by
  unfold ofInt32
  omega

theorem ofInt32_lt (n : Int) : ofInt32 n < 2 ^ 32 := by
  unfold ofInt32
  omega

/-- The values of an `int`. -/
def IsInt (n : Int) : Prop := -2 ^ 31 ≤ n ∧ n < 2 ^ 31

instance (n : Int) : Decidable (IsInt n) := inferInstanceAs (Decidable (_ ∧ _))

/-- `a * b`; also `a << 1`, which is `a * 2` and as undefined when it is no `int`. -/
def intMul (a b : Int) : Option Int := if IsInt (a * b) then some (a * b) else none

@[simp] theorem intMul_eq_some {a b n : Int} : intMul a b = some n ↔ IsInt n ∧ n = a * b := by
  unfold intMul
  split
  · next h =>
      rw [Option.some.injEq]
      constructor
      · rintro rfl
        exact ⟨h, rfl⟩
      · rintro ⟨_, rfl⟩
        rfl
  · next h =>
      refine iff_of_false (fun he => by cases he) ?_
      rintro ⟨hn, rfl⟩
      exact h hn

theorem isInt_toInt32 (n : Int) : IsInt (toInt32 n) := by
  unfold toInt32 IsInt
  constructor
  · exact Int.le_bmod (by decide)
  · exact Int.bmod_lt (by decide)

theorem toInt32_of_isInt {n : Int} (h : IsInt n) : toInt32 n = n := by
  obtain ⟨lo, hi⟩ := h
  unfold toInt32
  apply Int.bmod_eq_of_le <;> omega

theorem toInt32_eq (n : Int) :
    toInt32 n = if n % 2 ^ 32 < 2 ^ 31 then n % 2 ^ 32 else n % 2 ^ 32 - 2 ^ 32 := by
  unfold toInt32 Int.bmod
  dsimp only
  split <;> split <;> omega

theorem ofInt32_eq (n : Int) : (ofInt32 n : Int) = n % 2 ^ 32 := by
  unfold ofInt32
  omega

/-- `printf("%d")`. -/
def printInt : Int → List Char
  | .ofNat n => Nat.toDigits 10 n
  | .negSucc n => '-' :: Nat.toDigits 10 (n + 1)

/-- `isspace` in the C locale. -/
def isSpace (c : Char) : Bool :=
  c = ' ' || c = '\t' || c = '\n' || c.toNat = 11 || c.toNat = 12 || c = '\r'

/-- What the digits of a `%d` conversion are worth: a `long`, cut to an `int`. -/
def scanValue (negative : Bool) (digits : List Char) : Int :=
  let n : Int := Nat.ofDigitChars 10 digits 0
  toInt32 (if negative then max (-n) (-2 ^ 63) else min n (2 ^ 63 - 1))

/-- `scanf("%d")`: the value and the unread rest, or `none` on a matching
failure. -/
def scanInt (s : List Char) : Option (Int × List Char) :=
  let s := s.dropWhile isSpace
  let negative := s.head? = some '-'
  let s := if negative ∨ s.head? = some '+' then s.tail else s
  let digits := s.takeWhile Char.isDigit
  if digits = [] then none
  else some (scanValue negative digits, s.dropWhile Char.isDigit)

/-- `sscanf(s, "%dx%dx…")`: the conversions that succeed, in order. -/
def scanDims : Nat → List Char → List Int
  | 0, _ => []
  | n + 1, s =>
      match scanInt s with
      | none => []
      | some (v, rest) => v :: (if rest.head? = some 'x' then scanDims n rest.tail else [])

example : scanDims 2 "0320x240".toList = [320, 240] := by decide

end PureDataPacket
