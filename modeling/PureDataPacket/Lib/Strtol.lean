/-
# `PureDataPacket.Lib.Strtol` — `strtol` with base 0

The text says itself which base it is in: `0x` in front of a hexadecimal digit
is base 16, any other zero in front is base 8, and the rest is base 10.  The
value saturates as a 64-bit `long`.  What `printf("%d")` writes is read back.
-/
import PureDataPacket.Lib.CInt
import Mathlib.Data.List.TakeWhile

namespace PureDataPacket

/-- What a digit is worth, in any base up to 36. -/
def digitValue (c : Char) : Option Nat :=
  if c.isDigit then some (c.toNat - 48)
  else if 'a' ≤ c ∧ c ≤ 'z' then some (c.toNat - 87)
  else if 'A' ≤ c ∧ c ≤ 'Z' then some (c.toNat - 55)
  else none

def isDigitOf (base : Nat) (c : Char) : Bool :=
  match digitValue c with
  | none => false
  | some v => decide (v < base)

/-- The value of some digits, the first one first. -/
def digitsValue (base : Nat) (digits : List Char) : Nat :=
  digits.foldl (fun v c => base * v + (digitValue c).getD 0) 0

/-- The base that base 0 stands for, and the digits on. -/
def detectBase : List Char → Nat × List Char
  | '0' :: x :: d :: s =>
      if (x = 'x' ∨ x = 'X') ∧ isDigitOf 16 d = true then (16, d :: s) else (8, '0' :: x :: d :: s)
  | '0' :: s => (8, '0' :: s)
  | s => (10, s)

def detectSign : List Char → Bool × List Char
  | '-' :: s => (true, s)
  | '+' :: s => (false, s)
  | s => (false, s)

/-- `strtol(s, &next, 0)`: the value and `next`. -/
def strtol (s : List Char) : Int × List Char :=
  let (negative, t) := detectSign (s.dropWhile isSpace)
  let (base, t) := detectBase t
  let digits := t.takeWhile (isDigitOf base)
  let n : Int := digitsValue base digits
  if digits = [] then (0, s)
  else (if negative then max (-n) (-2 ^ 63) else min n (2 ^ 63 - 1), t.dropWhile (isDigitOf base))

/-! ## Decimal numbers -/

theorem digitValue_of_isDigit {c : Char} (h : c.isDigit = true) :
    digitValue c = some (c.toNat - 48) := if_pos h

theorem isDigit_bounds {c : Char} (h : c.isDigit = true) : 48 ≤ c.toNat ∧ c.toNat ≤ 57 := by
  unfold Char.isDigit at h
  rw [Bool.and_eq_true, decide_eq_true_eq, decide_eq_true_eq] at h
  exact h

theorem isDigitOf_ten {c : Char} (h : c.isDigit = true) : isDigitOf 10 c = true := by
  have := isDigit_bounds h
  unfold isDigitOf
  rw [digitValue_of_isDigit h]
  simp only [decide_eq_true_eq]
  omega

theorem digitsValue_ten {digits : List Char} (h : ∀ c ∈ digits, c.isDigit = true) :
    digitsValue 10 digits = Nat.ofDigitChars 10 digits 0 := by
  unfold digitsValue
  rw [Nat.ofDigitChars_eq_foldl]
  refine List.foldl_ext _ _ _ fun v c hc => ?_
  rw [digitValue_of_isDigit (h c hc)]
  rfl

theorem isDigit_toDigits {n : Nat} {c : Char} (h : c ∈ Nat.toDigits 10 n) : c.isDigit = true :=
  Nat.isDigit_of_mem_toDigits (by decide) (by decide) h

theorem printInt_chars {n : Int} {c : Char} (h : c ∈ printInt n) : c.isDigit = true ∨ c = '-' := by
  cases n with
  | ofNat n => exact Or.inl (isDigit_toDigits h)
  | negSucc n =>
      rcases List.mem_cons.mp h with rfl | h
      · exact Or.inr rfl
      · exact Or.inl (isDigit_toDigits h)

theorem head_toDigits {n : Nat} (hn : 0 < n) : (Nat.toDigits 10 n).head? ≠ some '0' := by
  induction n using Nat.strongRecOn with
  | ind n ih =>
      by_cases hlt : n < 10
      · have hdigit : ∀ m < 10, 0 < m → m.digitChar ≠ '0' := by decide
        rw [Nat.toDigits_of_lt_base hlt]
        exact fun he => hdigit n hlt hn (Option.some.inj he)
      · rw [Nat.toDigits_of_base_le (by decide) (Nat.le_of_not_lt hlt)]
        have hhead := ih (n / 10) (by omega) (by omega)
        have hne : Nat.toDigits 10 (n / 10) ≠ [] := Nat.toDigits_ne_nil
        rwa [List.head?_append_of_ne_nil _ hne]

theorem detectBase_digits {s : List Char} (h : s.head? ≠ some '0') : detectBase s = (10, s) := by
  unfold detectBase
  split
  · exact absurd rfl h
  · exact absurd rfl h
  · rfl

theorem strtol_digits {n : Nat} (hn : 0 < n) :
    detectBase (Nat.toDigits 10 n) = (10, Nat.toDigits 10 n) ∧
      (Nat.toDigits 10 n).takeWhile (isDigitOf 10) = Nat.toDigits 10 n ∧
      (Nat.toDigits 10 n).dropWhile (isDigitOf 10) = [] ∧
      digitsValue 10 (Nat.toDigits 10 n) = n := by
  have hall : ∀ c ∈ Nat.toDigits 10 n, isDigitOf 10 c = true := fun c hc =>
    isDigitOf_ten (isDigit_toDigits hc)
  refine ⟨detectBase_digits (head_toDigits hn), List.takeWhile_eq_self_iff.mpr hall,
    List.dropWhile_eq_nil_iff.mpr hall, ?_⟩
  rw [digitsValue_ten fun c hc => isDigit_toDigits hc]
  exact Nat.ofDigitChars_ten_toDigits

theorem digit_not_special {c : Char} (h : c.isDigit = true) :
    isSpace c = false ∧ c ≠ '-' ∧ c ≠ '+' := by
  have hb := isDigit_bounds h
  have hne : ∀ d : Char, d.toNat < 48 → c ≠ d := by
    rintro d hd rfl
    omega
  refine ⟨?_, hne _ (by decide), hne _ (by decide)⟩
  simp only [isSpace, hne ' ' (by decide), hne '\t' (by decide), hne '\n' (by decide),
    hne '\r' (by decide), decide_false, Bool.or_false, Bool.false_or, Bool.or_eq_false_iff,
    decide_eq_false_iff_not]
  omega

theorem detectSign_digits {s : List Char} (h : ∀ c, s.head? = some c → c.isDigit = true) :
    detectSign (s.dropWhile isSpace) = (false, s) := by
  cases s with
  | nil => rfl
  | cons c s =>
      obtain ⟨hspace, hminus, hplus⟩ := digit_not_special (h c rfl)
      rw [List.dropWhile_cons_of_neg (by rw [hspace]; exact Bool.false_ne_true)]
      unfold detectSign
      split
      · next he => exact absurd (List.cons.inj he).1 hminus
      · next he => exact absurd (List.cons.inj he).1 hplus
      · rfl

/-- `strtol` reads what `printf` has written. -/
theorem strtol_printInt {n : Int} (hn : IsInt n) : strtol (printInt n) = (n, []) := by
  obtain ⟨hlo, hhi⟩ := hn
  cases n with
  | ofNat n =>
      rw [Int.ofNat_eq_natCast] at *
      have hprint : printInt (n : Int) = Nat.toDigits 10 n := rfl
      rcases Nat.eq_zero_or_pos n with rfl | hpos
      · rfl
      · obtain ⟨hbase, htake, hdrop, hvalue⟩ := strtol_digits hpos
        have hsign := detectSign_digits (s := Nat.toDigits 10 n) fun c hc =>
          isDigit_toDigits (List.mem_of_mem_head? hc)
        have hne : Nat.toDigits 10 n ≠ [] := Nat.toDigits_ne_nil
        rw [hprint]
        unfold strtol
        simp only [hsign, hbase, htake, hdrop, hvalue, if_neg hne, Bool.false_eq_true, if_false,
          Prod.mk.injEq, and_true]
        omega
  | negSucc n =>
      obtain ⟨hbase, htake, hdrop, hvalue⟩ := strtol_digits (Nat.succ_pos n)
      have hprint : printInt (Int.negSucc n) = '-' :: Nat.toDigits 10 (n + 1) := rfl
      have hsign : detectSign (('-' :: Nat.toDigits 10 (n + 1)).dropWhile isSpace) =
          (true, Nat.toDigits 10 (n + 1)) := rfl
      have hne : Nat.toDigits 10 (n + 1) ≠ [] := Nat.toDigits_ne_nil
      rw [hprint]
      unfold strtol
      simp only [hsign, hbase, htake, hdrop, hvalue, if_neg hne, if_true, Prod.mk.injEq, and_true]
      omega

end PureDataPacket
