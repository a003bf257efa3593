/-
# `PureDataPacket.Lib.Repetition` — a pattern that is matched again and again

`copiesOf n s` is a pattern `n` times.  A cursor that goes through the pattern is somewhere
in the first of the copies: `Resumes R s t l` says that `l` matches the rest `t` of it, and
then some copies more.
-/
import Mathlib.Data.List.Forall2

namespace PureDataPacket

section Repetition

variable {α β : Type}

/-- `n` copies of a pattern. -/
def copiesOf (n : Nat) (s : List α) : List α := (List.replicate n s).flatten

variable {R : α → β → Prop} {s t : List α} {a : α} {b : β} {l : List β}

/-- Each element of a pattern that is matched is matched by something. -/
theorem exists_of_mem (h : List.Forall₂ R s l) (ha : a ∈ s) : ∃ b, R a b := by
  induction h with
  | nil => cases ha
  | cons hab _ ih =>
      rcases List.mem_cons.mp ha with rfl | ha
      · exact ⟨_, hab⟩
      · exact ih ha

/-- The rest of a copy, and more copies. -/
def Resumes (R : α → β → Prop) (s t : List α) (l : List β) : Prop :=
  ∃ n, List.Forall₂ R (t ++ copiesOf n s) l

/-- At the end of a copy, there may be nothing more. -/
theorem resumes_nil_nil : Resumes R s [] [] := ⟨0, .nil⟩

theorem not_resumes_cons : ¬Resumes R s (a :: t) [] := by
  rintro ⟨n, h⟩
  cases h

theorem resumes_cons : Resumes R s (a :: t) (b :: l) ↔ R a b ∧ Resumes R s t l := by
  constructor
  · rintro ⟨n, h⟩
    cases h with
    | cons hab h => exact ⟨hab, n, h⟩
  · rintro ⟨hab, n, h⟩
    exact ⟨n, .cons hab h⟩

theorem resumes_nil_cons : Resumes R s [] (b :: l) ↔ Resumes R s s (b :: l) := by
  constructor
  · rintro ⟨n, h⟩
    cases n with
    | zero => cases h
    | succ n => exact ⟨n, h⟩
  · rintro ⟨n, h⟩
    exact ⟨n + 1, h⟩

end Repetition

end PureDataPacket
