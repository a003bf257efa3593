/-
# `PureDataPacket.Lib.Gates` — stacks of values that are partly known

Code that only combines values with `and`, `or` and `xor` can be run on words, on single bits, or on
no values at all.  A pile is what such code knows of a stack: the items it has put there, some
of which it may have copied from places it knows nothing about.

| | |
| :-- | :-- |
| `Gates.Hom` | a map that the gates respect, such as the choice of one bit of a word |
| `OnTop` | the items of a pile are those on top of a stack |
-/
import Mathlib.Data.Option.NAry
import Mathlib.Data.Option.Basic

namespace PureDataPacket

/-- The operations; `full` is what a value is combined with to be inverted. -/
structure Gates (V : Type) where
  zero : V
  one : V
  full : V
  and : V → V → V
  or : V → V → V
  xor : V → V → V

namespace Gates

variable {V W : Type}

/-- The gates respect the map. -/
structure Hom (G : Gates V) (G' : Gates W) (φ : V → W) : Prop where
  zero : φ G.zero = G'.zero
  one : φ G.one = G'.one
  full : φ G.full = G'.full
  and : ∀ v w, φ (G.and v w) = G'.and (φ v) (φ w)
  or : ∀ v w, φ (G.or v w) = G'.or (φ v) (φ w)
  xor : ∀ v w, φ (G.xor v w) = G'.xor (φ v) (φ w)

def bit : Gates Bool where
  zero := false
  one := true
  full := true
  and := Bool.and
  or := Bool.or
  xor := Bool.xor

def blank : Gates Unit where
  zero := ()
  one := ()
  full := ()
  and _ _ := ()
  or _ _ := ()
  xor _ _ := ()

theorem hom_blank (G : Gates V) : Hom G blank fun _ => () where
  zero := rfl
  one := rfl
  full := rfl
  and _ _ := rfl
  or _ _ := rfl
  xor _ _ := rfl

/-- A gate for values that may be unknown. -/
def lift (f : V → V → V) : Option V → Option V → Option V := Option.map₂ f

theorem map_lift {φ : V → W} {f : V → V → V} {g : W → W → W}
    (h : ∀ v w, φ (f v w) = g (φ v) (φ w)) (v w : Option V) :
    (lift f v w).map φ = lift g (v.map φ) (w.map φ) :=
  Option.map_map₂_distrib h

end Gates

/-! ## What is known -/

section Known

variable {V : Type} {f : V → V → V} {a b : Option V} {x y : V}

/-- The value, if there is one, is this. -/
def Known (a : Option V) (x : V) : Prop := ∀ v, a = some v → x = v

theorem known_some (x : V) : Known (some x) x := fun _ h => Option.some.inj h

theorem known_none (x : V) : Known none x := fun _ h => nomatch h

theorem Known.lift (ha : Known a x) (hb : Known b y) : Known (Gates.lift f a b) (f x y) := by
  intro v hv
  obtain ⟨x', y', hx, hy, rfl⟩ := Option.map₂_eq_some_iff.mp hv
  rw [ha x' hx, hb y' hy]

end Known

/-- The items are on top of the stack, and what is below them is the other stack. -/
def OnTop {V : Type} : List (Option V) → (Nat → V) → (Nat → V) → Prop
  | [], stack, below => stack = below
  | a :: items, stack, below => Known a (stack 0) ∧ OnTop items (fun i => stack (i + 1)) below

end PureDataPacket
