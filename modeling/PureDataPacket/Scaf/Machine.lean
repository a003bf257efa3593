/-
# `PureDataPacket.Scaf.Machine` — the machine that rules run on

A rule routine is straight-line code for the MMX registers.  `mm0` is the top of its
stack, `SI` points to the rest of it, and `DI` to eight words of cells: four rows of
64, of which it computes a block of two rows of 32.

Only the macros that read cells or move the stack are modelled: what else a rule does is
its own business, as long as it leaves one item.

| | |
| :-- | :-- |
| `ComputesRule` | the routine leaves one item that is a function of the nine words |
| `getLsbD_shift` | what `shift` puts in each lane |
| `scafFeeder_spec` | the feeder returns what the rule leaves, and the stack is where it was |
-/
import Mathlib.Logic.Function.Basic

namespace PureDataPacket

/-- The registers, the stack, and the words at `DI`. -/
structure Mmx where
  mm : Nat → BitVec 64
  si : Int
  stack : Int → BitVec 64
  env : Nat → BitVec 32

namespace Mmx

/-- `movq n(DI)`, for an `n` that is a multiple of 8. -/
def load (m : Mmx) (n : Nat) : BitVec 64 := m.env (n / 4 + 1) ++ m.env (n / 4)

/-- `shift reg1 reg2 count`: the rectangle from column `16 + count` on. -/
def shift (reg1 reg2 : BitVec 64) (count : Int) : BitVec 64 :=
  ((reg1 <<< (16 - count).toNat) >>> 32) ||| ((reg2 >>> (16 + count).toNat) <<< 32)

/-- `ldtop`, `ldcenter` and `ldbottom` are this for 0, 1 and 2. -/
def ldrow (m : Mmx) (row : Nat) : BitVec 64 × BitVec 64 :=
  (m.load (8 * row), m.load (8 * (row + 1)))

/-- The nine macros `dropldTL` to `dropldBR`: row 0 is the top one, column 0 the left one. -/
def dropld (row column : Nat) (m : Mmx) : Mmx :=
  let regs := m.ldrow row
  let count : Int := column - 1
  let mm₁ := Function.update m.mm 1 ((regs.2 >>> (16 + count).toNat) <<< 32)
  { m with mm := Function.update mm₁ 0 (shift regs.1 regs.2 count) }

/-- `dup`. -/
def dup (m : Mmx) : Mmx :=
  { m with si := m.si - 8, stack := Function.update m.stack (m.si - 8) (m.mm 0) }

/-- `nip`. -/
def nip (m : Mmx) : Mmx := { m with si := m.si + 8 }

/-- `overxor`. -/
def overxor (m : Mmx) : Mmx := { m with mm := Function.update m.mm 0 (m.mm 0 ^^^ m.stack m.si) }

/-- One of the nine words of the neighbourhood. -/
def word (m : Mmx) (row column : Nat) : BitVec 64 := (m.dropld row column).mm 0

/-- `scaf_feeder`: the result, and the stack pointer that it saves. -/
def scafFeeder (rule : Mmx → Mmx) (tos : Int) (m : Mmx) : BitVec 64 × Int × Mmx :=
  let m₁ := (rule { m with si := tos, mm := Function.update m.mm 3 (BitVec.allOnes 64) }).dup
  (m₁.stack m₁.si, m₁.si + 16, { m₁ with si := m₁.si + 16 })

end Mmx

/-- The routine leaves one item, which is a function of the nine words, lane by lane. -/
structure ComputesRule (rule : Mmx → Mmx) (f : (Fin 3 → Fin 3 → Bool) → Bool) : Prop where
  one_item : ∀ m, (rule m).si = m.si - 8
  lanes : ∀ m, m.mm 3 = BitVec.allOnes 64 → ∀ k < 64,
    ((rule m).mm 0).getLsbD k = f fun row column => (m.word row column).getLsbD k

/-! ## Lanes -/

namespace Mmx

/-- A load has two words, the first one in the low lanes. -/
theorem getLsbD_load (m : Mmx) (row k : Nat) :
    (m.load (8 * row)).getLsbD k =
      if k < 32 then (m.env (2 * row)).getLsbD k else (m.env (2 * row + 1)).getLsbD (k - 32) := by
  have hindex : 8 * row / 4 = 2 * row := by omega
  unfold load
  rw [hindex, BitVec.getLsbD_append]

theorem getLsbD_shift (reg1 reg2 : BitVec 64) {column : Nat} (hcolumn : column < 3) {k : Nat}
    (hk : k < 64) : (shift reg1 reg2 (column - 1 : Int)).getLsbD k =
      if k < 32 then reg1.getLsbD (15 + column + k) else reg2.getLsbD (15 + column + (k - 32)) := by
  have hleft : (16 - ((column : Int) - 1)).toNat = 17 - column := by omega
  have hright : (16 + ((column : Int) - 1)).toNat = 15 + column := by omega
  unfold shift
  rw [hleft, hright, BitVec.getLsbD_or, BitVec.getLsbD_ushiftRight, BitVec.getLsbD_shiftLeft,
    BitVec.getLsbD_shiftLeft, BitVec.getLsbD_ushiftRight]
  split
  · next hlow =>
      have h1 : decide (32 + k < 64) = true := by simpa using by omega
      have h2 : decide (32 + k < 17 - column) = false := by simpa using by omega
      have h3 : decide (k < 32) = true := by simpa using hlow
      have h4 : 32 + k - (17 - column) = 15 + column + k := by omega
      simp [h1, h2, h3, h4]
  · next hhigh =>
      have h1 : decide (32 + k < 64) = false := by simpa using by omega
      have h2 : decide (k < 32) = false := by simpa using hhigh
      have h3 : decide (k < 64) = true := by simpa using hk
      simp [h1, h2, h3]

/-- Loading a word only looks at the words at `DI`. -/
theorem word_eq (m : Mmx) (row column : Nat) : m.word row column =
    shift (m.load (8 * row)) (m.load (8 * (row + 1))) (column - 1 : Int) := by
  simp [word, dropld, ldrow]

theorem word_congr {m m' : Mmx} (henv : m.env = m'.env) (row column : Nat) :
    m.word row column = m'.word row column := by
  rw [word_eq, word_eq]
  unfold load
  rw [henv]

/-- A lane of a word: which cell of the window it is. -/
theorem getLsbD_word (m : Mmx) (row : Nat) {column : Nat} (hcolumn : column < 3) {k : Nat}
    (hk : k < 64) : (m.word row column).getLsbD k =
      if k < 32 then (m.load (8 * row)).getLsbD (15 + column + k)
      else (m.load (8 * (row + 1))).getLsbD (15 + column + (k - 32)) := by
  rw [word_eq]
  exact getLsbD_shift _ _ hcolumn hk

theorem scafFeeder_spec {rule : Mmx → Mmx} {f : (Fin 3 → Fin 3 → Bool) → Bool}
    (h : ComputesRule rule f) (tos : Int) (m : Mmx) :
    (scafFeeder rule tos m).2.1 = tos ∧ ∀ k < 64, (scafFeeder rule tos m).1.getLsbD k =
      f fun row column => (m.word row column).getLsbD k := by
  obtain ⟨m₁, hm₁⟩ : ∃ m₁ : Mmx,
      m₁ = { m with si := tos, mm := Function.update m.mm 3 (BitVec.allOnes 64) } := ⟨_, rfl⟩
  have hsi : (rule m₁).si = tos - 8 := by
    rw [h.one_item, hm₁]
  have hword : ∀ row column, m₁.word row column = m.word row column :=
    word_congr (by rw [hm₁])
  have hone : m₁.mm 3 = BitVec.allOnes 64 := by
    simp [hm₁]
  constructor
  · unfold scafFeeder
    rw [← hm₁]
    show (rule m₁).si - 8 + 16 = tos
    omega
  · intro k hk
    have hlanes := h.lanes m₁ hone k hk
    simp only [hword] at hlanes
    rw [← hlanes]
    unfold scafFeeder
    rw [← hm₁]
    show (Function.update (rule m₁).stack ((rule m₁).si - 8) ((rule m₁).mm 0)
      ((rule m₁).si - 8)).getLsbD k = _
    rw [Function.update_self]

/-! ## A rule -/

/-- `@+0 @-0 overxor nip`: left and right neighbour differ. -/
def leftRightRule (m : Mmx) : Mmx := nip (overxor (dropld 1 0 (dup (dropld 1 2 (dup m)))))

theorem leftRightRule_computes :
    ComputesRule leftRightRule fun cells => xor (cells 1 0) (cells 1 2) where
  one_item := by
    intro m
    show m.si - 8 - 8 + 8 = m.si - 8
    omega
  lanes := by
    intro m _ k _
    have hleft : (dup (dropld 1 2 (dup m))).word 1 0 = m.word 1 0 := word_congr rfl 1 0
    have hright : (dup m).word 1 2 = m.word 1 2 := word_congr rfl 1 2
    have htop : (leftRightRule m).mm 0 = m.word 1 0 ^^^ m.word 1 2 := by
      rw [← hleft, ← hright]
      simp [leftRightRule, nip, overxor, dup, word, dropld]
    rw [htop, BitVec.getLsbD_xor]
    simp

end Mmx

end PureDataPacket
