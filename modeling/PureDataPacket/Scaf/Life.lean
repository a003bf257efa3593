/-
# `PureDataPacket.Scaf.Life` — the rule of the game of life

The rules of `carules.scaf`, and what one of them computes.  The neighbours are counted
in `mm4` to `mm7`, one bit of each register for every cell: a cell of the window is put on
the stack, added to the counter from the lowest bit up, and the carry is dropped.

| | |
| :-- | :-- |
| `Runs` | the words that go into the rule |
| `Spared` | what the macros may change |
| `spared_addCell` | the item on top comes back, and nothing else that matters is touched |
| `Pushes` | one more item is on the stack; the counter and the items below are kept |
| `Leaves` | what the rule leaves |
-/
import PureDataPacket.Scaf.Optimiser
import Mathlib.Tactic.Ring

namespace PureDataPacket

/-! The rows of a window, and the registers a rule may name. -/

local instance neZero_rows : NeZero 3 := ⟨by decide⟩

local instance neZero_registers : NeZero 4 := ⟨by decide⟩

namespace Scaf

/-! ## The rules -/

section Rules

/-- `@-+` to `@+-`. -/
def cellAt (row column : Fin 3) : Token := .kernel (.fetch row column)

def plus4 : Token := .word "+(4)".toList

def plus3 : Token := .word "+(3)".toList

/-- The definitions of `carules.scaf`. -/
def carules : List Definition :=
  [⟨"+(4)".toList, [.kernel (.add 0 3), .r]⟩,
    ⟨"+(3)".toList, [.kernel (.add 0 2), .r]⟩,
    ⟨"+(2)".toList, [.kernel (.add 0 1), .r]⟩,
    ⟨"+top".toList, [cellAt 0 0, plus4, .asm .drop, cellAt 0 1, plus4, .asm .drop, cellAt 0 2,
      plus4, .r]⟩,
    ⟨"+mid".toList, [cellAt 1 0, plus4, .asm .drop, cellAt 1 1, plus4, .asm .drop, cellAt 1 2,
      plus4, .r]⟩,
    ⟨"+bot".toList, [cellAt 2 0, plus4, .asm .drop, cellAt 2 1, plus4, .asm .drop, cellAt 2 2,
      plus4, .r]⟩,
    ⟨"+all".toList, [.word "+top".toList, .asm .drop, .word "+mid".toList, .asm .drop,
      .word "+bot".toList, .r]⟩,
    ⟨"+mid-1".toList, [cellAt 1 0, plus4, .asm .drop, cellAt 1 2, plus4, .r]⟩,
    ⟨"+all-1".toList, [.word "+top".toList, .asm .drop, .word "+mid-1".toList, .asm .drop,
      .word "+bot".toList, .r]⟩,
    ⟨"countall".toList, [.kernel (.constant false false false false), .word "+all".toList,
      .asm .drop, .r]⟩,
    ⟨"countall-1".toList, [.kernel (.constant false false false false), .word "+all-1".toList,
      .asm .drop, .r]⟩,
    ⟨"+topbot".toList, [cellAt 0 1, plus3, .asm .drop, cellAt 2 1, plus3, .r]⟩,
    ⟨"+leftright".toList, [cellAt 1 2, plus3, .asm .drop, cellAt 1 0, plus3, .r]⟩,
    ⟨"+star".toList, [.word "+topbot".toList, .asm .drop, .word "+leftright".toList, .r]⟩,
    ⟨"countstar".toList, [.kernel (.constant false false false false), .word "+star".toList,
      .asm .drop, .r]⟩,
    ⟨"=2or3?".toList, [.kernel (.lda 2), .asm .not, .kernel (.lda 1), .kernel .and, .r]⟩,
    ⟨"=3?".toList, [.word "=2or3?".toList, .kernel (.lda 0), .kernel .and, .r]⟩,
    ⟨"=2?".toList, [.word "=2or3?".toList, .kernel (.lda 0), .asm .not, .kernel .and, .r]⟩,
    ⟨"=4?".toList, [.kernel (.lda 2), .kernel (.lda 1), .asm .not, .kernel .and,
      .kernel (.lda 0), .asm .not, .kernel .and, .r]⟩,
    ⟨"rule_shiftleft".toList, [cellAt 1 2, .r]⟩,
    ⟨"rule_shifttop".toList, [cellAt 2 1, .r]⟩,
    ⟨"rule_shiftbot".toList, [cellAt 0 1, .r]⟩,
    ⟨"rule_shifttopright".toList, [cellAt 2 0, .r]⟩,
    ⟨"rule_strobe".toList, [cellAt 1 1, .asm .not, .r]⟩,
    ⟨"rule_gameoflife".toList, [.word "countall-1".toList, .word "=2?".toList, cellAt 1 1,
      .kernel .and, .word "=3?".toList, .kernel .or, .r]⟩,
    ⟨"rule_w110".toList, [cellAt 1 1, cellAt 1 2, .kernel .and, .asm .not, cellAt 1 0,
      cellAt 1 1, cellAt 1 2, .kernel .or, .kernel .or, .kernel .and, .r]⟩,
    ⟨"rule_w110mod".toList, [cellAt 0 1, cellAt 1 2, .kernel .and, .asm .not, cellAt 0 0,
      cellAt 0 1, cellAt 0 2, .kernel .or, .kernel .or, .kernel .and, .r]⟩,
    ⟨"rule_w110mod2".toList, [cellAt 0 1, cellAt 1 2, .kernel .and, .asm .not, cellAt 0 0,
      cellAt 0 1, cellAt 1 2, .kernel .or, .kernel .or, .kernel .and, .r]⟩,
    ⟨"rule_w110mod3".toList, [cellAt 0 1, cellAt 0 2, .kernel .and, .asm .not, cellAt 0 0,
      cellAt 0 1, cellAt 0 2, .kernel .or, .kernel .or, .kernel .and, cellAt 1 0, cellAt 1 1,
      cellAt 1 2, .kernel .or, .kernel .or, .kernel .and, .r]⟩,
    ⟨"rule_golmod".toList, [.word "countall-1".toList, .word "=3?".toList, cellAt 1 1,
      .kernel .and, .word "=2?".toList, .kernel .or, .r]⟩,
    ⟨"rule_golmod2".toList, [.word "countall-1".toList, .word "=2?".toList, cellAt 0 1,
      .kernel .and, .word "=3?".toList, .kernel .or, .r]⟩,
    ⟨"rule_golmod3".toList, [.word "countall-1".toList, .word "=2?".toList, cellAt 0 2,
      .kernel .and, .word "=3?".toList, .kernel .or, .r]⟩,
    ⟨"rule_golmod4".toList, [.word "countall-1".toList, .word "=2?".toList, cellAt 0 2,
      cellAt 2 0, .kernel .or, .kernel .and, .word "=3?".toList, .kernel .or, .r]⟩,
    ⟨"rule_golmod5".toList, [.word "countall-1".toList, .word "=2?".toList, cellAt 0 2,
      cellAt 2 0, .kernel .or, .kernel .and, .word "=3?".toList, cellAt 2 2, .kernel .and,
      .kernel .or, .r]⟩,
    ⟨"rule_golmod6".toList, [.word "countall-1".toList, .word "=2?".toList, cellAt 0 2,
      cellAt 2 0, .kernel .or, .kernel .and, .word "=3?".toList, cellAt 2 2, .kernel .and,
      .kernel .or, cellAt 0 1, .kernel .or, .r]⟩,
    ⟨"rule_golmod7".toList, [.word "countall-1".toList, .word "=2?".toList, cellAt 0 2,
      cellAt 2 0, .kernel .or, .kernel .and, .word "=3?".toList, cellAt 2 2, .kernel .and,
      .kernel .or, cellAt 0 1, .kernel .or, cellAt 1 1, .kernel .and, .r]⟩,
    ⟨"rule_block".toList, [.word "countstar".toList, .word "=4?".toList, .asm .not,
      .word "=2?".toList, .kernel .and, cellAt 1 1, .kernel .or, .r]⟩,
    ⟨"rule_noiseedges".toList, [.word "countstar".toList, .word "=4?".toList,
      .word "=3?".toList, .kernel .or, .asm .not, .word "=2?".toList, .kernel .and, cellAt 1 1,
      .kernel .or, cellAt 0 2, .kernel .xor, .r]⟩,
    ⟨"rule_noiseplanes".toList, [.word "countstar".toList, .word "=4?".toList,
      .word "=3?".toList, .kernel .or, .asm .not, .word "=2?".toList, .kernel .and, cellAt 1 1,
      .kernel .or, cellAt 0 2, .kernel .xor, cellAt 2 0, .kernel .xor, .r]⟩,
    ⟨"rule_fire".toList, [.word "countall-1".toList, .word "=2?".toList, cellAt 0 1,
      .kernel .and, .word "=3?".toList, .kernel .or, .r]⟩]

/-- The words that go into the rule stand for these macros. -/
def Runs (depth : Nat) (name : Symbol) (is : List Macro) : Prop :=
  ∀ n m, callWord (compile false carules) (n + depth) name m = some (m.execs is)

/-- Put a cell on the stack, add it to the counter and drop the carry. -/
def addCell (c : Fin 3 × Fin 3) : List Macro :=
  [.dup, .dropld c.1 c.2, .adb 0, .adb 1, .adb 2, .adb 3, .drop]

/-- All cells but the one in the middle. -/
def neighbours : List (Fin 3 × Fin 3) :=
  [(0, 0), (0, 1), (0, 2), (1, 0), (1, 2), (2, 0), (2, 1), (2, 2)]

theorem call_eq {name : Symbol} {body : List Token}
    (hfind : (carules.find? fun d => name == d.name).map Definition.body = some body) (n : Nat)
    (m : Mmx) : callWord (compile false carules) (n + 1) name m =
      sem (callWord (compile false carules) n) body m := by
  obtain ⟨d, hd, rfl⟩ := Option.map_eq_some_iff.mp hfind
  rw [callWord_succ, hd]
  exact sem_inlineDefs _ _ _

theorem execs_execs (m : Mmx) (is js : List Macro) : (m.execs is).execs js = m.execs (is ++ js) :=
  (List.foldl_append ..).symm

theorem execs_cons (m : Mmx) (i : Macro) (is : List Macro) :
    m.execs (i :: is) = (m.exec i).execs is := rfl

theorem sem_word {depth : Nat} {name : Symbol} {is : List Macro} (h : Runs depth name is)
    (n : Nat) (l : List Token) (m : Mmx) :
    sem (callWord (compile false carules) (n + depth)) (.word name :: l) m =
      sem (callWord (compile false carules) (n + depth)) l (m.execs is) := by
  rw [sem, h n m]
  rfl

theorem runs_plus4 : Runs 1 "+(4)".toList [.adb 0, .adb 1, .adb 2, .adb 3] := by
  intro n m
  rw [call_eq rfl n m]
  rfl

/-- A cell on the stack is added by `+(4)`; the carry stays. -/
theorem sem_addCell (row column : Fin 3) (n : Nat) (l : List Token) (m : Mmx) :
    sem (callWord (compile false carules) (n + 1)) (cellAt row column :: plus4 :: l) m =
      sem (callWord (compile false carules) (n + 1)) l
        (m.execs [.dup, .dropld row column, .adb 0, .adb 1, .adb 2, .adb 3]) :=
  sem_word runs_plus4 n l _

theorem sem_drop (call : Symbol → Mmx → Option Mmx) (l : List Token) (m : Mmx) :
    sem call (.asm .drop :: l) m = sem call l (m.execs [.drop]) := rfl

theorem sem_r (call : Symbol → Mmx → Option Mmx) (l : List Token) (m : Mmx) :
    sem call (.r :: l) m = some m := rfl

theorem runs_top : Runs 2 "+top".toList
    ((addCell (0, 0) ++ addCell (0, 1) ++ addCell (0, 2)).dropLast) := by
  intro n m
  rw [call_eq rfl (n + 1) m, sem_addCell, sem_drop, sem_addCell, sem_drop, sem_addCell, sem_r]
  simp only [execs_execs]
  rfl

theorem runs_mid : Runs 2 "+mid-1".toList ((addCell (1, 0) ++ addCell (1, 2)).dropLast) := by
  intro n m
  rw [call_eq rfl (n + 1) m, sem_addCell, sem_drop, sem_addCell, sem_r]
  simp only [execs_execs]
  rfl

theorem runs_bot : Runs 2 "+bot".toList
    ((addCell (2, 0) ++ addCell (2, 1) ++ addCell (2, 2)).dropLast) := by
  intro n m
  rw [call_eq rfl (n + 1) m, sem_addCell, sem_drop, sem_addCell, sem_drop, sem_addCell, sem_r]
  simp only [execs_execs]
  rfl

theorem runs_all : Runs 3 "+all-1".toList (neighbours.flatMap addCell).dropLast := by
  intro n m
  rw [call_eq rfl (n + 2) m, sem_word runs_top, sem_drop, sem_word runs_mid, sem_drop,
    sem_word runs_bot, sem_r]
  simp only [execs_execs]
  rfl

/-- The counter starts with zero, and the neighbours are added one after the other. -/
theorem runs_count : Runs 4 "countall-1".toList
    (.ldbin false false false false :: neighbours.flatMap addCell) := by
  intro n m
  rw [call_eq rfl (n + 3) m, sem, sem_word runs_all, sem_drop, sem_r]
  simp only [execs_execs]
  rfl

theorem runs_two_or_three : Runs 1 "=2or3?".toList
    [.dup, .droplda 2, .not, .dup, .droplda 1, .overand, .nip] := by
  intro n m
  rw [call_eq rfl n m]
  rfl

theorem runs_two : Runs 2 "=2?".toList
    ([.dup, .droplda 2, .not, .dup, .droplda 1, .overand, .nip] ++
      [.dup, .droplda 0, .not, .overand, .nip]) := by
  intro n m
  rw [call_eq rfl (n + 1) m, sem_word runs_two_or_three, ← execs_execs]
  rfl

theorem runs_three : Runs 2 "=3?".toList
    ([.dup, .droplda 2, .not, .dup, .droplda 1, .overand, .nip] ++
      [.dup, .droplda 0, .overand, .nip]) := by
  intro n m
  rw [call_eq rfl (n + 1) m, sem_word runs_two_or_three, ← execs_execs]
  rfl

/-- The count is two, or three. -/
def isTwo : List Macro :=
  [.dup, .droplda 2, .not, .dup, .droplda 1, .overand, .nip] ++
    [.dup, .droplda 0, .not, .overand, .nip]

def isThree : List Macro :=
  [.dup, .droplda 2, .not, .dup, .droplda 1, .overand, .nip] ++ [.dup, .droplda 0, .overand, .nip]

/-- What is done with the count: two and the cell itself, or three. -/
def decideCell : List Macro :=
  isTwo ++ [.dup, .dropld 1 1, .overand, .nip] ++ isThree ++ [.overor, .nip]

theorem runs_life : Runs 5 "rule_gameoflife".toList
    (.ldbin false false false false :: neighbours.flatMap addCell ++ decideCell) := by
  intro n m
  have htwo : ∀ (l : List Token) (m : Mmx),
      sem (callWord (compile false carules) (n + 4)) (.word "=2?".toList :: l) m =
        sem (callWord (compile false carules) (n + 4)) l (m.execs isTwo) :=
    sem_word runs_two (n + 2)
  have hthree : ∀ (l : List Token) (m : Mmx),
      sem (callWord (compile false carules) (n + 4)) (.word "=3?".toList :: l) m =
        sem (callWord (compile false carules) (n + 4)) l (m.execs isThree) :=
    sem_word runs_three (n + 2)
  have hcell : ∀ (l : List Token) (m : Mmx),
      sem (callWord (compile false carules) (n + 4)) (cellAt 1 1 :: .kernel .and :: l) m =
        sem (callWord (compile false carules) (n + 4)) l
          (m.execs [.dup, .dropld 1 1, .overand, .nip]) := fun _ _ => rfl
  have hor : ∀ (l : List Token) (m : Mmx),
      sem (callWord (compile false carules) (n + 4)) (.kernel .or :: l) m =
        sem (callWord (compile false carules) (n + 4)) l (m.execs [.overor, .nip]) :=
    fun _ _ => rfl
  rw [call_eq rfl (n + 4) m, sem_word runs_count, htwo, hcell, hthree, hor, sem_r]
  simp only [execs_execs, decideCell, List.append_assoc, List.cons_append]

end Rules

end Scaf

/-! ## The counter -/

namespace Mmx

open Scaf

/-- Only the counter, the scratch registers and what is below the top of the stack may
differ. -/
structure Spared (m m' : Mmx) : Prop where
  top : m'.mm 0 = m.mm 0
  ones : m'.mm 3 = m.mm 3
  si : m'.si = m.si
  stack : ∀ k : Nat, m'.stack (m.si + 8 * k) = m.stack (m.si + 8 * k)
  env : m'.env = m.env

/-- What the counter says in a lane. -/
def count (m : Mmx) (k : Nat) : Nat :=
  ((m.mm 4).getLsbD k).toNat + 2 * ((m.mm 5).getLsbD k).toNat +
    4 * ((m.mm 6).getLsbD k).toNat + 8 * ((m.mm 7).getLsbD k).toNat

theorem Spared.refl (m : Mmx) : Spared m m := ⟨rfl, rfl, rfl, fun _ => rfl, rfl⟩

theorem Spared.trans {m m' m'' : Mmx} (h : Spared m m') (h' : Spared m' m'') : Spared m m'' where
  top := h'.top.trans h.top
  ones := h'.ones.trans h.ones
  si := h'.si.trans h.si
  stack k := by
    have hk := h'.stack k
    rw [h.si] at hk
    exact hk.trans (h.stack k)
  env := h'.env.trans h.env

theorem adb_mm (m : Mmx) (i : Fin 4) (j : Nat) : (m.adb i).mm j =
    if j = 0 then m.mm 0 &&& m.mm (4 + i) else if j = 4 + i then m.mm (4 + i) ^^^ m.mm 0
    else if j = 2 then m.mm (4 + i) else m.mm j := by
  have h2 : (4 + i : Nat) ≠ 2 := by omega
  have h0 : (4 + i : Nat) ≠ 0 := by omega
  unfold adb counter
  simp only [setReg_mm, h2, h2.symm, h0.symm, if_true, if_false]
  simp

theorem dropld_mm_of_ne (m : Mmx) (row column : Nat) {j : Nat} (h0 : j ≠ 0) (h1 : j ≠ 1) :
    (m.dropld row column).mm j = m.mm j :=
  (Function.update_of_ne h0 _ _).trans (Function.update_of_ne h1 _ _)

theorem addCell_mm (m : Mmx) (c : Fin 3 × Fin 3) :
    let v := m.word c.1 c.2
    (m.execs (addCell c)).mm 4 = m.mm 4 ^^^ v ∧
      (m.execs (addCell c)).mm 5 = m.mm 5 ^^^ (v &&& m.mm 4) ∧
      (m.execs (addCell c)).mm 6 = m.mm 6 ^^^ (v &&& m.mm 4 &&& m.mm 5) ∧
      (m.execs (addCell c)).mm 7 = m.mm 7 ^^^ (v &&& m.mm 4 &&& m.mm 5 &&& m.mm 6) ∧
      (m.execs (addCell c)).mm 3 = m.mm 3 := by
  obtain ⟨d, hd⟩ : ∃ d, d = m.dup.dropld c.1 c.2 := ⟨_, rfl⟩
  have hword : d.mm 0 = m.word c.1 c.2 := by
    rw [hd]
    exact word_congr rfl c.1 c.2
  have hkept : ∀ j, j ≠ 0 → j ≠ 1 → d.mm j = m.mm j := by
    intro j h0 h1
    rw [hd]
    exact dropld_mm_of_ne _ _ _ h0 h1
  have hexecs : m.execs (addCell c) = ((((d.adb 0).adb 1).adb 2).adb 3).drop := by
    rw [hd]
    rfl
  have hdrop : ∀ (m : Mmx) (j : Nat), j ≠ 0 → m.drop.mm j = m.mm j :=
    fun m j h0 => Function.update_of_ne h0 _ _
  have h3 : ((3 : Fin 4) : Nat) = 3 := rfl
  rw [hexecs, hdrop _ 4 (by decide), hdrop _ 5 (by decide), hdrop _ 6 (by decide),
    hdrop _ 7 (by decide), hdrop _ 3 (by decide)]
  simp [adb_mm, hword, hkept, h3]

theorem spared_addCell (m : Mmx) (c : Fin 3 × Fin 3) : Spared m (m.execs (addCell c)) where
  top := by
    have htop : (m.execs (addCell c)).mm 0 =
        Function.update m.stack (m.si - 8) (m.mm 0) (m.si - 8) := rfl
    rw [htop, Function.update_self]
  ones := (addCell_mm m c).2.2.2.2
  si := by
    show m.si - 8 + 8 = m.si
    omega
  stack k := by
    show Function.update m.stack (m.si - 8) (m.mm 0) (m.si + 8 * k) = m.stack (m.si + 8 * k)
    exact Function.update_of_ne (by omega) _ _
  env := rfl

theorem count_addCell (m : Mmx) (c : Fin 3 × Fin 3) (k : Nat) :
    (m.execs (addCell c)).count k = (m.count k + ((m.word c.1 c.2).getLsbD k).toNat) % 16 := by
  obtain ⟨h4, h5, h6, h7, -⟩ := addCell_mm m c
  unfold count
  simp only [h4, h5, h6, h7, BitVec.getLsbD_xor, BitVec.getLsbD_and]
  generalize (m.word c.1 c.2).getLsbD k = v
  generalize (m.mm 4).getLsbD k = b0
  generalize (m.mm 5).getLsbD k = b1
  generalize (m.mm 6).getLsbD k = b2
  generalize (m.mm 7).getLsbD k = b3
  revert v b0 b1 b2 b3
  decide

theorem count_lt (m : Mmx) (k : Nat) : m.count k < 16 := by
  unfold count
  have h0 := Bool.toNat_le ((m.mm 4).getLsbD k)
  have h1 := Bool.toNat_le ((m.mm 5).getLsbD k)
  have h2 := Bool.toNat_le ((m.mm 6).getLsbD k)
  have h3 := Bool.toNat_le ((m.mm 7).getLsbD k)
  omega

theorem count_addCells (cells : List (Fin 3 × Fin 3)) (m : Mmx) :
    Spared m (m.execs (cells.flatMap addCell)) ∧ ∀ k,
      (m.execs (cells.flatMap addCell)).count k =
        (m.count k + (cells.map fun c => ((m.word c.1 c.2).getLsbD k).toNat).sum) % 16 := by
  induction cells generalizing m with
  | nil => exact ⟨.refl m, fun k => (Nat.mod_eq_of_lt (m.count_lt k)).symm⟩
  | cons c cells ih =>
      have hexecs : m.execs ((c :: cells).flatMap addCell) =
          (m.execs (addCell c)).execs (cells.flatMap addCell) := by
        rw [execs_execs, List.flatMap_cons]
      obtain ⟨hspared, hcount⟩ := ih (m.execs (addCell c))
      have hfirst := spared_addCell m c
      have hwords : ∀ r s, (m.execs (addCell c)).word r s = m.word r s :=
        word_congr hfirst.env
      rw [hexecs]
      refine ⟨hfirst.trans hspared, fun k => ?_⟩
      simp only [hcount k, count_addCell, hwords, List.map_cons, List.sum_cons, Nat.mod_add_mod,
        Nat.add_assoc]

/-- `a-0`. -/
theorem count_zero (m : Mmx) (k : Nat) :
    Spared m (m.exec (.ldbin false false false false)) ∧
      (m.exec (.ldbin false false false false)).count k = 0 := by
  have hmm : ∀ j, (m.exec (.ldbin false false false false)).mm j =
      if 4 ≤ j ∧ j ≤ 7 ∨ j = 1 then 0#64 else m.mm j := by
    intro j
    have hbits : ∀ i : Fin 4, [false, false, false, false].get i = false := by decide
    have h3 : ((3 : Fin 4) : Nat) = 3 := rfl
    simp only [exec, ldbin, counter, List.finRange_succ, List.finRange_zero, List.map_cons,
      List.map_nil, List.foldl_cons, List.foldl_nil, setReg_mm, hbits]
    simp
    grind
  refine ⟨⟨?_, ?_, rfl, fun _ => rfl, rfl⟩, ?_⟩
  · simpa using hmm 0
  · simpa using hmm 3
  · unfold count
    simp [hmm]

/-! ## The tests -/

/-- One more item is on the stack; the counter and the items below are kept. -/
structure Pushes (m m' : Mmx) (v : BitVec 64) : Prop where
  top : m'.mm 0 = v
  regs : ∀ j, 3 ≤ j → m'.mm j = m.mm j
  si : m'.si = m.si - 8
  second : m'.stack (m.si - 8) = m.mm 0
  stack : ∀ k : Nat, m'.stack (m.si + 8 * k) = m.stack (m.si + 8 * k)
  env : m'.env = m.env

theorem pushes_dup (m : Mmx) (v : BitVec 64) : Pushes m (m.dup.setReg 0 v) v where
  top := rfl
  regs j hj := Function.update_of_ne (by omega) ..
  si := rfl
  second := Function.update_self ..
  stack k := Function.update_of_ne (by omega) ..
  env := rfl

theorem pushes_lda (m : Mmx) (i : Fin 4) : Pushes m (m.execs [.dup, .droplda i]) (m.mm (4 + i)) :=
  pushes_dup m _

theorem pushes_fetch (m : Mmx) (row column : Fin 3) :
    Pushes m (m.execs [.dup, .dropld row column]) (m.word row column) where
  top := word_congr (m := m.dup) rfl row column
  regs j hj := dropld_mm_of_ne _ _ _ (by omega) (by omega)
  si := rfl
  second := Function.update_self ..
  stack k := Function.update_of_ne (by omega) ..
  env := rfl

section Tests

variable {m m' m'' : Mmx} {v w : BitVec 64}

theorem Pushes.not (h : Pushes m m' v) (hones : m.mm 3 = BitVec.allOnes 64) :
    Pushes m (m'.execs [.not]) (v ^^^ BitVec.allOnes 64) where
  top := by
    have hreg : (m'.execs [.not]).mm 0 = m'.mm 0 ^^^ m'.mm 3 := rfl
    rw [hreg, h.top, h.regs 3 (by decide), hones]
  regs j hj := (Function.update_of_ne (by omega) ..).trans (h.regs j hj)
  si := h.si
  second := h.second
  stack := h.stack
  env := h.env

theorem Pushes.both (h : Pushes m m' v) (h' : Pushes m' m'' w) (u : BitVec 64) :
    Pushes m (m''.setReg 0 u).nip u where
  top := rfl
  regs j hj := (Function.update_of_ne (by omega) ..).trans ((h'.regs j hj).trans (h.regs j hj))
  si := by
    show m''.si + 8 = m.si - 8
    rw [h'.si, h.si]
    omega
  second := by
    have hk := h'.stack 0
    rw [h.si] at hk
    have haddr : m.si - 8 + 8 * ((0 : Nat) : Int) = m.si - 8 := by omega
    rw [haddr] at hk
    exact hk.trans h.second
  stack k := by
    have hk := h'.stack (k + 1)
    rw [h.si] at hk
    have haddr : m.si - 8 + 8 * ((k + 1 : Nat) : Int) = m.si + 8 * k := by omega
    rw [haddr] at hk
    exact hk.trans (h.stack k)
  env := h'.env.trans h.env

theorem Pushes.below (h : Pushes m m' v) (h' : Pushes m' m'' w) : m''.stack m''.si = v := by
  rw [h'.si, h'.second, h.top]

theorem Pushes.and (h : Pushes m m' v) (h' : Pushes m' m'' w) :
    Pushes m (m''.execs [.overand, .nip]) (w &&& v) := by
  have hreg : m''.execs [.overand, .nip] = (m''.setReg 0 (w &&& v)).nip := by
    rw [← h'.top, ← h.below h']
    rfl
  rw [hreg]
  exact h.both h' _

theorem Pushes.or (h : Pushes m m' v) (h' : Pushes m' m'' w) :
    Pushes m (m''.execs [.overor, .nip]) (w ||| v) := by
  have hreg : m''.execs [.overor, .nip] = (m''.setReg 0 (w ||| v)).nip := by
    rw [← h'.top, ← h.below h']
    rfl
  rw [hreg]
  exact h.both h' _

/-- Two or three: the bit for four is not set, the one for two is. -/
theorem pushes_two_or_three (m : Mmx) (hones : m.mm 3 = BitVec.allOnes 64) :
    Pushes m (m.execs [.dup, .droplda 2, .not, .dup, .droplda 1, .overand, .nip])
      (m.mm 5 &&& (m.mm 6 ^^^ BitVec.allOnes 64)) := by
  have hfour := (pushes_lda m 2).not hones
  have hand := hfour.and (pushes_lda _ 1)
  rw [hfour.regs _ (by decide)] at hand
  exact hand

theorem pushes_three (m : Mmx) (hones : m.mm 3 = BitVec.allOnes 64) :
    Pushes m (m.execs isThree) (m.mm 4 &&& (m.mm 5 &&& (m.mm 6 ^^^ BitVec.allOnes 64))) := by
  have htwo := pushes_two_or_three m hones
  have hand := htwo.and (pushes_lda _ 0)
  rw [htwo.regs _ (by decide)] at hand
  exact hand

theorem pushes_two (m : Mmx) (hones : m.mm 3 = BitVec.allOnes 64) :
    Pushes m (m.execs isTwo) ((m.mm 4 ^^^ BitVec.allOnes 64) &&&
      (m.mm 5 &&& (m.mm 6 ^^^ BitVec.allOnes 64))) := by
  have htwo := pushes_two_or_three m hones
  have hand := htwo.and ((pushes_lda _ 0).not (by rw [htwo.regs 3 (by decide), hones]))
  rw [htwo.regs _ (by decide)] at hand
  exact hand

theorem pushes_decideCell (m : Mmx) (hones : m.mm 3 = BitVec.allOnes 64) :
    Pushes m (m.execs decideCell)
      (m.mm 4 &&& (m.mm 5 &&& (m.mm 6 ^^^ BitVec.allOnes 64)) |||
        m.word 1 1 &&& ((m.mm 4 ^^^ BitVec.allOnes 64) &&&
          (m.mm 5 &&& (m.mm 6 ^^^ BitVec.allOnes 64)))) := by
  have htwo := pushes_two m hones
  have hcell := htwo.and (pushes_fetch _ 1 1)
  rw [word_congr htwo.env] at hcell
  have hor := hcell.or (pushes_three _ (by rw [hcell.regs 3 (by decide), hones]))
  rw [hcell.regs 4 (by decide), hcell.regs 5 (by decide), hcell.regs 6 (by decide)] at hor
  exact hor

end Tests

/-! ## The game -/

/-- A cell of the window, which has four rows of 64. -/
def window (m : Mmx) (row column : Nat) : Bool := (m.load (8 * row)).getLsbD column

end Mmx

namespace Scaf

/-- How many of the eight cells around the middle one are alive. -/
def alive (cells : Fin 3 → Fin 3 → Bool) : Nat :=
  (neighbours.map fun c => (cells c.1 c.2).toNat).sum

def conway (cells : Fin 3 → Fin 3 → Bool) : Bool :=
  alive cells = 3 || (alive cells = 2 && cells 1 1)

theorem alive_le (cells : Fin 3 → Fin 3 → Bool) : alive cells ≤ 8 := by
  have h := fun r c => Bool.toNat_le (cells r c)
  have h00 := h 0 0
  have h01 := h 0 1
  have h02 := h 0 2
  have h10 := h 1 0
  have h12 := h 1 2
  have h20 := h 2 0
  have h21 := h 2 1
  have h22 := h 2 2
  simp only [alive, neighbours, List.map_cons, List.map_nil, List.sum_cons, List.sum_nil]
  omega

theorem conway_eq (cells : Fin 3 → Fin 3 → Bool) {b0 b1 b2 b3 : Bool}
    (hcount : b0.toNat + 2 * b1.toNat + 4 * b2.toNat + 8 * b3.toNat = alive cells) :
    (b0 && (b1 && !b2) || cells 1 1 && (!b0 && (b1 && !b2))) = conway cells := by
  have hle := alive_le cells
  unfold conway
  rw [← hcount] at hle ⊢
  -- ten and eleven, which have the same lower bits, are too many
  generalize cells 1 1 = center
  clear hcount
  revert hle b0 b1 b2 b3 center
  decide

/-- What the rule leaves: one more item, and the cells below as they were. -/
structure Leaves (m m' : Mmx) (f : (Fin 3 → Fin 3 → Bool) → Bool) : Prop where
  si : m'.si = m.si - 8
  second : m'.stack (m.si - 8) = m.mm 0
  stack : ∀ k : Nat, m'.stack (m.si + 8 * k) = m.stack (m.si + 8 * k)
  lanes : ∀ k < 64, (m'.mm 0).getLsbD k = f fun row column => (m.word row column).getLsbD k

theorem leaves_macros (m : Mmx) (hones : m.mm 3 = BitVec.allOnes 64) : Leaves m
    (m.execs (.ldbin false false false false :: neighbours.flatMap addCell ++ decideCell))
    conway := by
  obtain ⟨m₁, hm₁⟩ : ∃ m₁, m₁ = (m.exec (.ldbin false false false false)).execs
      (neighbours.flatMap addCell) := ⟨_, rfl⟩
  have hexecs : m.execs (.ldbin false false false false :: neighbours.flatMap addCell ++
      decideCell) = m₁.execs decideCell := by
    rw [List.cons_append, execs_cons, ← execs_execs, ← hm₁]
  obtain ⟨hspared, hcount⟩ :=
    Mmx.count_addCells neighbours (m.exec (.ldbin false false false false))
  have hkept := (Mmx.count_zero m 0).1.trans hspared
  rw [← hm₁] at hkept hcount
  have hpush := Mmx.pushes_decideCell m₁ (hkept.ones.trans hones)
  have hwords : ∀ row column, (m.exec (.ldbin false false false false)).word row column =
      m.word row column := Mmx.word_congr (Mmx.count_zero m 0).1.env
  rw [hexecs]
  refine ⟨?_, ?_, fun k => ?_, fun k hk => ?_⟩
  · rw [hpush.si, hkept.si]
  · rw [← hkept.si, hpush.second, hkept.top]
  · have hk := hpush.stack k
    rw [hkept.si] at hk
    exact hk.trans (hkept.stack k)
  · obtain ⟨cells, hcells⟩ : ∃ cells : Fin 3 → Fin 3 → Bool,
        cells = fun row column : Fin 3 => (m.word row column).getLsbD k := ⟨_, rfl⟩
    have hsum : m₁.count k = alive cells := by
      have halive : alive cells =
          (neighbours.map fun c => ((m.word c.1 c.2).getLsbD k).toNat).sum := by
        rw [hcells]
        rfl
      have hle := alive_le cells
      simp only [hcount k, (Mmx.count_zero m k).2, Nat.zero_add, hwords, ← halive]
      omega
    have hcenter : (m₁.word 1 1).getLsbD k = cells 1 1 := by
      rw [Mmx.word_congr hkept.env, hcells]
      rfl
    have hflip : ∀ x : BitVec 64, (x ^^^ BitVec.allOnes 64).getLsbD k = !x.getLsbD k := by
      intro x
      rw [BitVec.getLsbD_xor, BitVec.getLsbD_allOnes, decide_eq_true hk, Bool.xor_true]
    rw [hpush.top, ← hcells, ← conway_eq cells hsum]
    simp only [BitVec.getLsbD_or, BitVec.getLsbD_and, hflip, hcenter]

/-- The compiled rule, optimised or not, in a state in which `mm3` is all ones: from one row of
the window to the next and from one column to the next, the rule of the game of life. -/
theorem gameoflife_leaves (optimize : Bool) (n : Nat) (m : Mmx)
    (hones : m.mm 3 = BitVec.allOnes 64) :
    ∃ m', callWord (compile optimize carules) (n + 5) "rule_gameoflife".toList m = some m' ∧
      m'.si = m.si - 8 ∧ m'.stack (m.si - 8) = m.mm 0 ∧
      (∀ k : Nat, m'.stack (m.si + 8 * k) = m.stack (m.si + 8 * k)) ∧
      ∀ k < 64, (m'.mm 0).getLsbD k =
        conway fun row column => m.window (k / 32 + row) (15 + k % 32 + column) := by
  have hplain := runs_life n m
  have hleaves := leaves_macros m hones
  generalize m.execs _ = m₀ at hplain hleaves
  obtain ⟨m', hm', hsimilar⟩ : ∃ m',
      callWord (compile optimize carules) (n + 5) "rule_gameoflife".toList m = some m' ∧
        Mmx.Similar m' m₀ := by
    cases optimize with
    | false => exact ⟨m₀, hplain, .refl m₀⟩
    | true =>
        have hclean : ∀ d ∈ carules, NoOverAdd d.body := by
          unfold NoOverAdd
          decide
        have hresults := preserved_of_noOverAdd hclean (n + 5) "rule_gameoflife".toList m m
          (.refl m)
        rw [hplain] at hresults
        generalize callWord (compile true carules) (n + 5) _ m = result at hresults
        cases hresults with
        | some h => exact ⟨_, rfl, h⟩
  refine ⟨m', hm', hsimilar.si.trans hleaves.si, ?_, fun k => ?_, fun k hk => ?_⟩
  · have hk := hsimilar.stack 0
    rw [hsimilar.si, hleaves.si] at hk
    have haddr : m.si - 8 + 8 * ((0 : Nat) : Int) = m.si - 8 := by omega
    rw [haddr] at hk
    exact hk.trans hleaves.second
  · have hk := hsimilar.stack (k + 1)
    rw [hsimilar.si, hleaves.si] at hk
    have haddr : m.si - 8 + 8 * ((k + 1 : Nat) : Int) = m.si + 8 * k := by omega
    rw [haddr] at hk
    exact hk.trans (hleaves.stack k)
  · rw [hsimilar.top, hleaves.lanes k hk]
    refine congrArg conway (funext fun row => funext fun column => ?_)
    rw [Mmx.getLsbD_word m row column.isLt hk]
    unfold Mmx.window
    split
    · next hlow =>
        have hrow : k / 32 + (row : Nat) = row := by omega
        have hcolumn : 15 + (column : Nat) + k = 15 + k % 32 + column := by omega
        rw [hrow, hcolumn]
    · next hhigh =>
        have hrow : k / 32 + (row : Nat) = row + 1 := by omega
        have hcolumn : 15 + (column : Nat) + (k - 32) = 15 + k % 32 + column := by omega
        rw [hrow, hcolumn]

/-- A window with three living cells in a row, under something on the stack. -/
def blinker : Mmx where
  mm _ := BitVec.allOnes 64
  si := 0
  stack _ := 7
  env i := if i = 2 then 0x38000 else 0

/-- The middle cell of the three stays, the right one dies, and the one below the middle is born. -/
theorem gameoflife_leaves_blinker :
    ∃ m', callWord (compile true carules) 5 "rule_gameoflife".toList blinker = some m' ∧
      m'.si = -8 ∧ m'.stack (-8) = BitVec.allOnes 64 ∧ m'.stack 0 = 7 ∧
      (m'.mm 0).getLsbD 0 = true ∧ (m'.mm 0).getLsbD 1 = false ∧
      (m'.mm 0).getLsbD 32 = true := by
  obtain ⟨m', hm', hsi, hsecond, hstack, hlanes⟩ := gameoflife_leaves true 0 blinker rfl
  exact ⟨m', hm', hsi, hsecond, hstack 0, (hlanes 0 (by decide)).trans (by decide),
    (hlanes 1 (by decide)).trans (by decide), (hlanes 32 (by decide)).trans (by decide)⟩

end Scaf

end PureDataPacket
