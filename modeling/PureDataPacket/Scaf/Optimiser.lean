/-
# `PureDataPacket.Scaf.Optimiser` — the optimiser does not change what rules compute

Two states are similar if a rule cannot tell them apart: the scratch registers
and the stack memory below the top may differ.  Every macro keeps states
similar, so a pair of words may be replaced wherever it stands by one that does
a similar thing.

The rows for `over add` and `over addc` are the exception: there is no macro
for them, and the name on the right is as unknown to the assembler as the one
on the left is to the compiler, unless the source defines it.

| | |
| :-- | :-- |
| `Similar` | the same but for scratch registers |
| `Rule.Sound` | a row whose right side does what its left side does |
| `replacePair_sound` | a row may be applied everywhere |
| `NoOverAdd` | `over` is not followed by `add` or `addc` |
| `substOptim_sound` | `subst_optim` does not change the meaning |
| `prepared_sound` | optimised or not, the words mean the same |
| `SameMeaning` | what is owed |
-/
import PureDataPacket.Scaf.Compiler
import Mathlib.Data.List.Chain
import Mathlib.Order.Basic

namespace PureDataPacket

namespace Mmx

/-- The same but for scratch registers and what is below the top of the stack. -/
structure Similar (m m' : Mmx) : Prop where
  mm : ∀ i, i ≠ 1 → i ≠ 2 → m.mm i = m'.mm i
  si : m.si = m'.si
  stack : ∀ k : Nat, m.stack (m.si + 8 * k) = m'.stack (m.si + 8 * k)
  env : m.env = m'.env

namespace Similar

variable {m m' m'' : Mmx}

theorem refl (m : Mmx) : Similar m m := ⟨fun _ _ _ => rfl, rfl, fun _ => rfl, rfl⟩

theorem symm (h : Similar m m') : Similar m' m :=
  ⟨fun i h1 h2 => (h.mm i h1 h2).symm, h.si.symm, fun k => h.si ▸ (h.stack k).symm, h.env.symm⟩

theorem trans (h : Similar m m') (h' : Similar m' m'') : Similar m m'' := by
  refine ⟨fun i h1 h2 => (h.mm i h1 h2).trans (h'.mm i h1 h2), h.si.trans h'.si, fun k => ?_,
    h.env.trans h'.env⟩
  rw [h.stack k, h.si]
  exact h'.stack k

theorem top (h : Similar m m') : m.mm 0 = m'.mm 0 := h.mm 0 (by decide) (by decide)

theorem ones (h : Similar m m') : m.mm 3 = m'.mm 3 := h.mm 3 (by decide) (by decide)

theorem counter (h : Similar m m') (i : Fin 4) : m.mm (Mmx.counter i) = m'.mm (Mmx.counter i) := by
  apply h.mm <;> unfold Mmx.counter <;> omega

theorem second (h : Similar m m') : m.stack m.si = m'.stack m'.si := by
  have hk := h.stack 0
  rw [← h.si]
  simpa using hk

theorem third (h : Similar m m') : m.stack (m.si + 8) = m'.stack (m'.si + 8) := by
  have hk := h.stack 1
  rw [← h.si]
  simpa using hk

theorem setReg (h : Similar m m') (i : Nat) {v v' : BitVec 64} (hv : v = v') :
    Similar (m.setReg i v) (m'.setReg i v') := by
  subst hv
  refine ⟨fun j h1 h2 => ?_, h.si, h.stack, h.env⟩
  show Function.update m.mm i v j = Function.update m'.mm i v j
  rw [Function.update_apply, Function.update_apply, h.mm j h1 h2]

theorem setScratch (h : Similar m m') {i : Nat} (hi : i = 1 ∨ i = 2) (v v' : BitVec 64) :
    Similar (m.setReg i v) (m'.setReg i v') := by
  refine ⟨fun j h1 h2 => ?_, h.si, h.stack, h.env⟩
  have hj : j ≠ i := by omega
  show Function.update m.mm i v j = Function.update m'.mm i v' j
  rw [Function.update_of_ne hj, Function.update_of_ne hj, h.mm j h1 h2]

theorem nip (h : Similar m m') : Similar m.nip m'.nip := by
  refine ⟨h.mm, ?_, fun k => ?_, h.env⟩
  · show m.si + 8 = m'.si + 8
    rw [h.si]
  · have hk := h.stack (k + 1)
    have haddr : m.si + 8 * ((k + 1 : Nat) : Int) = m.si + 8 + 8 * k := by omega
    rw [haddr] at hk
    exact hk

theorem nipdup (h : Similar m m') : Similar m.nipdup m'.nipdup := by
  refine ⟨h.mm, h.si, fun k => ?_, h.env⟩
  show Function.update m.stack m.si (m.mm 0) (m.si + 8 * k) =
    Function.update m'.stack m'.si (m'.mm 0) (m.si + 8 * k)
  rw [Function.update_apply, Function.update_apply, ← h.si, h.top, h.stack k]

theorem dup (h : Similar m m') : Similar m.dup m'.dup := by
  refine ⟨h.mm, ?_, fun k => ?_, h.env⟩
  · show m.si - 8 = m'.si - 8
    rw [h.si]
  · show Function.update m.stack (m.si - 8) (m.mm 0) (m.si - 8 + 8 * k) =
      Function.update m'.stack (m'.si - 8) (m'.mm 0) (m.si - 8 + 8 * k)
    rw [Function.update_apply, Function.update_apply, ← h.si, h.top]
    split
    · rfl
    · next hne =>
        obtain ⟨k, rfl⟩ : ∃ j, k = j + 1 := ⟨k - 1, by omega⟩
        have haddr : m.si - 8 + 8 * ((k + 1 : Nat) : Int) = m.si + 8 * k := by omega
        rw [haddr]
        exact h.stack k

theorem dropdup (h : Similar m m') : Similar m.dropdup m'.dropdup := h.setReg 0 h.second

theorem dropld (h : Similar m m') (row column : Nat) :
    Similar (m.dropld row column) (m'.dropld row column) := by
  have hrow : m.ldrow row = m'.ldrow row := by
    unfold ldrow load
    rw [h.env]
  have hscratch : Similar (m.setReg 1 _) (m'.setReg 1 _) :=
    h.setScratch (Or.inl rfl) (((m.ldrow row).2 >>> (16 + ((column : Int) - 1)).toNat) <<< 32)
      (((m'.ldrow row).2 >>> (16 + ((column : Int) - 1)).toNat) <<< 32)
  have hvalue : Mmx.shift (m.ldrow row).1 (m.ldrow row).2 (column - 1) =
      Mmx.shift (m'.ldrow row).1 (m'.ldrow row).2 (column - 1) := by
    rw [hrow]
  exact hscratch.setReg 0 hvalue

end Similar

section Exec

variable {m m' : Mmx}

@[simp] theorem setReg_mm (i j : Nat) (v : BitVec 64) :
    (m.setReg i v).mm j = if j = i then v else m.mm j := Function.update_apply m.mm i v j

@[simp] theorem setReg_si (i : Nat) (v : BitVec 64) : (m.setReg i v).si = m.si := rfl

@[simp] theorem setReg_stack (i : Nat) (v : BitVec 64) : (m.setReg i v).stack = m.stack := rfl

@[simp] theorem setReg_env (i : Nat) (v : BitVec 64) : (m.setReg i v).env = m.env := rfl

theorem Similar.of_regs (h : Similar m m') (f : Mmx → Mmx)
    (hframe : ∀ m, (f m).si = m.si ∧ (f m).stack = m.stack ∧ (f m).env = m.env)
    (hmm : ∀ i, i ≠ 1 → i ≠ 2 → (f m).mm i = (f m').mm i) : Similar (f m) (f m') := by
  obtain ⟨hsi, hstack, henv⟩ := hframe m
  obtain ⟨hsi', hstack', henv'⟩ := hframe m'
  refine ⟨hmm, ?_, fun k => ?_, ?_⟩
  · rw [hsi, hsi', h.si]
  · rw [hsi, hstack, hstack']
    exact h.stack k
  · rw [henv, henv', h.env]

theorem Similar.foldl {α : Type} {f : Mmx → α → Mmx} (l : List α)
    (hf : ∀ a m m', Similar m m' → Similar (f m a) (f m' a)) {m m' : Mmx} (h : Similar m m') :
    Similar (l.foldl f m) (l.foldl f m') := by
  induction l generalizing m m' with
  | nil => exact h
  | cons a l ih => exact ih (hf a m m' h)

theorem Similar.exec (h : Similar m m') (i : Scaf.Macro) : Similar (m.exec i) (m'.exec i) := by
  have h0 := h.top
  have h3 := h.ones
  have h4 := h.mm 4 (by decide) (by decide)
  have h5 := h.mm 5 (by decide) (by decide)
  have h6 := h.mm 6 (by decide) (by decide)
  have h7 := h.mm 7 (by decide) (by decide)
  cases i with
  | dropld row column => exact h.dropld row column
  | dup => exact h.dup
  | drop => exact h.dropdup.nip
  | dropdup => exact h.dropdup
  | nipdup => exact h.nipdup
  | swap =>
      have hswap := (h.setReg 1 h.second).nipdup
      refine hswap.setReg 0 ?_
      show (m.setReg 1 _).mm 1 = (m'.setReg 1 _).mm 1
      simp [h.second]
  | nip => exact h.nip
  | dropover => exact h.setReg 0 h.third
  | overxor => exact h.setReg 0 (by rw [h0, h.second])
  | overand => exact h.setReg 0 (by rw [h0, h.second])
  | overor => exact h.setReg 0 (by rw [h0, h.second])
  | not => exact h.setReg 0 (by rw [h0, h3])
  | dropzero => exact h.setReg 0 (by rw [h0])
  | dropone => exact h.setReg 0 rfl
  | dupsta i => exact h.setReg _ h0
  | droplda i => exact h.setReg 0 (h.counter i)
  | ldbin b3 b2 b1 b0 =>
      refine h.of_regs (fun m => m.exec (.ldbin b3 b2 b1 b0)) (fun m => ⟨rfl, rfl, rfl⟩)
        fun i h1 h2 => ?_
      simp [Mmx.exec, ldbin, Mmx.counter, List.finRange_succ, h3, h.mm i h1 h2]
  | adb i =>
      have hold := h.setReg 2 (h.counter i)
      have hsum := hold.setReg (Mmx.counter i) (congrArg₂ (· ^^^ ·) (hold.counter i) hold.top)
      refine hsum.setReg 0 (congrArg₂ (· &&& ·) hsum.top ?_)
      have hne : 2 ≠ Mmx.counter i := by
        unfold Mmx.counter
        omega
      have hkept : ∀ (m : Mmx) (v w : BitVec 64),
          ((m.setReg 2 v).setReg (Mmx.counter i) w).mm 2 = v := by
        intro m v w
        rw [setReg_mm, if_neg hne, setReg_mm, if_pos rfl]
      rw [hkept, hkept]
      exact h.counter i
  | dropisnonzero i =>
      refine Similar.foldl _ (fun k _ _ hs => ?_) (h.setReg 0 h4)
      exact hs.setReg 0 (congrArg₂ (· ||| ·) hs.top (hs.counter k))
  | dropshiftright =>
      refine h.of_regs (fun m => m.exec .dropshiftright) (fun m => ⟨rfl, rfl, rfl⟩)
        fun i h1 h2 => ?_
      simp [Mmx.exec, moves, h4, h5, h6, h7, h.mm i h1 h2]
  | dropshiftleft =>
      refine h.of_regs (fun m => m.exec .dropshiftleft) (fun m => ⟨rfl, rfl, rfl⟩)
        fun i h1 h2 => ?_
      simp [Mmx.exec, moves, h4, h5, h6, h7, h.mm i h1 h2]
  | dropshiftrighta =>
      refine h.of_regs (fun m => m.exec .dropshiftrighta) (fun m => ⟨rfl, rfl, rfl⟩)
        fun i h1 h2 => ?_
      simp [Mmx.exec, moves, h4, h5, h6, h7, h.mm i h1 h2]
  | rotateright =>
      refine h.of_regs (fun m => m.exec .rotateright) (fun m => ⟨rfl, rfl, rfl⟩)
        fun i h1 h2 => ?_
      simp [Mmx.exec, moves, h4, h5, h6, h7, h.mm i h1 h2]
  | rotateleft =>
      refine h.of_regs (fun m => m.exec .rotateleft) (fun m => ⟨rfl, rfl, rfl⟩)
        fun i h1 h2 => ?_
      simp [Mmx.exec, moves, h4, h5, h6, h7, h.mm i h1 h2]
  | rotaterightstack =>
      refine h.of_regs (fun m => m.exec .rotaterightstack) (fun m => ⟨rfl, rfl, rfl⟩)
        fun i h1 h2 => ?_
      simp [Mmx.exec, moves, h0, h4, h5, h6, h7, h.mm i h1 h2]
  | rotateleftstack =>
      refine h.of_regs (fun m => m.exec .rotateleftstack) (fun m => ⟨rfl, rfl, rfl⟩)
        fun i h1 h2 => ?_
      simp [Mmx.exec, moves, h0, h4, h5, h6, h7, h.mm i h1 h2]
  | anot =>
      refine Similar.foldl _ (fun k _ _ hs => ?_) h
      exact hs.setReg _ (congrArg₂ (· ^^^ ·) (hs.counter k) hs.ones)

/-- What a row of macros does. -/
def execs (l : List Scaf.Macro) (m : Mmx) : Mmx := l.foldl exec m

theorem Similar.execs (h : Similar m m') (l : List Scaf.Macro) :
    Similar (m.execs l) (m'.execs l) := h.foldl l fun i _ _ hs => hs.exec i

/-! ## The rows of the table -/

/-- Dropping and duplicating leaves the item below in both places. -/
theorem dup_drop (m : Mmx) : m.drop.dup = m.dropdup := by
  have hsi : m.si + 8 - 8 = m.si := by omega
  show Mmx.mk _ (m.si + 8 - 8) (Function.update m.stack (m.si + 8 - 8) _) m.env = _
  rw [hsi]
  have htop : m.drop.mm 0 = m.stack m.si := by
    show (m.setReg 0 (m.stack m.si)).mm 0 = m.stack m.si
    rw [setReg_mm, if_pos rfl]
  rw [htop, Function.update_eq_self]
  rfl

theorem similar_overwrite {i : Scaf.Macro} (m : Mmx) (v : BitVec 64)
    (hi : (∃ row column, i = .dropld row column) ∨ i = .dropone ∨ i = .dropzero ∨
      (∃ k, i = .droplda k) ∨ (∃ k, i = .dropisnonzero k) ∨ i = .dropover) :
    Similar (m.exec i) ((m.setReg 0 v).exec i) := by
  have hset : ∀ w w' : BitVec 64, w = w' → Similar (m.setReg 0 w) ((m.setReg 0 v).setReg 0 w') := by
    rintro w _ rfl
    refine ⟨fun j _ _ => ?_, rfl, fun _ => rfl, rfl⟩
    rw [setReg_mm, setReg_mm]
    split
    · rfl
    · next hj => rw [setReg_mm, if_neg hj]
  have hcounter : ∀ k, m.mm (counter k) = (m.setReg 0 v).mm (counter k) := by
    intro k
    have hne : counter k ≠ 0 := by
      unfold counter
      omega
    rw [setReg_mm, if_neg hne]
  rcases hi with ⟨row, column, rfl⟩ | rfl | rfl | ⟨k, rfl⟩ | ⟨k, rfl⟩ | rfl
  · refine ⟨fun j h1 _ => ?_, rfl, fun _ => rfl, rfl⟩
    show Function.update (Function.update m.mm 1 _) 0 _ j =
      Function.update (Function.update (Function.update m.mm 0 v) 1 _) 0 _ j
    rcases eq_or_ne j 0 with rfl | hj
    · rw [Function.update_self, Function.update_self]
      rfl
    · rw [Function.update_of_ne hj, Function.update_of_ne hj, Function.update_of_ne h1,
        Function.update_of_ne h1, Function.update_of_ne hj]
  · exact hset _ _ rfl
  · exact hset _ _ (by rw [BitVec.xor_self, BitVec.xor_self])
  · exact hset _ _ (hcounter k)
  · refine Similar.foldl _ (fun k _ _ hs => ?_) (hset _ _ (hcounter 0))
    exact hs.setReg 0 (congrArg₂ (· ||| ·) hs.top (hs.counter k))
  · exact hset _ _ rfl

/-- `drop` before a kernel word that duplicates and overwrites. -/
theorem similar_drop {i : Scaf.Macro} (m : Mmx)
    (hi : (∃ row column, i = .dropld row column) ∨ i = .dropone ∨ i = .dropzero ∨
      (∃ k, i = .droplda k) ∨ (∃ k, i = .dropisnonzero k) ∨ i = .dropover) :
    Similar (m.execs [i]) (m.execs ([.drop] ++ [.dup, i])) := by
  show Similar (m.exec i) (m.drop.dup.exec i)
  rw [dup_drop]
  exact similar_overwrite m _ hi

/-- What is below the top is not a place of the stack. -/
theorem place_ne (m : Mmx) (k : Nat) : m.si + 8 * (k : Int) ≠ m.si - 8 := by omega

theorem similar_over {i : Scaf.Macro} {op : BitVec 64 → BitVec 64 → BitVec 64}
    (hcomm : ∀ v w, op v w = op w v)
    (hi : ∀ m : Mmx, m.exec i = m.setReg 0 (op (m.mm 0) (m.stack m.si))) (m : Mmx) :
    Similar (m.execs [i]) (m.execs ([.dup, .dropover] ++ [i, .nip])) := by
  have hsecond : m.si - 8 + 8 = m.si := by omega
  have hne : m.si ≠ m.si - 8 := by omega
  show Similar (m.exec i) (((m.dup.setReg 0 _).exec i).nip)
  rw [hi, hi]
  refine ⟨fun j _ _ => ?_, ?_, fun k => ?_, rfl⟩
  · show ((m.setReg 0 _).mm j : BitVec 64) = ((m.dup.setReg 0 _).setReg 0 _).mm j
    rw [setReg_mm, setReg_mm]
    split
    · rw [setReg_mm, if_pos rfl, hcomm]
      show op _ _ = op (Function.update m.stack (m.si - 8) (m.mm 0) (m.si - 8 + 8))
        (Function.update m.stack (m.si - 8) (m.mm 0) (m.si - 8))
      rw [hsecond, Function.update_self, Function.update_of_ne hne]
    · next hj =>
        rw [setReg_mm, if_neg hj]
        rfl
  · show m.si = m.si - 8 + 8
    exact hsecond.symm
  · show m.stack (m.si + 8 * k) = Function.update m.stack (m.si - 8) (m.mm 0) (m.si + 8 * k)
    rw [Function.update_of_ne (place_ne m k)]

theorem similar_dup_sta (m : Mmx) (i : Fin 4) :
    Similar (m.execs [.dupsta i]) (m.execs ([.dup] ++ [.dupsta i, .drop])) := by
  show Similar (m.setReg (counter i) (m.mm 0)) ((m.dup.setReg (counter i) (m.mm 0)).drop)
  refine ⟨fun j _ _ => ?_, ?_, fun k => ?_, rfl⟩
  · show (m.setReg (counter i) (m.mm 0)).mm j =
      ((m.dup.setReg (counter i) (m.mm 0)).setReg 0
        (Function.update m.stack (m.si - 8) (m.mm 0) (m.si - 8))).mm j
    rw [Function.update_self, setReg_mm, setReg_mm]
    rcases eq_or_ne j 0 with rfl | hj
    · rw [if_pos rfl]
      split <;> rfl
    · rw [if_neg hj, setReg_mm]
      rfl
  · show m.si = m.si - 8 + 8
    omega
  · show m.stack (m.si + 8 * k) = Function.update m.stack (m.si - 8) (m.mm 0) (m.si + 8 * k)
    rw [Function.update_of_ne (place_ne m k)]

theorem similar_dup_drop (m : Mmx) : Similar (m.execs []) (m.execs ([.dup] ++ [.drop])) := by
  show Similar m m.dup.drop
  refine ⟨fun j _ _ => ?_, ?_, fun k => ?_, rfl⟩
  · show m.mm j = (m.dup.setReg 0
      (Function.update m.stack (m.si - 8) (m.mm 0) (m.si - 8))).mm j
    rw [Function.update_self, setReg_mm]
    split
    · next hj => rw [hj]
    · rfl
  · show m.si = m.si - 8 + 8
    omega
  · show m.stack (m.si + 8 * k) = Function.update m.stack (m.si - 8) (m.mm 0) (m.si + 8 * k)
    rw [Function.update_of_ne (place_ne m k)]

theorem similar_swap_drop (m : Mmx) :
    Similar (m.execs [.nip]) (m.execs ([.swap] ++ [.drop])) := by
  show Similar m.nip m.swap.drop
  refine ⟨fun j h1 _ => ?_, rfl, fun k => ?_, rfl⟩
  · show m.mm j = (m.swap.setReg 0 (Function.update m.stack m.si ((m.setReg 1 _).mm 0) m.si)).mm j
    rw [Function.update_self, setReg_mm, setReg_mm]
    rcases eq_or_ne j 0 with rfl | hj
    · rfl
    · rw [if_neg hj]
      show m.mm j = ((m.setReg 1 _).nipdup.setReg 0 _).mm j
      rw [setReg_mm, if_neg hj]
      show m.mm j = (m.setReg 1 _).mm j
      rw [setReg_mm, if_neg h1]
  · have hne : m.si + 8 + 8 * (k : Int) ≠ m.si := by omega
    show m.stack (m.si + 8 + 8 * k) = Function.update m.stack m.si _ (m.si + 8 + 8 * k)
    rw [Function.update_of_ne hne]

theorem similar_dup_swap (m : Mmx) :
    Similar (m.execs [.dup]) (m.execs ([.dup] ++ [.swap])) := by
  have hsecond : m.dup.stack m.dup.si = m.mm 0 := Function.update_self _ _ _
  have hstack : Function.update m.dup.stack m.dup.si (m.mm 0) = m.dup.stack := by
    rw [← hsecond, Function.update_eq_self]
  show Similar m.dup m.dup.swap
  refine ⟨fun j h1 _ => ?_, rfl, fun k => ?_, rfl⟩
  · show m.mm j = ((m.dup.setReg 1 _).nipdup.setReg 0 ((m.dup.setReg 1 _).mm 1)).mm j
    rw [setReg_mm, setReg_mm, if_pos rfl, hsecond]
    rcases eq_or_ne j 0 with rfl | hj
    · rfl
    · rw [if_neg hj]
      show m.mm j = (m.dup.setReg 1 _).mm j
      rw [setReg_mm, if_neg h1]
      rfl
  · show m.dup.stack _ = Function.update m.dup.stack m.dup.si ((m.dup.setReg 1 _).mm 0) _
    have htop : (m.dup.setReg 1 (m.dup.stack m.dup.si)).mm 0 = m.mm 0 := rfl
    rw [htop, hstack]

theorem similar_nip_dup (m : Mmx) :
    Similar (m.execs [.nipdup]) (m.execs ([.nip] ++ [.dup])) := by
  have hsi : m.si + 8 - 8 = m.si := by omega
  show Similar m.nipdup (Mmx.mk m.mm (m.si + 8 - 8)
    (Function.update m.stack (m.si + 8 - 8) (m.mm 0)) m.env)
  rw [hsi]
  exact Mmx.Similar.refl _

end Exec

end Mmx

namespace Scaf

open Mmx (Similar)

/-- The macros that a word stands for. -/
def Token.macros : Token → Option (List Macro)
  | .asm m => some [m]
  | .kernel w => some w.body
  | .word _ => none
  | .r => none
  | .blank => some []

/-- A row whose right side does what its left side does. -/
structure Rule.Sound (rule : Rule) : Prop where
  sound : ∃ t l₁ l₂ l, rule.dest = [t] ∧ (t = .blank ∨ ∃ i, t = .asm i) ∧
    rule.first.macros = some l₁ ∧ rule.second.macros = some l₂ ∧ t.macros = some l ∧
    ∀ m : Mmx, Similar (m.execs l) (m.execs (l₁ ++ l₂))

/-- A row for a word that there is no macro for. -/
def Rule.Unknown (rule : Rule) : Prop :=
  rule.first = .kernel .over ∧
    (rule.second = .word "add".toList ∨ rule.second = .word "addc".toList) ∧
    ∃ name, rule.dest = [.word name]

theorem optimRules_sound : ∀ rule ∈ optimRules, rule.Sound ∨ rule.Unknown := by
  have hrow : ∀ {first second : Token} {i : Macro} {l₁ l₂ : List Macro},
      first.macros = some l₁ → second.macros = some l₂ →
      (∀ m : Mmx, Similar (m.execs [i]) (m.execs (l₁ ++ l₂))) →
      (Rule.toMacro first second i).Sound := fun h₁ h₂ h =>
    ⟨⟨_, _, _, _, rfl, Or.inr ⟨_, rfl⟩, h₁, h₂, rfl, h⟩⟩
  intro rule hrule
  simp only [optimRules, List.mem_append, List.mem_cons, List.mem_map, List.mem_flatMap,
    List.not_mem_nil, or_false] at hrule
  rcases hrule with (((((h | h | h | h | h | h | h) | ⟨i, -, h⟩) | ⟨i, -, h⟩) | h | h) |
    ⟨row, -, column, -, h⟩) | h | h | h | h | h | h
  · subst h
    exact Or.inl (hrow rfl rfl (Mmx.similar_over BitVec.xor_comm fun _ => rfl))
  · subst h
    exact Or.inl (hrow rfl rfl (Mmx.similar_over BitVec.and_comm fun _ => rfl))
  · subst h
    exact Or.inl (hrow rfl rfl (Mmx.similar_over BitVec.or_comm fun _ => rfl))
  · subst h
    exact Or.inl (hrow rfl rfl fun m => Mmx.similar_drop m (by simp))
  · subst h
    exact Or.inl (hrow rfl rfl fun m => Mmx.similar_drop m (by simp))
  · subst h
    exact Or.inr ⟨rfl, Or.inl rfl, _, rfl⟩
  · subst h
    exact Or.inr ⟨rfl, Or.inr rfl, _, rfl⟩
  · subst h
    exact Or.inl (hrow rfl rfl fun m => Mmx.similar_dup_sta m i)
  · subst h
    exact Or.inl (hrow rfl rfl fun m => Mmx.similar_drop m (by simp))
  · subst h
    exact Or.inl (hrow rfl rfl fun m => Mmx.similar_drop m (by simp))
  · rcases h with ⟨i, -, h⟩
    subst h
    exact Or.inl (hrow rfl rfl fun m => Mmx.similar_drop m (by simp))
  · subst h
    exact Or.inl (hrow rfl rfl fun m => Mmx.similar_drop m (by simp))
  · subst h
    exact Or.inl ⟨⟨_, _, _, _, rfl, Or.inl rfl, rfl, rfl, rfl, Mmx.similar_dup_drop⟩⟩
  · subst h
    exact Or.inl (hrow rfl rfl Mmx.similar_swap_drop)
  · subst h
    exact Or.inl (hrow rfl rfl Mmx.similar_dup_swap)
  · subst h
    refine Or.inl (hrow rfl rfl fun m => ?_)
    show Similar m.dropdup m.drop.dup
    rw [Mmx.dup_drop]
    exact Mmx.Similar.refl _
  · subst h
    exact Or.inl (hrow rfl rfl fun m => Mmx.similar_drop m (by simp))
  · subst h
    exact Or.inl (hrow rfl rfl Mmx.similar_nip_dup)

theorem replacePair_short {α : Type} [DecidableEq α] {first second : α} {dest l : List α}
    (hl : ∀ x y t, l = x :: y :: t → False) : replacePair first second dest l = l := by
  unfold replacePair
  split
  · exact absurd rfl (hl _ _ _)
  · rfl

/-! ## What a definition means -/

/-- What the words of a definition compute, if the defined words do what `call` says. -/
def sem (call : Symbol → Mmx → Option Mmx) : List Token → Mmx → Option Mmx
  | [], _ => none
  | .asm i :: l, m => sem call l (m.exec i)
  | .kernel w :: l, m => sem call l (m.execs w.body)
  | .blank :: l, m => sem call l m
  | .r :: _, m => some m
  | .word name :: l, m => (call name m).bind (sem call l)

/-- Similar results: none, or similar states. -/
abbrev Results : Option Mmx → Option Mmx → Prop := Option.Rel Similar

/-- The defined words have similar results. -/
def Respects (call call' : Symbol → Mmx → Option Mmx) : Prop :=
  ∀ name m m', Similar m m' → Results (call name m) (call' name m')

section Meaning

variable {call call' : Symbol → Mmx → Option Mmx} {t : Token} {l l' : List Token} {m m' : Mmx}

theorem results_symm {r s : Option Mmx} (h : Results r s) : Results s r := by
  cases h with
  | none => exact .none
  | some h => exact .some h.symm

theorem results_trans {r s u : Option Mmx} (h : Results r s) (h' : Results s u) :
    Results r u := by
  cases h with
  | none => exact h'
  | some h =>
      cases h' with
      | some h' => exact .some (h.trans h')

theorem results_bind {r s : Option Mmx} {f g : Mmx → Option Mmx} (h : Results r s)
    (hfg : ∀ m m', Similar m m' → Results (f m) (g m')) : Results (r.bind f) (s.bind g) := by
  cases h with
  | none => exact .none
  | some h => exact hfg _ _ h

/-- One word in front of two definitions that have similar results. -/
theorem sem_cons (hcall : Respects call call')
    (h : ∀ m m', Similar m m' → Results (sem call l m) (sem call' l' m')) :
    ∀ m m', Similar m m' → Results (sem call (t :: l) m) (sem call' (t :: l') m') := by
  intro m m' hm
  cases t with
  | asm i => exact h _ _ (hm.exec i)
  | kernel w => exact h _ _ (hm.execs w.body)
  | word name => exact results_bind (hcall name m m' hm) h
  | r => exact .some hm
  | blank => exact h _ _ hm

theorem sem_congr (hcall : Respects call call') (l : List Token) :
    ∀ m m', Similar m m' → Results (sem call l m) (sem call' l m') := by
  induction l with
  | nil => exact fun _ _ _ => .none
  | cons t l ih => exact sem_cons hcall ih

theorem sem_macros {is : List Macro} (h : t.macros = some is) (l : List Token) (m : Mmx) :
    sem call (t :: l) m = sem call l (m.execs is) := by
  cases t with
  | asm i =>
      cases h
      rfl
  | kernel w =>
      cases h
      rfl
  | word name => cases h
  | r => cases h
  | blank =>
      cases h
      rfl

/-! ## The passes -/

theorem replacePair_sound {rule : Rule} (hrule : rule.Sound) (hcall : Respects call call)
    (l : List Token) : ∀ m m', Similar m m' →
      Results (sem call (replacePair rule.first rule.second rule.dest l) m) (sem call l m') := by
  obtain ⟨t, l₁, l₂, l₀, hdest, -, h₁, h₂, h₀, hsound⟩ := hrule.sound
  rw [hdest]
  induction l using replacePair.induct rule.first rule.second with
  | case1 x y l hpair ih =>
      obtain ⟨rfl, rfl⟩ := hpair
      intro m m' hm
      rw [replacePair, if_pos ⟨rfl, rfl⟩, List.singleton_append, sem_macros h₀, sem_macros h₁,
        sem_macros h₂]
      refine ih _ _ ((hm.execs l₀).trans ?_)
      have happend := hsound m'
      unfold Mmx.execs at happend ⊢
      rwa [List.foldl_append] at happend
  | case2 x y l hpair ih =>
      rw [replacePair, if_neg hpair]
      exact sem_cons hcall ih
  | case3 l hl =>
      rw [replacePair_short hl]
      exact sem_congr hcall l

/-- `over` is not followed by `add` or `addc`. -/
def NoOverAdd (l : List Token) : Prop :=
  l.IsChain fun t t' =>
    ¬ (t = .kernel .over ∧ (t' = .word "add".toList ∨ t' = .word "addc".toList))

theorem replacePair_unknown {rule : Rule} (hrule : rule.Unknown) {l : List Token}
    (hl : NoOverAdd l) : replacePair rule.first rule.second rule.dest l = l := by
  induction l using replacePair.induct rule.first rule.second with
  | case1 x y l hpair _ =>
      obtain ⟨rfl, rfl⟩ := hpair
      exact absurd ⟨hrule.1, hrule.2.1⟩ (List.isChain_cons_cons.mp hl).1
  | case2 x y l hpair ih =>
      rw [replacePair, if_neg hpair, ih (List.isChain_cons_cons.mp hl).2]
  | case3 l hl' => exact replacePair_short hl'

theorem head?_replacePair (first second t x : Token) (l : List Token) :
    (replacePair first second [t] (x :: l)).head? = some x ∨
      (replacePair first second [t] (x :: l)).head? = some t := by
  cases l with
  | nil => exact Or.inl rfl
  | cons y l =>
      rw [replacePair]
      split
      · exact Or.inr rfl
      · exact Or.inl rfl

/-- The other rows make no such pair: what they write is neither of the two words. -/
theorem NoOverAdd.replacePair {l : List Token} (h : NoOverAdd l) {rule : Rule}
    (hrule : rule.Sound) : NoOverAdd (replacePair rule.first rule.second rule.dest l) := by
  obtain ⟨t, l₁, l₂, l₀, hdest, hasm, -, -, h₀, -⟩ := hrule.sound
  have hword : ∀ name, t ≠ .word name := by
    rintro name rfl
    cases h₀
  have hfirst : t ≠ .kernel .over := by
    rintro rfl
    rcases hasm with h | ⟨i, h⟩ <;> cases h
  rw [hdest]
  induction l using replacePair.induct rule.first rule.second with
  | case1 x y l hpair ih =>
      rw [Scaf.replacePair, if_pos hpair, List.singleton_append]
      refine List.isChain_cons.mpr ⟨fun z _ hz => hfirst hz.1, ih ?_⟩
      exact (List.isChain_cons_cons.mp h).2.tail
  | case2 x y l hpair ih =>
      obtain ⟨hxy, hrest⟩ := List.isChain_cons_cons.mp h
      rw [Scaf.replacePair, if_neg hpair]
      refine List.isChain_cons.mpr ⟨fun z hz => ?_, ih hrest⟩
      rcases head?_replacePair rule.first rule.second t y l with hy | ht
      · rw [hy] at hz
        cases hz
        exact hxy
      · rw [ht] at hz
        cases hz
        exact fun hz => hz.2.elim (hword _) (hword _)
  | case3 l hl =>
      rw [replacePair_short hl]
      exact h

theorem substOptim_sound (hcall : Respects call call) {l : List Token} (hl : NoOverAdd l) :
    ∀ m m', Similar m m' → Results (sem call (substOptim l) m) (sem call l m') := by
  -- Along the table: the rows so far have changed neither the meaning nor the condition.
  have hfold : NoOverAdd (substOptim l) ∧
      ∀ m m', Similar m m' → Results (sem call (substOptim l) m) (sem call l m') := by
    refine List.foldlRecOn (motive := fun body => NoOverAdd body ∧
      ∀ m m', Similar m m' → Results (sem call body m) (sem call l m')) optimRules _
      ⟨hl, sem_congr hcall l⟩ ?_
    rintro body ⟨hclean, hbody⟩ rule hmem
    rcases optimRules_sound rule hmem with hsound | hunknown
    · refine ⟨hclean.replacePair hsound, fun m m' hm => ?_⟩
      exact results_trans (replacePair_sound hsound hcall body m m' hm)
        (hbody m' m' (Mmx.Similar.refl m'))
    · rw [replacePair_unknown hunknown hclean]
      exact ⟨hclean, hbody⟩
  exact hfold.2

theorem sem_inlineDefs (call : Symbol → Mmx → Option Mmx) (l : List Token) (m : Mmx) :
    sem call (inlineDefs l) m = sem call l m := by
  have hmacros : ∀ (is : List Macro) (l : List Token) (m : Mmx),
      sem call (is.map .asm ++ l) m = sem call l (m.execs is) := by
    intro is
    induction is with
    | nil => exact fun _ _ => rfl
    | cons i is ih => exact fun l m => ih l (m.exec i)
  induction l generalizing m with
  | nil => rfl
  | cons t l ih =>
      cases t with
      | asm i => exact ih _
      | kernel w =>
          show sem call (w.body.map .asm ++ inlineDefs l) m = _
          rw [hmacros, ih]
          rfl
      | word name =>
          have hrest : sem call (inlineDefs l) = sem call l := funext ih
          show (call name m).bind (sem call (inlineDefs l)) = (call name m).bind (sem call l)
          rw [hrest]
      | r => rfl
      | blank => exact ih _

theorem kernel_not_mem_inlineDefs (w : KernelWord) (l : List Token) :
    .kernel w ∉ inlineDefs l := by
  unfold inlineDefs
  rw [List.mem_flatMap]
  rintro ⟨t, -, ht⟩
  cases t with
  | kernel w' =>
      obtain ⟨i, -, hi⟩ := List.mem_map.mp ht
      cases hi
  | asm i => exact Token.noConfusion (List.mem_singleton.mp ht)
  | word name => exact Token.noConfusion (List.mem_singleton.mp ht)
  | r => exact Token.noConfusion (List.mem_singleton.mp ht)
  | blank => exact Token.noConfusion (List.mem_singleton.mp ht)

theorem noOverAdd_inlineDefs (l : List Token) : NoOverAdd (inlineDefs l) := by
  have hall : ∀ t ∈ inlineDefs l, t ≠ .kernel .over := by
    rintro _ ht rfl
    exact kernel_not_mem_inlineDefs _ l ht
  unfold NoOverAdd
  generalize inlineDefs l = body at hall
  induction body with
  | nil => exact .nil
  | cons t l ih =>
      refine List.isChain_cons.mpr ⟨fun _ _ hz => hall t List.mem_cons_self hz.1, ?_⟩
      exact ih fun u hu => hall u (List.mem_cons_of_mem _ hu)

/-- The words of a definition, before `call_defs`. -/
def prepared (optimize : Bool) (body : List Token) : List Token :=
  let body := if optimize then substOptim body else body
  let body := inlineDefs body
  if optimize then substOptim body else body

theorem prepared_true (l : List Token) :
    prepared true l = substOptim (inlineDefs (substOptim l)) := rfl

theorem prepared_sound (hcall : Respects call call) {l : List Token} (hl : NoOverAdd l) :
    ∀ m m', Similar m m' → Results (sem call (prepared true l) m) (sem call (prepared false l) m') := by
  intro m m' hm
  have hpost := substOptim_sound hcall (noOverAdd_inlineDefs (substOptim l)) m m' hm
  have hpre := substOptim_sound hcall hl m' m' (Mmx.Similar.refl m')
  rw [sem_inlineDefs] at hpost
  have hplain : sem call (prepared false l) m' = sem call l m' := sem_inlineDefs call l m'
  rw [hplain]
  exact results_trans hpost hpre

theorem mem_replacePair {α : Type} [DecidableEq α] {first second x : α} {dest l : List α}
    (h : x ∈ Scaf.replacePair first second dest l) : x ∈ dest ∨ x ∈ l := by
  induction l using replacePair.induct first second with
  | case1 a b l hpair ih =>
      rw [Scaf.replacePair, if_pos hpair, List.mem_append] at h
      rcases h with h | h
      · exact Or.inl h
      · exact (ih h).imp_right fun h => List.mem_cons_of_mem _ (List.mem_cons_of_mem _ h)
  | case2 a b l hpair ih =>
      rw [Scaf.replacePair, if_neg hpair] at h
      rcases List.mem_cons.mp h with rfl | h
      · exact Or.inr List.mem_cons_self
      · exact (ih h).imp_right (List.mem_cons_of_mem _)
  | case3 l hl =>
      exact Or.inr (replacePair_short hl ▸ h)

theorem dest_no_kernel : ∀ rule ∈ optimRules, ∀ t ∈ rule.dest, ∀ w, t ≠ .kernel w := by
  rintro rule hrule t ht w rfl
  rcases optimRules_sound rule hrule with hsound | ⟨-, -, name, hdest⟩
  · obtain ⟨t, l₁, l₂, l₀, hdest, hasm, -⟩ := hsound.sound
    rw [hdest, List.mem_singleton] at ht
    subst ht
    rcases hasm with h | ⟨i, h⟩ <;> cases h
  · rw [hdest, List.mem_singleton] at ht
    cases ht

theorem kernel_mem_substOptim {w : KernelWord} {l : List Token}
    (h : .kernel w ∈ substOptim l) : .kernel w ∈ l := by
  refine List.foldlRecOn (motive := fun body : List Token => .kernel w ∈ body → .kernel w ∈ l)
    optimRules _ (fun h => h) ?_ h
  intro body hbody rule hrule hmem
  rcases mem_replacePair hmem with hd | hb
  · exact absurd rfl (dest_no_kernel rule hrule _ hd w)
  · exact hbody hb

theorem kernel_not_mem_prepared (optimize : Bool) (w : KernelWord) (l : List Token) :
    .kernel w ∉ prepared optimize l := by
  cases optimize with
  | false => exact kernel_not_mem_inlineDefs w l
  | true =>
      intro h
      rw [prepared_true] at h
      exact kernel_not_mem_inlineDefs w (substOptim l) (kernel_mem_substOptim h)

/-! ## Calls and jumps -/

/-- What lines compute when some words are calls or jumps already. -/
def lineSem (call : Symbol → Mmx → Option Mmx) : List Line → Mmx → Option Mmx
  | [], _ => none
  | .op (.asm i) :: l, m => lineSem call l (m.exec i)
  | .op (.kernel w) :: l, m => lineSem call l (m.execs w.body)
  | .op .blank :: l, m => lineSem call l m
  | .op .r :: _, m => some m
  | .op (.word name) :: l, m => (call name m).bind (lineSem call l)
  | .c name :: l, m => (call name m).bind (lineSem call l)
  | .j name :: _, m => call name m

theorem lineSem_map_op (call : Symbol → Mmx → Option Mmx) (l : List Token) :
    lineSem call (l.map .op) = sem call l := by
  induction l with
  | nil => rfl
  | cons t l ih =>
      funext m
      cases t with
      | asm i => exact congrFun ih _
      | kernel w => exact congrFun ih _
      | word name =>
          show (call name m).bind (lineSem call (l.map .op)) = (call name m).bind (sem call l)
          rw [ih]
      | r => rfl
      | blank => exact congrFun ih _

theorem lineSem_cons (x : Line) {l l' : List Line} (h : lineSem call l = lineSem call l') :
    lineSem call (x :: l) = lineSem call (x :: l') := by
  funext m
  cases x with
  | op t =>
      cases t with
      | asm i => exact congrFun h _
      | kernel w => exact congrFun h _
      | word name => exact congrArg (call name m).bind h
      | r => rfl
      | blank => exact congrFun h _
  | c name => exact congrArg (call name m).bind h
  | j name => rfl

theorem lineSem_jump (call : Symbol → Mmx → Option Mmx) (name : Symbol) (l : List Line) :
    lineSem call (Scaf.replacePair (.op (.word name)) (.op .r) [.j name] l) = lineSem call l := by
  induction l using replacePair.induct (Line.op (.word name)) (.op .r) with
  | case1 x y l hpair ih =>
      obtain ⟨rfl, rfl⟩ := hpair
      rw [Scaf.replacePair, if_pos ⟨rfl, rfl⟩]
      funext m
      show call name m = (call name m).bind fun m => some m
      cases call name m <;> rfl
  | case2 x y l hpair ih =>
      rw [Scaf.replacePair, if_neg hpair]
      exact lineSem_cons x ih
  | case3 l hl =>
      rw [replacePair_short hl]

theorem lineSem_callDef (call : Symbol → Mmx → Option Mmx) (lines : List Line) (name : Symbol) :
    lineSem call (callDef lines name) = lineSem call lines := by
  have hmap : ∀ l : List Line, lineSem call
      (l.map fun line => if line = .op (.word name) then .c name else line) = lineSem call l := by
    intro l
    induction l with
    | nil => rfl
    | cons x l ih =>
        rw [List.map_cons, lineSem_cons _ ih]
        split
        · next hx =>
            subst hx
            rfl
        · rfl
  unfold callDef
  rw [hmap, lineSem_jump]

theorem lineSem_callDefs (call : Symbol → Mmx → Option Mmx) (names : List Symbol)
    (body : List Token) : lineSem call (callDefs names body) = sem call body := by
  refine List.foldlRecOn (motive := fun lines => lineSem call lines = sem call body) names _
    (lineSem_map_op call body) ?_
  intro lines hlines name _
  exact (lineSem_callDef call lines name).trans hlines

theorem op_mem_callDefs {names : List Symbol} {body : List Token} {t : Token}
    (h : .op t ∈ callDefs names body) : t ∈ body ∧ ∀ name ∈ names, t ≠ .word name := by
  have hone : ∀ {lines : List Line} {name : Symbol}, .op t ∈ callDef lines name →
      .op t ∈ lines ∧ t ≠ .word name := by
    intro lines name hmem
    obtain ⟨line, hline, heq⟩ := List.mem_map.mp hmem
    split at heq
    · cases heq
    · next hne =>
        subst heq
        refine ⟨(mem_replacePair hline).resolve_left (by simp), ?_⟩
        rintro rfl
        exact hne rfl
  have hfold : ∀ lines : List Line, .op t ∈ names.foldl callDef lines →
      .op t ∈ lines ∧ ∀ name ∈ names, t ≠ .word name := by
    clear h
    induction names with
    | nil => exact fun _ h => ⟨h, fun _ hn => absurd hn List.not_mem_nil⟩
    | cons name names ih =>
        intro lines hmem
        obtain ⟨hmem', hrest⟩ := ih _ hmem
        obtain ⟨hline, hne⟩ := hone hmem'
        exact ⟨hline, List.forall_mem_cons.mpr ⟨hne, hrest⟩⟩
  obtain ⟨hmem, hne⟩ := hfold _ h
  obtain ⟨t', ht', heq⟩ := List.mem_map.mp hmem
  cases heq
  exact ⟨ht', hne⟩

/-- The assembler finds instructions only, and does what the lines mean. -/
theorem run_eq_lineSem {lines : List Line} (hkernel : ∀ w, .op (.kernel w) ∉ lines)
    (hword : ∀ name, .op (.word name) ∈ lines → ∀ m, call name m = none) :
    run call lines = lineSem call lines := by
  induction lines with
  | nil => rfl
  | cons x lines ih =>
      have ih := ih (fun w h => hkernel w (List.mem_cons_of_mem _ h))
        (fun name h => hword name (List.mem_cons_of_mem _ h))
      funext m
      cases x with
      | op t =>
          cases t with
          | asm i => exact congrFun ih _
          | kernel w => exact absurd List.mem_cons_self (hkernel w)
          | word name =>
              show none = (call name m).bind (lineSem call lines)
              rw [hword name List.mem_cons_self m]
              rfl
          | r => rfl
          | blank => exact congrFun ih _
      | c name => exact congrArg (call name m).bind ih
      | j name => rfl

/-! ## The program -/

theorem lookup_map {f : Definition → List Line} (name : Symbol) (source : List Definition) :
    (source.map fun d => (d.name, f d)).lookup name =
      (source.find? fun d => name == d.name).map f := by
  induction source with
  | nil => rfl
  | cons d source ih =>
      rw [List.map_cons, List.lookup_cons, List.find?_cons]
      split
      · rfl
      · exact ih

theorem callWord_succ (optimize : Bool) (source : List Definition) (n : Nat) (name : Symbol)
    (m : Mmx) : callWord (compile optimize source) (n + 1) name m =
      match source.find? fun d => name == d.name with
      | none => none
      | some d => sem (callWord (compile optimize source) n) (prepared optimize d.body) m := by
  have hundefined : ∀ name, (∀ d ∈ source, name ≠ d.name) → ∀ k m,
      callWord (compile optimize source) k name m = none := by
    intro name hname k m
    cases k with
    | zero => rfl
    | succ k =>
        have hfind : (source.find? fun d => name == d.name) = none := by
          rw [List.find?_eq_none]
          intro d hd
          simpa using hname d hd
        rw [callWord]
        unfold compile
        rw [lookup_map, hfind]
        rfl
  rw [callWord]
  have hlookup := @lookup_map
    (fun d => callDefs (source.map Definition.name) (prepared optimize d.body)) name source
  have hcompile : (compile optimize source).lookup name = _ := hlookup
  rw [hcompile]
  cases source.find? fun d => name == d.name with
  | none => rfl
  | some d =>
      show run _ (callDefs (source.map Definition.name) (prepared optimize d.body)) m =
        sem _ (prepared optimize d.body) m
      rw [← lineSem_callDefs _ (source.map Definition.name)]
      refine congrFun (run_eq_lineSem (fun w h => ?_) fun word h k => ?_) m
      · exact kernel_not_mem_prepared optimize w d.body (op_mem_callDefs h).1
      · refine hundefined word (fun d' hd' heq => ?_) n k
        exact (op_mem_callDefs h).2 d'.name (List.mem_map_of_mem hd') (by rw [heq])

/-- Both programs compute the same: from similar states each word gives similar states, or none
gives any, however deep calls may go. -/
def Preserved (source : List Definition) : Prop :=
  ∀ n name m m', Similar m m' →
    Results (callWord (compile true source) n name m) (callWord (compile false source) n name m')

/-- Preserved, if no definition has one of the two pairs. -/
theorem preserved_of_noOverAdd {source : List Definition}
    (h : ∀ d ∈ source, NoOverAdd d.body) : Preserved source := by
  intro n
  induction n with
  | zero => exact fun _ _ _ _ => .none
  | succ n ih =>
      -- Words respect similarity in the plain program too, by way of the other one.
      have hplain : Respects (callWord (compile false source) n)
          (callWord (compile false source) n) := fun name m m' hm =>
        results_trans (results_symm (ih name m m (Mmx.Similar.refl m))) (ih name m m' hm)
      intro name m m' hm
      rw [callWord_succ, callWord_succ]
      cases hfind : source.find? fun d => name == d.name with
      | none => exact .none
      | some d =>
          have hclean := h d (List.mem_of_find?_eq_some hfind)
          exact results_trans (sem_congr ih (prepared true d.body) m m' hm)
            (prepared_sound hplain hclean m' m' (Mmx.Similar.refl m'))

/-! ## Assembling -/

/-- The assembler knows the line, if `names` are the labels. -/
def Line.Known (names : List Symbol) : Line → Prop
  | .op (.asm _) => True
  | .op .blank => True
  | .op .r => True
  | .op (.kernel _) => False
  | .op (.word _) => False
  | .c name => name ∈ names
  | .j name => name ∈ names

/-- Every line is an instruction, and every call goes to a label. -/
def Assembles (program : List (Symbol × List Line)) : Prop :=
  ∀ p ∈ program, ∀ line ∈ p.2, line.Known (program.map Prod.fst)

/-- Definitions only use words that there are. -/
def WellFormed (source : List Definition) : Prop :=
  ∀ d ∈ source, ∀ name, .word name ∈ d.body → name ∈ source.map Definition.name

/-- The optimised program is one, and computes the same as the other. -/
structure SameMeaning (source : List Definition) : Prop where
  assembles : Assembles (compile true source)
  preserved : Preserved source

/-- What the optimiser adds to a definition without the two pairs. -/
theorem mem_substOptim {t : Token} (hl : NoOverAdd l) (h : t ∈ substOptim l) :
    t ∈ l ∨ t = .blank ∨ ∃ i, t = .asm i := by
  have hfold : NoOverAdd (substOptim l) ∧
      ∀ t ∈ substOptim l, t ∈ l ∨ t = .blank ∨ ∃ i, t = .asm i := by
    refine List.foldlRecOn (motive := fun body => NoOverAdd body ∧
      ∀ t ∈ body, t ∈ l ∨ t = .blank ∨ ∃ i, t = .asm i) optimRules _
      ⟨hl, fun t ht => Or.inl ht⟩ ?_
    rintro body ⟨hclean, hbody⟩ rule hrule
    rcases optimRules_sound rule hrule with hsound | hunknown
    · refine ⟨hclean.replacePair hsound, fun t hmem => ?_⟩
      rcases mem_replacePair hmem with hd | hb
      · obtain ⟨t', l₁, l₂, l₀, hdest, hasm, -⟩ := hsound.sound
        rw [hdest, List.mem_singleton] at hd
        exact Or.inr (hd ▸ hasm)
      · exact hbody t hb
    · rw [replacePair_unknown hunknown hclean]
      exact ⟨hclean, hbody⟩
  exact hfold.2 t h

theorem word_mem_inlineDefs {name : Symbol} (h : .word name ∈ inlineDefs l) : .word name ∈ l := by
  obtain ⟨t, ht, hmem⟩ := List.mem_flatMap.mp h
  cases t with
  | kernel w =>
      obtain ⟨i, -, hi⟩ := List.mem_map.mp hmem
      cases hi
  | asm i => exact Token.noConfusion (List.mem_singleton.mp hmem)
  | word name' => exact List.mem_singleton.mp hmem ▸ ht
  | r => exact Token.noConfusion (List.mem_singleton.mp hmem)
  | blank => exact Token.noConfusion (List.mem_singleton.mp hmem)

theorem word_mem_prepared {name : Symbol} (hl : NoOverAdd l)
    (h : .word name ∈ prepared true l) : .word name ∈ l := by
  rw [prepared_true] at h
  have hpost : Token.word name ∈ inlineDefs (substOptim l) := by
    rcases mem_substOptim (noOverAdd_inlineDefs _) h with h | h | ⟨i, h⟩
    · exact h
    · cases h
    · cases h
  rcases mem_substOptim hl (word_mem_inlineDefs hpost) with h | h | ⟨i, h⟩
  · exact h
  · cases h
  · cases h

theorem call_mem_callDefs {names : List Symbol} {body : List Token} {name : Symbol}
    (h : .c name ∈ callDefs names body ∨ .j name ∈ callDefs names body) : name ∈ names := by
  have hone : ∀ {lines : List Line} {word : Symbol} {x : Line}, x = .c name ∨ x = .j name →
      x ∈ callDef lines word → x ∈ lines ∨ name = word := by
    intro lines word x hx hmem
    obtain ⟨line, hline, heq⟩ := List.mem_map.mp hmem
    split at heq
    · subst heq
      rcases hx with hx | hx
      · cases hx
        exact Or.inr rfl
      · cases hx
    · subst heq
      rcases mem_replacePair hline with hd | hb
      · rw [List.mem_singleton] at hd
        subst hd
        rcases hx with hx | hx
        · cases hx
        · cases hx
          exact Or.inr rfl
      · exact Or.inl hb
  have hfold : ∀ (names : List Symbol) (lines : List Line) {x : Line},
      x = .c name ∨ x = .j name → x ∈ names.foldl callDef lines → x ∈ lines ∨ name ∈ names := by
    intro names
    induction names with
    | nil => exact fun _ _ _ h => Or.inl h
    | cons word names ih =>
        intro lines x hx hmem
        rcases ih _ hx hmem with hmem | hmem
        · rcases hone hx hmem with hmem | rfl
          · exact Or.inl hmem
          · exact Or.inr List.mem_cons_self
        · exact Or.inr (List.mem_cons_of_mem _ hmem)
  have hnone : ∀ {x : Line}, x = .c name ∨ x = .j name → x ∉ body.map .op := by
    rintro x hx hmem
    obtain ⟨t, -, rfl⟩ := List.mem_map.mp hmem
    rcases hx with hx | hx <;> cases hx
  rcases h with h | h
  · exact (hfold names _ (Or.inl rfl) h).resolve_left (hnone (Or.inl rfl))
  · exact (hfold names _ (Or.inr rfl) h).resolve_left (hnone (Or.inr rfl))

theorem assembles_of_noOverAdd {source : List Definition} (hsource : WellFormed source)
    (h : ∀ d ∈ source, NoOverAdd d.body) : Assembles (compile true source) := by
  have hnames : (compile true source).map Prod.fst = source.map Definition.name := by
    unfold compile
    rw [List.map_map]
    rfl
  rintro p hp line hline
  obtain ⟨d, hd, rfl⟩ := List.mem_map.mp hp
  rw [hnames]
  have hline : line ∈ callDefs (source.map Definition.name) (prepared true d.body) := hline
  cases line with
  | c name => exact call_mem_callDefs (Or.inl hline)
  | j name => exact call_mem_callDefs (Or.inr hline)
  | op t =>
      obtain ⟨ht, hne⟩ := op_mem_callDefs hline
      cases t with
      | asm i => trivial
      | kernel w => exact kernel_not_mem_prepared true w d.body ht
      | word name =>
          exact hne name (hsource d hd name (word_mem_prepared (h d hd) ht)) rfl
      | r => trivial
      | blank => trivial

/-! ## The pairs without a macro -/

section Pairs

variable {α : Type} [DecidableEq α] {first second x y : α} {dest l : List α}

/-- A pair stays where it is when the row can take neither of its words. -/
theorem pair_replacePair (h : [x, y] <:+: l) (hx : x ≠ second) (hy : y ≠ first)
    (hxy : ¬ (x = first ∧ y = second)) : [x, y] <:+: Scaf.replacePair first second dest l := by
  induction l using replacePair.induct first second with
  | case1 a b l hpair ih =>
      obtain ⟨rfl, rfl⟩ := hpair
      rw [Scaf.replacePair, if_pos ⟨rfl, rfl⟩]
      rcases List.infix_cons_iff.mp h with hstart | h
      · obtain ⟨rfl, hnext⟩ := List.cons_prefix_cons.mp hstart
        exact absurd ⟨rfl, (List.cons_prefix_cons.mp hnext).1⟩ hxy
      · rcases List.infix_cons_iff.mp h with hstart | h
        · exact absurd (List.cons_prefix_cons.mp hstart).1 hx
        · exact (ih h).trans (List.suffix_append dest _).isInfix
  | case2 a b l hpair ih =>
      rw [Scaf.replacePair, if_neg hpair]
      rcases List.infix_cons_iff.mp h with hstart | h
      · obtain ⟨rfl, hnext⟩ := List.cons_prefix_cons.mp hstart
        obtain ⟨rfl, -⟩ := List.cons_prefix_cons.mp hnext
        have hhead : ∃ rest, Scaf.replacePair first second dest (y :: l) = y :: rest := by
          cases l with
          | nil => exact ⟨[], rfl⟩
          | cons z l =>
              rw [Scaf.replacePair, if_neg fun hc => hy hc.1]
              exact ⟨_, rfl⟩
        obtain ⟨rest, hrest⟩ := hhead
        rw [hrest]
        exact (List.prefix_append [x, y] rest).isInfix
      · exact (ih h).trans (List.suffix_cons a _).isInfix
  | case3 l hl =>
      rw [replacePair_short hl]
      exact h

theorem mem_replacePair_of_pair (h : [first, second] <:+: l) (hx : x ∈ dest) :
    x ∈ Scaf.replacePair first second dest l := by
  induction l using replacePair.induct first second with
  | case1 a b l hpair ih =>
      rw [Scaf.replacePair, if_pos hpair]
      exact List.mem_append_left _ hx
  | case2 a b l hpair ih =>
      rw [Scaf.replacePair, if_neg hpair]
      rcases List.infix_cons_iff.mp h with hstart | h
      · obtain ⟨rfl, hnext⟩ := List.cons_prefix_cons.mp hstart
        exact absurd ⟨rfl, (List.cons_prefix_cons.mp hnext).1.symm⟩ hpair
      · exact List.mem_cons_of_mem _ (ih h)
  | case3 l hl =>
      obtain ⟨before, after, rfl⟩ := h
      cases before with
      | nil => exact absurd rfl (hl _ _ _)
      | cons z before =>
          cases before with
          | nil => exact absurd rfl (hl _ _ _)
          | cons z' before => exact absurd rfl (hl _ _ _)

theorem mem_replacePair_of_mem (h : x ∈ l) (h₁ : x ≠ first) (h₂ : x ≠ second) :
    x ∈ Scaf.replacePair first second dest l := by
  induction l using replacePair.induct first second with
  | case1 a b l hpair ih =>
      obtain ⟨rfl, rfl⟩ := hpair
      rw [Scaf.replacePair, if_pos ⟨rfl, rfl⟩]
      have hl := (List.mem_cons.mp ((List.mem_cons.mp h).resolve_left h₁)).resolve_left h₂
      exact List.mem_append_right _ (ih hl)
  | case2 a b l hpair ih =>
      rw [Scaf.replacePair, if_neg hpair]
      rcases List.mem_cons.mp h with rfl | h
      · exact List.mem_cons_self
      · exact List.mem_cons_of_mem _ (ih h)
  | case3 l hl =>
      rw [replacePair_short hl]
      exact h

end Pairs

/-- A defined word stays, unless it is one of the two. -/
theorem word_mem_substOptim {name : Symbol} (hadd : name ≠ "add".toList)
    (haddc : name ≠ "addc".toList) :
    ∀ rules : List Rule, rules ⊆ optimRules → ∀ body : List Token, .word name ∈ body →
      .word name ∈ rules.foldl
        (fun body rule => Scaf.replacePair rule.first rule.second rule.dest body) body := by
  intro rules
  induction rules with
  | nil => exact fun _ _ h => h
  | cons rule rules ih =>
      intro hsub body hmem
      refine ih (fun r hr => hsub (List.mem_cons_of_mem _ hr)) _ ?_
      rcases optimRules_sound rule (hsub List.mem_cons_self) with hsound | ⟨hfirst, hsecond, -⟩
      · obtain ⟨t, l₁, l₂, l₀, -, -, h₁, h₂, -⟩ := hsound.sound
        refine mem_replacePair_of_mem hmem ?_ ?_
        · intro heq
          rw [← heq] at h₁
          cases h₁
        · intro heq
          rw [← heq] at h₂
          cases h₂
      · refine mem_replacePair_of_mem hmem ?_ ?_
        · rw [hfirst]
          exact fun heq => Token.noConfusion heq
        · rcases hsecond with h | h <;> rw [h]
          · exact fun heq => hadd (Token.word.inj heq)
          · exact fun heq => haddc (Token.word.inj heq)

/-- The row for one of the two pairs finds it: no row before takes one of its words. -/
theorem unknown_mem_substOptim {name over' : Symbol} {n : Nat}
    (hsplit : optimRules = optimRules.take n ++
      ⟨.kernel .over, .word name, [.word over']⟩ :: optimRules.drop (n + 1))
    (hbefore : ∀ rule ∈ optimRules.take n, .kernel .over ≠ rule.second ∧
      .word name ≠ rule.first ∧ ¬ (.kernel .over = rule.first ∧ .word name = rule.second))
    (hadd : over' ≠ "add".toList) (haddc : over' ≠ "addc".toList)
    (h : [.kernel .over, .word name] <:+: l) : .word over' ∈ substOptim l := by
  have hfold : [.kernel .over, .word name] <:+: (optimRules.take n).foldl
      (fun body rule => Scaf.replacePair rule.first rule.second rule.dest body) l := by
    refine List.foldlRecOn
      (motive := fun body : List Token => [.kernel .over, .word name] <:+: body)
      (optimRules.take n) _ h ?_
    intro body hpair rule hrule
    obtain ⟨h₁, h₂, h₃⟩ := hbefore rule hrule
    exact pair_replacePair hpair h₁ h₂ h₃
  unfold substOptim
  rw [hsplit, List.foldl_append, List.foldl_cons]
  refine word_mem_substOptim hadd haddc _ (List.drop_subset _ _) _ ?_
  exact mem_replacePair_of_pair hfold (List.mem_singleton.mpr rfl)

theorem over_mem_substOptim {name : Symbol} (hname : name = "add".toList ∨ name = "addc".toList)
    (h : [.kernel .over, .word name] <:+: l) : .word ("over".toList ++ name) ∈ substOptim l := by
  rcases hname with rfl | rfl
  · exact @unknown_mem_substOptim _ _ _ 5 (by decide) (by decide) (by decide) (by decide) h
  · exact @unknown_mem_substOptim _ _ _ 6 (by decide) (by decide) (by decide) (by decide) h

/-- A word that is not defined is still there when the calls have been made. -/
theorem op_word_mem_callDefs {names : List Symbol} {body : List Token} {name : Symbol}
    (hname : name ∉ names) (h : .word name ∈ body) : .op (.word name) ∈ callDefs names body := by
  refine List.foldlRecOn (motive := fun lines : List Line => .op (.word name) ∈ lines) names _
    (List.mem_map.mpr ⟨_, h, rfl⟩) ?_
  intro lines hmem word hword
  have hne : name ≠ word := fun heq => hname (heq ▸ hword)
  have hkept : Line.op (.word name) ∈
      Scaf.replacePair (.op (.word word)) (.op .r) [.j word] lines := mem_replacePair_of_mem
    hmem (fun heq => hne (Token.word.inj (Line.op.inj heq)))
    (fun heq => nomatch heq)
  refine List.mem_map.mpr ⟨_, hkept, if_neg fun heq => ?_⟩
  exact hne (Token.word.inj (Line.op.inj heq))

/-- A program with one of the pairs does not assemble, unless the source defines the name that the
optimiser makes of it. -/
theorem noOverAdd_of_assembles {source : List Definition}
    (hadd : "overadd".toList ∉ source.map Definition.name)
    (haddc : "overaddc".toList ∉ source.map Definition.name)
    (h : Assembles (compile true source)) : ∀ d ∈ source, NoOverAdd d.body := by
  intro d hd
  unfold NoOverAdd
  rw [List.isChain_iff_forall_rel_of_append_cons_cons]
  rintro _ second before after hbody ⟨rfl, hsecond⟩
  obtain ⟨name, hcases, rfl⟩ : ∃ name, (name = "add".toList ∨ name = "addc".toList) ∧
      second = Token.word name := by
    rcases hsecond with h | h
    · exact ⟨_, Or.inl rfl, h⟩
    · exact ⟨_, Or.inr rfl, h⟩
  have hpair : [.kernel .over, .word name] <:+: d.body :=
    ⟨before, after, by rw [hbody, List.append_assoc]; rfl⟩
  have hundefined : "over".toList ++ name ∉ source.map Definition.name := by
    rcases hcases with rfl | rfl
    · exact hadd
    · exact haddc
  have hnew : "over".toList ++ name ≠ "add".toList ∧ "over".toList ++ name ≠ "addc".toList := by
    rcases hcases with rfl | rfl <;> decide
  have hinline : Token.word ("over".toList ++ name) ∈ inlineDefs (substOptim d.body) :=
    List.mem_flatMap.mpr ⟨_, over_mem_substOptim hcases hpair, List.mem_singleton.mpr rfl⟩
  have hprepared : Token.word ("over".toList ++ name) ∈ prepared true d.body := by
    rw [prepared_true]
    exact word_mem_substOptim hnew.1 hnew.2 optimRules (List.Subset.refl _) _ hinline
  exact h _ (List.mem_map_of_mem hd) _ (op_word_mem_callDefs hundefined hprepared)

/-- The optimiser preserves the meaning of a source without the pairs `over add` and `over addc`;
and of no other one, unless that defines the words that there is no macro for. -/
theorem sameMeaning_iff {source : List Definition} (hsource : WellFormed source) :
    ((∀ d ∈ source, NoOverAdd d.body) → SameMeaning source) ∧
      ("overadd".toList ∉ source.map Definition.name →
        "overaddc".toList ∉ source.map Definition.name →
        SameMeaning source → ∀ d ∈ source, NoOverAdd d.body) :=
  ⟨fun h => ⟨assembles_of_noOverAdd hsource h, preserved_of_noOverAdd h⟩,
    fun hadd haddc h => noOverAdd_of_assembles hadd haddc h.assembles⟩

/-- `: same @00 dup xor drop ; : rule_same over same ;` -/
def sameSource : List Definition :=
  [⟨"same".toList, [.kernel (.fetch 1 1), .asm .dup, .kernel .xor, .asm .drop, .r]⟩,
    ⟨"rule_same".toList, [.kernel .over, .word "same".toList, .r]⟩]

theorem sameMeaning_sameSource :
    SameMeaning sameSource ∧ ∀ d ∈ sameSource, NoOverAdd d.body := by
  have hsource : WellFormed sameSource := by
    intro d hd name hname
    simp only [sameSource, List.mem_cons, List.not_mem_nil, or_false] at hd
    rcases hd with rfl | rfl
    · simp at hname
    · simp only [List.mem_cons, List.not_mem_nil, or_false, reduceCtorEq, false_or,
        Token.word.injEq] at hname
      subst hname
      decide
  have hclean : ∀ d ∈ sameSource, NoOverAdd d.body := by
    unfold NoOverAdd
    decide
  exact ⟨(sameMeaning_iff hsource).1 hclean, hclean⟩

/-- `: add xor ; : rule_add over add ;` -/
def addSource : List Definition :=
  [⟨"add".toList, [.kernel .xor, .r]⟩,
    ⟨"rule_add".toList, [.kernel .over, .word "add".toList, .r]⟩]

/-- The optimiser makes `overadd` of it, which is nothing. -/
theorem not_sameMeaning_addSource : WellFormed addSource ∧ ¬ SameMeaning addSource := by
  constructor
  · intro d hd name hname
    simp only [addSource, List.mem_cons, List.not_mem_nil, or_false] at hd
    rcases hd with rfl | rfl
    · simp at hname
    · simp only [List.mem_cons, List.not_mem_nil, or_false, reduceCtorEq, false_or,
        Token.word.injEq] at hname
      subst hname
      decide
  · intro h
    have hclean := noOverAdd_of_assembles (by decide) (by decide) h.assembles
    unfold NoOverAdd at hclean
    revert hclean
    decide

end Meaning

end Scaf

end PureDataPacket
