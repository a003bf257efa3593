/-
# `PureDataPacket.Scaf.Library` — the rules of the library

Every rule in `carules.scaf` leaves one item, which in each lane is a function of the nine cells of
that lane.  The macros are run on a pile of values that are known, with registers that are not known
at first: what such a run finds is what the machine does, whatever was on its stack and in its
registers, and the same run can be made with words, with bits, and with no values at all.

| | |
| :-- | :-- |
| `Pile.exec` | a macro, on what is known |
| `holds_execs` | what is known is so |
| `execs_map` | the runs with words, bits and no values are one run |
| `library_computes` | the rules of the library |
-/
import PureDataPacket.Lib.Gates
import PureDataPacket.Scaf.Life
import PureDataPacket.Scaf.Torus

namespace PureDataPacket

open Scaf (Macro KernelWord Token Definition)

/-! ## Piles -/

/-- The items that a routine has put on the stack, and the counter. -/
structure Pile (V : Type) where
  items : List (Option V)
  counter : Fin 4 → Option V

namespace Pile

variable {V W : Type}

/-- A macro, if all that it moves or computes is on the pile; the shifts and rotations of the
counter are left out. -/
def exec (G : Gates V) (cells : Fin 3 → Fin 3 → V) (p : Pile V) : Macro → Option (Pile V)
  | .dropld row column =>
      match p.items with
      | _ :: l => some { p with items := some (cells row column) :: l }
      | [] => none
  | .dup =>
      match p.items with
      | v :: l => some { p with items := v :: v :: l }
      | [] => some { p with items := [none] }
  | .drop =>
      match p.items with
      | _ :: l => some { p with items := l }
      | [] => none
  | .nip =>
      match p.items with
      | v :: _ :: l => some { p with items := v :: l }
      | _ => none
  | .swap =>
      match p.items with
      | v :: w :: l => some { p with items := w :: v :: l }
      | _ => none
  | .overxor =>
      match p.items with
      | v :: w :: l => some { p with items := Gates.lift G.xor v w :: w :: l }
      | _ => none
  | .overand =>
      match p.items with
      | v :: w :: l => some { p with items := Gates.lift G.and v w :: w :: l }
      | _ => none
  | .overor =>
      match p.items with
      | v :: w :: l => some { p with items := Gates.lift G.or v w :: w :: l }
      | _ => none
  | .not =>
      match p.items with
      | v :: l => some { p with items := Gates.lift G.xor v (some G.full) :: l }
      | [] => none
  | .droplda i =>
      match p.items with
      | _ :: l => some { p with items := p.counter i :: l }
      | [] => none
  | .ldbin b3 b2 b1 b0 =>
      let bit := fun i => if [b0, b1, b2, b3].get i then G.full else G.zero
      some ⟨p.items, fun i => some (bit i)⟩
  | .adb i =>
      match p.items with
      | v :: l => some ⟨Gates.lift G.and v (p.counter i) :: l,
          Function.update p.counter i (Gates.lift G.xor (p.counter i) v)⟩
      | [] => none
  | _ => none

def execs (G : Gates V) (cells : Fin 3 → Fin 3 → V) (is : List Macro) (p : Pile V) :
    Option (Pile V) :=
  match is with
  | [] => some p
  | i :: is => (p.exec G cells i).bind (execs G cells is)

/-- Nothing on the pile, and nothing known of the counter. -/
def start : Pile V := ⟨[], fun _ => none⟩

def map (φ : V → W) (p : Pile V) : Pile W :=
  ⟨p.items.map (Option.map φ), fun i => (p.counter i).map φ⟩

section Map

variable {G : Gates V} {G' : Gates W} {φ : V → W}

theorem exec_map (h : Gates.Hom G G' φ) (cells : Fin 3 → Fin 3 → V) (p : Pile V) (i : Macro) :
    (p.map φ).exec G' (fun row column => φ (cells row column)) i =
      (p.exec G cells i).map (map φ) := by
  obtain ⟨items, counter⟩ := p
  cases i
  case dropld row column => rcases items with _ | ⟨v, l⟩ <;> rfl
  case dup => rcases items with _ | ⟨v, l⟩ <;> rfl
  case drop => rcases items with _ | ⟨v, l⟩ <;> rfl
  case nip => rcases items with _ | ⟨v, _ | ⟨w, l⟩⟩ <;> rfl
  case swap => rcases items with _ | ⟨v, _ | ⟨w, l⟩⟩ <;> rfl
  case droplda i => rcases items with _ | ⟨v, l⟩ <;> rfl
  case overxor =>
    rcases items with _ | ⟨v, _ | ⟨w, l⟩⟩
    · rfl
    · rfl
    · simp only [exec, map, List.map_cons, Option.map_some, Gates.map_lift h.xor]
  case overand =>
    rcases items with _ | ⟨v, _ | ⟨w, l⟩⟩
    · rfl
    · rfl
    · simp only [exec, map, List.map_cons, Option.map_some, Gates.map_lift h.and]
  case overor =>
    rcases items with _ | ⟨v, _ | ⟨w, l⟩⟩
    · rfl
    · rfl
    · simp only [exec, map, List.map_cons, Option.map_some, Gates.map_lift h.or]
  case not =>
    rcases items with _ | ⟨v, l⟩
    · rfl
    · simp only [exec, map, List.map_cons, Option.map_some, Gates.map_lift h.xor, h.full]
  case ldbin b3 b2 b1 b0 =>
    simp only [exec, map, Option.map_some, apply_ite φ, h.full, h.zero]
  case adb i =>
    rcases items with _ | ⟨v, l⟩
    · rfl
    · simp only [exec, map, List.map_cons, Option.map_some, Gates.map_lift h.and]
      congr 2
      funext k
      rcases eq_or_ne k i with rfl | hk
      · rw [Function.update_self, Function.update_self, Gates.map_lift h.xor]
      · rw [Function.update_of_ne hk, Function.update_of_ne hk]
  all_goals rfl

theorem execs_map (h : Gates.Hom G G' φ) (cells : Fin 3 → Fin 3 → V) (is : List Macro)
    (p : Pile V) : execs G' (fun row column => φ (cells row column)) is (p.map φ) =
      (execs G cells is p).map (map φ) := by
  induction is generalizing p with
  | nil => rfl
  | cons i is ih =>
      unfold execs
      rw [exec_map h]
      cases p.exec G cells i with
      | none => rfl
      | some p => exact ih p

end Map

end Pile

/-! ## The machine -/

namespace Mmx

/-- The stack: the top in its register, the rest in memory. -/
def item (m : Mmx) : Nat → BitVec 64
  | 0 => m.mm 0
  | i + 1 => m.stack (m.si + 8 * i)

section Items

variable (m : Mmx)

theorem item_dup (i : Nat) : m.dup.item (i + 1) = m.item i := by
  have hstack : m.dup.item (i + 1) =
      Function.update m.stack (m.si - 8) (m.mm 0) (m.si - 8 + 8 * i) := rfl
  rw [hstack]
  cases i with
  | zero =>
      have haddr : m.si - 8 + 8 * ((0 : Nat) : Int) = m.si - 8 := by omega
      rw [haddr, Function.update_self]
      rfl
  | succ i =>
      have haddr : m.si - 8 + 8 * ((i + 1 : Nat) : Int) = m.si + 8 * i := by omega
      rw [haddr, Function.update_of_ne (by omega)]
      rfl

theorem item_nip (i : Nat) : m.nip.item (i + 1) = m.item (i + 2) := by
  have haddr : m.si + 8 + 8 * (i : Int) = m.si + 8 * ((i + 1 : Nat) : Int) := by omega
  exact congrArg m.stack haddr

theorem item_drop (i : Nat) : m.drop.item i = m.item (i + 1) := by
  cases i with
  | zero =>
      have haddr : m.si = m.si + 8 * ((0 : Nat) : Int) := by omega
      exact congrArg m.stack haddr
  | succ i => exact m.dropdup.item_nip i

theorem item_second : m.stack m.si = m.item 1 := by
  have haddr : m.si = m.si + 8 * ((0 : Nat) : Int) := by omega
  exact congrArg m.stack haddr

theorem item_swap (i : Nat) : m.swap.item (i + 2) = m.item (i + 2) := by
  have hne : m.si + 8 * ((i + 1 : Nat) : Int) ≠ m.si := by omega
  exact Function.update_of_ne hne ..

end Items

/-- The gates of the machine, with what is in `mm3`. -/
def gates (m : Mmx) : Gates (BitVec 64) where
  zero := 0
  one := BitVec.allOnes 64
  full := m.mm 3
  and := (· &&& ·)
  or := (· ||| ·)
  xor := (· ^^^ ·)

def words (m : Mmx) (row column : Fin 3) : BitVec 64 := m.word row column

/-- A routine that was called in `m₀` has come to `m`, and what is known of it is so. -/
structure Holds (m₀ m : Mmx) (p : Pile (BitVec 64)) : Prop where
  si : m.si = m₀.si - 8 * p.items.length
  items : OnTop p.items m.item m₀.item
  counter : ∀ i, Known (p.counter i) (m.mm (counter i))
  full : m.mm 3 = m₀.mm 3
  env : m.env = m₀.env

theorem holds_start (m : Mmx) : Holds m m .start where
  si := by
    show m.si = m.si - 8 * ((0 : Nat) : Int)
    omega
  items := rfl
  counter _ := known_none _
  full := rfl
  env := rfl

section Step

theorem counter_ne (i : Fin 4) : counter i ≠ 0 := by
  unfold counter
  omega

variable {m₀ m : Mmx} {items : List (Option (BitVec 64))} {count : Fin 4 → Option (BitVec 64)}
  {v w : Option (BitVec 64)} {x : BitVec 64}

theorem Holds.setTop (h : Holds m₀ m ⟨v :: items, count⟩) (hw : Known w x) :
    Holds m₀ (m.setReg 0 x) ⟨w :: items, count⟩ where
  si := h.si
  items := ⟨hw, h.items.2⟩
  counter i := by
    rw [setReg_mm, if_neg (counter_ne i)]
    exact h.counter i
  full := h.full
  env := h.env

theorem Holds.second (h : Holds m₀ m ⟨v :: w :: items, count⟩) : Known w (m.stack m.si) := by
  rw [item_second]
  exact h.items.2.1

theorem Holds.dup (h : Holds m₀ m ⟨items, count⟩) (hv : Known v (m.mm 0)) :
    Holds m₀ m.dup ⟨v :: items, count⟩ where
  si := by
    have hsi := h.si
    show m.si - 8 = m₀.si - 8 * ((items.length + 1 : Nat) : Int)
    rw [hsi]
    push_cast
    omega
  items := by
    refine ⟨hv, ?_⟩
    have hitem : (fun i => m.dup.item (i + 1)) = m.item := funext m.item_dup
    rw [hitem]
    exact h.items
  counter := h.counter
  full := h.full
  env := h.env

theorem Holds.drop (h : Holds m₀ m ⟨v :: items, count⟩) : Holds m₀ m.drop ⟨items, count⟩ where
  si := by
    have hsi := h.si
    rw [List.length_cons] at hsi
    show m.si + 8 = _
    rw [hsi]
    push_cast
    omega
  items := by
    have hitem : m.drop.item = fun i => m.item (i + 1) := funext m.item_drop
    rw [hitem]
    exact h.items.2
  counter i := by
    have hmm : m.drop.mm (Mmx.counter i) = m.mm (Mmx.counter i) :=
      Function.update_of_ne (counter_ne i) ..
    rw [hmm]
    exact h.counter i
  full := h.full
  env := h.env

theorem Holds.nip (h : Holds m₀ m ⟨v :: w :: items, count⟩) :
    Holds m₀ m.nip ⟨v :: items, count⟩ where
  si := by
    have hsi := h.si
    simp only [List.length_cons] at hsi ⊢
    show m.si + 8 = _
    rw [hsi]
    push_cast
    omega
  items := by
    refine ⟨h.items.1, ?_⟩
    have hitem : (fun i => m.nip.item (i + 1)) = fun i => m.item (i + 2) := funext m.item_nip
    rw [hitem]
    exact h.items.2.2
  counter := h.counter
  full := h.full
  env := h.env

theorem Holds.swap (h : Holds m₀ m ⟨v :: w :: items, count⟩) :
    Holds m₀ m.swap ⟨w :: v :: items, count⟩ where
  si := h.si
  items := by
    have hsecond : m.swap.item 1 = m.item 0 := by
      rw [← item_second]
      exact Function.update_self ..
    have hrest : (fun i => m.swap.item (i + 1 + 1)) = fun i => m.item (i + 1 + 1) :=
      funext m.item_swap
    refine ⟨h.second, ?_, ?_⟩
    · show Known v (m.swap.item 1)
      rw [hsecond]
      exact h.items.1
    · rw [hrest]
      exact h.items.2.2
  counter i := by
    have hne : Mmx.counter i ≠ 1 := by
      unfold Mmx.counter
      omega
    have hmm : m.swap.mm (Mmx.counter i) = m.mm (Mmx.counter i) :=
      (Function.update_of_ne (counter_ne i) ..).trans (Function.update_of_ne hne ..)
    rw [hmm]
    exact h.counter i
  full := h.full
  env := h.env

theorem Holds.dropld (h : Holds m₀ m ⟨v :: items, count⟩) (row column : Fin 3) :
    Holds m₀ (m.dropld row column) ⟨some (m₀.words row column) :: items, count⟩ where
  si := h.si
  items := by
    refine ⟨?_, h.items.2⟩
    have hword : (m.dropld row column).item 0 = m₀.words row column := word_congr h.env row column
    rw [hword]
    exact known_some _
  counter i := by
    have hmm : (m.dropld row column).mm (Mmx.counter i) = m.mm (Mmx.counter i) := by
      unfold Mmx.counter
      exact dropld_mm_of_ne m row column (by omega) (by omega)
    rw [hmm]
    exact h.counter i
  full := (dropld_mm_of_ne m row column (by decide) (by decide)).trans h.full
  env := h.env

theorem Holds.ldbin (h : Holds m₀ m ⟨items, count⟩) (bit : Fin 4 → Bool) :
    Holds m₀ (m.ldbin bit) ⟨items, fun i => some (if bit i then m₀.mm 3 else 0)⟩ := by
  have hmm : ∀ j, (m.ldbin bit).mm j =
      if j = 7 then (if bit 3 then m.mm 3 else 0) else if j = 6 then (if bit 2 then m.mm 3 else 0)
      else if j = 5 then (if bit 1 then m.mm 3 else 0)
      else if j = 4 then (if bit 0 then m.mm 3 else 0) else if j = 1 then 0 else m.mm j := by
    intro j
    simp only [Mmx.ldbin, Mmx.counter, List.finRange_succ, List.finRange_zero, List.map_cons,
      List.map_nil, List.foldl_cons, List.foldl_nil, setReg_mm, BitVec.xor_self]
    rfl
  refine ⟨h.si, ?_, fun i => ?_, ?_, h.env⟩
  · have hitem : (m.ldbin bit).item = m.item := by
      funext j
      cases j with
      | zero => exact hmm 0
      | succ j => rfl
    rw [hitem]
    exact h.items
  · rw [hmm]
    have hcounter : ∀ i : Fin 4, i = 0 ∨ i = 1 ∨ i = 2 ∨ i = 3 := by decide
    rw [← h.full]
    rcases hcounter i with rfl | rfl | rfl | rfl
    · exact known_some _
    · exact known_some _
    · exact known_some _
    · exact known_some _
  · exact (hmm 3).trans h.full

theorem Holds.adb (h : Holds m₀ m ⟨v :: items, count⟩) (i : Fin 4) :
    Holds m₀ (m.adb i) ⟨Gates.lift m₀.gates.and v (count i) :: items,
      Function.update count i (Gates.lift m₀.gates.xor (count i) v)⟩ where
  si := h.si
  items := by
    refine ⟨?_, h.items.2⟩
    have htop : (m.adb i).item 0 = m.mm 0 &&& m.mm (Mmx.counter i) := by
      have hmm := adb_mm m i 0
      rw [if_pos rfl] at hmm
      exact hmm
    rw [htop]
    exact h.items.1.lift (h.counter i)
  counter k := by
    have hmm := adb_mm m i (Mmx.counter k)
    rw [if_neg (counter_ne k)] at hmm
    rw [hmm]
    show Known (Function.update count i (Gates.lift m₀.gates.xor (count i) v) k) _
    rcases eq_or_ne k i with rfl | hk
    · rw [Function.update_self]
      have hsame : Mmx.counter k = 4 + (k : Nat) := rfl
      rw [if_pos hsame]
      exact (h.counter k).lift h.items.1
    · rw [Function.update_of_ne hk]
      have hother : Mmx.counter k ≠ 4 + (i : Nat) := by
        unfold Mmx.counter
        have hval : (k : Nat) ≠ i := fun heq => hk (Fin.ext heq)
        omega
      have hscratch : Mmx.counter k ≠ 2 := by
        unfold Mmx.counter
        omega
      rw [if_neg hother, if_neg hscratch]
      exact h.counter k
  full := by
    have hmm := adb_mm m i 3
    rw [if_neg (by decide), if_neg (by omega), if_neg (by decide)] at hmm
    exact hmm.trans h.full
  env := h.env

end Step

section Run

variable {m₀ m : Mmx} {p p' : Pile (BitVec 64)}

theorem holds_exec (h : Holds m₀ m p) {i : Macro}
    (hi : p.exec m₀.gates m₀.words i = some p') : Holds m₀ (m.exec i) p' := by
  obtain ⟨items, count⟩ := p
  cases i
  case dropld row column =>
    rcases items with _ | ⟨v, l⟩ <;> cases hi
    exact h.dropld row column
  case dup =>
    rcases items with _ | ⟨v, l⟩ <;> cases hi
    · exact h.dup (known_none _)
    · exact h.dup h.items.1
  case drop =>
    rcases items with _ | ⟨v, l⟩ <;> cases hi
    exact h.drop
  case nip =>
    rcases items with _ | ⟨v, _ | ⟨w, l⟩⟩ <;> cases hi
    exact h.nip
  case swap =>
    rcases items with _ | ⟨v, _ | ⟨w, l⟩⟩ <;> cases hi
    exact h.swap
  case overxor =>
    rcases items with _ | ⟨v, _ | ⟨w, l⟩⟩ <;> cases hi
    exact h.setTop (h.items.1.lift h.second)
  case overand =>
    rcases items with _ | ⟨v, _ | ⟨w, l⟩⟩ <;> cases hi
    exact h.setTop (h.items.1.lift h.second)
  case overor =>
    rcases items with _ | ⟨v, _ | ⟨w, l⟩⟩ <;> cases hi
    exact h.setTop (h.items.1.lift h.second)
  case not =>
    rcases items with _ | ⟨v, l⟩ <;> cases hi
    refine h.setTop (h.items.1.lift ?_)
    rw [h.full]
    exact known_some _
  case droplda i =>
    rcases items with _ | ⟨v, l⟩ <;> cases hi
    exact h.setTop (h.counter i)
  case ldbin b3 b2 b1 b0 =>
    cases hi
    exact h.ldbin _
  case adb i =>
    rcases items with _ | ⟨v, l⟩ <;> cases hi
    exact h.adb i
  all_goals cases hi

theorem holds_execs (h : Holds m₀ m p) {is : List Macro}
    (his : p.execs m₀.gates m₀.words is = some p') : Holds m₀ (m.execs is) p' := by
  induction is generalizing m p with
  | nil =>
      cases his
      exact h
  | cons i is ih =>
      obtain ⟨p₁, hi, hrest⟩ := Option.bind_eq_some_iff.mp his
      exact ih (holds_exec h hi) hrest

end Run

/-- In a lane, the words are the cells of that lane. -/
theorem hom_lane (m : Mmx) (hones : m.mm 3 = BitVec.allOnes 64) {k : Nat} (hk : k < 64) :
    Gates.Hom m.gates Gates.bit fun v => v.getLsbD k where
  zero := BitVec.getLsbD_zero
  one := by
    show (BitVec.allOnes 64).getLsbD k = true
    rw [BitVec.getLsbD_allOnes, decide_eq_true hk]
  full := by
    show (m.mm 3).getLsbD k = true
    rw [hones, BitVec.getLsbD_allOnes, decide_eq_true hk]
  and _ _ := BitVec.getLsbD_and
  or _ _ := BitVec.getLsbD_or
  xor _ _ := BitVec.getLsbD_xor

end Mmx

/-! ## Rules -/

namespace Scaf

/-- The macros of a definition, with the words that it calls. -/
def expandBody (word : Symbol → Option (List Macro)) : List Token → Option (List Macro)
  | [] => none
  | .asm i :: l => (expandBody word l).map (i :: ·)
  | .kernel w :: l => (expandBody word l).map (w.body ++ ·)
  | .blank :: l => expandBody word l
  | .r :: _ => some []
  | .word name :: l => (word name).bind fun is => (expandBody word l).map (is ++ ·)

/-- The macros of a word, if no more than `n` calls are inside each other. -/
def expand (source : List Definition) : Nat → Symbol → Option (List Macro)
  | 0, _ => none
  | n + 1, name =>
      match source.find? fun d => name == d.name with
      | none => none
      | some d => expandBody (expand source n) d.body

section Expand

variable {source : List Definition} {call : Symbol → Mmx → Option Mmx}
  {word : Symbol → Option (List Macro)}

theorem sem_expandBody
    (hcall : ∀ name is, word name = some is → ∀ m, call name m = some (m.execs is))
    {l : List Token} {is : List Macro} (h : expandBody word l = some is) (m : Mmx) :
    sem call l m = some (m.execs is) := by
  induction l generalizing is m with
  | nil => cases h
  | cons t l ih =>
      cases t with
      | asm i =>
          obtain ⟨js, hl, rfl⟩ := Option.map_eq_some_iff.mp h
          exact ih hl (m.exec i)
      | kernel w =>
          obtain ⟨js, hl, rfl⟩ := Option.map_eq_some_iff.mp h
          rw [← execs_execs]
          exact ih hl (m.execs w.body)
      | blank => exact ih h m
      | r =>
          cases h
          rfl
      | word name =>
          obtain ⟨is', hname, hrest⟩ := Option.bind_eq_some_iff.mp h
          obtain ⟨js, hl, rfl⟩ := Option.map_eq_some_iff.mp hrest
          unfold sem
          rw [hcall name is' hname m, Option.bind_some, ih hl, execs_execs]

theorem callWord_expand {n : Nat} {name : Symbol} {is : List Macro}
    (h : expand source n name = some is) (k : Nat) (m : Mmx) :
    callWord (compile false source) (k + n) name m = some (m.execs is) := by
  induction n generalizing name is m with
  | zero => cases h
  | succ n ih =>
      rw [← Nat.add_assoc, callWord_succ]
      unfold expand at h
      cases hfind : source.find? fun d => name == d.name with
      | none =>
          rw [hfind] at h
          cases h
      | some d =>
          rw [hfind] at h
          exact (sem_inlineDefs _ _ _).trans (sem_expandBody (fun name is hname => ih hname) h m)

end Expand

/-- What is known at the end, if no value is. -/
def shape (is : List Macro) : Option (List (Option Unit)) :=
  (Pile.start.execs Gates.blank (fun _ _ => ()) is).map Pile.items

/-- The bit that a sequence of macros leaves in a lane with these cells. -/
def laneValue (is : List Macro) (cells : Fin 3 → Fin 3 → Bool) : Bool :=
  match Pile.start.execs Gates.bit cells is with
  | some ⟨some b :: _, _⟩ => b
  | _ => false

/-- The rule that a word of the library stands for. -/
def ruleOf (name : Symbol) (cells : Fin 3 → Fin 3 → Bool) : Bool :=
  match expand carules 5 name with
  | some is => laneValue is cells
  | none => false

section Rule

variable {V : Type} {is : List Macro}

theorem run_of_shape (h : shape is = some [some ()]) (G : Gates V) (cells : Fin 3 → Fin 3 → V) :
    ∃ v count, Pile.start.execs G cells is = some ⟨[some v], count⟩ := by
  have hmap := Pile.execs_map (Gates.hom_blank G) cells is Pile.start
  unfold shape at h
  have hstart : (Pile.start : Pile V).map (fun _ => ()) = Pile.start := rfl
  rw [hstart] at hmap
  rw [hmap] at h
  cases hrun : Pile.start.execs G cells is with
  | none =>
      rw [hrun] at h
      cases h
  | some p =>
      obtain ⟨items, count⟩ := p
      rw [hrun] at h
      have hitems : items.map (Option.map fun _ => ()) = [some ()] := Option.some.inj h
      obtain ⟨a, rfl, ha⟩ := List.map_eq_singleton_iff.mp hitems
      obtain ⟨v, rfl, _⟩ := Option.map_eq_some_iff.mp ha
      exact ⟨v, count, rfl⟩

/-- One item is left on what was there, and it is the value in each lane. -/
theorem macros_leave (h : shape is = some [some ()]) (m : Mmx) :
    (m.execs is).si = m.si - 8 ∧ (∀ k, (m.execs is).item (k + 1) = m.item k) ∧
      (m.mm 3 = BitVec.allOnes 64 → ∀ k < 64, ((m.execs is).mm 0).getLsbD k =
        laneValue is fun row column => (m.word row column).getLsbD k) := by
  obtain ⟨v, count, hrun⟩ := run_of_shape h m.gates m.words
  have hholds := Mmx.holds_execs (Mmx.holds_start m) hrun
  refine ⟨hholds.si, fun k => congrFun hholds.items.2 k, fun hones k hk => ?_⟩
  have htop : (m.execs is).mm 0 = v := hholds.items.1 v rfl
  have hlane := Pile.execs_map (Mmx.hom_lane m hones hk) m.words is Pile.start
  rw [hrun] at hlane
  have hbit : Pile.start.execs Gates.bit (fun row column => (m.word row column).getLsbD k) is =
      some ⟨[some (v.getLsbD k)], fun i => (count i).map fun w => w.getLsbD k⟩ := hlane
  unfold laneValue
  rw [hbit, htop]

end Rule

def routine (optimize : Bool) (n : Nat) (name : Symbol) (m : Mmx) : Mmx :=
  (callWord (compile optimize carules) (n + 5) name m).getD m

theorem item_of_similar {m m' : Mmx} (h : Mmx.Similar m m') : m.item = m'.item := by
  funext i
  cases i with
  | zero => exact h.top
  | succ i =>
      have hk := h.stack i
      show m.stack (m.si + 8 * i) = m'.stack (m'.si + 8 * i)
      rw [hk, h.si]

theorem library_shapes : ∀ d ∈ carules, "rule_".toList <+: d.name →
    (expand carules 5 d.name).bind shape = some [some ()] := by
  decide +kernel

section Routine

variable {d : Definition}

/-- The compiled word does, but for scratch registers, what its macros do. -/
theorem calls_macros (optimize : Bool) (n : Nat) {is : List Macro}
    (hexpand : expand carules 5 d.name = some is) (m : Mmx) :
    ∃ m', callWord (compile optimize carules) (n + 5) d.name m = some m' ∧
      Mmx.Similar m' (m.execs is) := by
  have hplain := callWord_expand hexpand n m
  cases optimize with
  | false => exact ⟨_, hplain, .refl _⟩
  | true =>
      have hclean : ∀ d ∈ carules, NoOverAdd d.body := by
        unfold NoOverAdd
        decide
      have hresults := preserved_of_noOverAdd hclean (n + 5) d.name m m (.refl m)
      rw [hplain] at hresults
      generalize callWord (compile true carules) (n + 5) d.name m = result at hresults
      cases hresults with
      | some h => exact ⟨_, rfl, h⟩

theorem routine_computes (optimize : Bool) (n : Nat) (hd : d ∈ carules)
    (hrule : "rule_".toList <+: d.name) :
    ComputesRule (routine optimize n d.name) (ruleOf d.name) := by
  obtain ⟨is, hexpand, hshape⟩ := Option.bind_eq_some_iff.mp (library_shapes d hd hrule)
  have hvalue : ruleOf d.name = laneValue is := by
    unfold ruleOf
    rw [hexpand]
  constructor
  · intro m
    obtain ⟨m', hm', hsimilar⟩ := calls_macros optimize n hexpand m
    rw [routine, hm']
    exact hsimilar.si.trans (macros_leave hshape m).1
  · intro m hones k hk
    obtain ⟨m', hm', hsimilar⟩ := calls_macros optimize n hexpand m
    have htop : m'.mm 0 = (m.execs is).mm 0 := hsimilar.top
    rw [routine, hm', hvalue, Option.getD_some, htop]
    exact (macros_leave hshape m).2.2 hones k hk

/-- Each rule of the library, compiled with the optimiser or without, leaves one item on what was on
the stack, whatever that was and whatever was in the registers.  Each lane of it is the rule that
the words of the library spell, of the cells around that lane. -/
theorem library_computes (optimize : Bool) (n : Nat) (hd : d ∈ carules)
    (hrule : "rule_".toList <+: d.name) :
    ComputesRule (routine optimize n d.name) (ruleOf d.name) ∧
      ∀ m, ∃ m', callWord (compile optimize carules) (n + 5) d.name m = some m' ∧
        ∀ k, m'.item (k + 1) = m.item k := by
  refine ⟨routine_computes optimize n hd hrule, fun m => ?_⟩
  obtain ⟨is, hexpand, hshape⟩ := Option.bind_eq_some_iff.mp (library_shapes d hd hrule)
  obtain ⟨m', hm', hsimilar⟩ := calls_macros optimize n hexpand m
  refine ⟨m', hm', fun k => ?_⟩
  rw [item_of_similar hsimilar]
  exact (macros_leave hshape m).2.1 k

end Routine

/-- A rule that inverts every cell. -/
theorem library_computes_strobe :
    ComputesRule (routine true 0 "rule_strobe".toList) (ruleOf "rule_strobe".toList) :=
  (library_computes true 0 (d := ⟨"rule_strobe".toList, [cellAt 1 1, .asm .not, .r]⟩)
    (List.mem_of_getElem? (i := 23) rfl) (by decide)).1

/-! ## Two of the rules -/

/-- A row of a window, with these three cells in its first lane. -/
def rowOf (a b c : Bool) : BitVec 32 :=
  (if a then 0x8000 else 0) ||| (if b then 0x10000 else 0) ||| (if c then 0x20000 else 0)

/-- A machine that has this neighbourhood in its first lane. -/
def machineOf (cells : Nat → Nat → Bool) : Mmx where
  mm _ := BitVec.allOnes 64
  si := 0
  stack _ := 0
  env n := rowOf (cells (n / 2) 0) (cells (n / 2) 1) (cells (n / 2) 2)

theorem word_machineOf (cells : Nat → Nat → Bool) (row column : Fin 3) :
    ((machineOf cells).word row column).getLsbD 0 = cells row column := by
  have hrow : ∀ a b c : Bool, ∀ k : Fin 3, (rowOf a b c).getLsbD (15 + k) =
      if k = 0 then a else if k = 1 then b else c := by decide
  have hcolumns : ∀ k : Fin 3, k = 0 ∨ k = 1 ∨ k = 2 := by decide
  have henv : (machineOf cells).env (2 * row) =
      rowOf (cells row 0) (cells row 1) (cells row 2) := by
    have hhalf : 2 * (row : Nat) / 2 = row := by omega
    simp only [machineOf, hhalf]
  rw [Mmx.getLsbD_word _ _ column.isLt (by decide), if_pos (by decide), Mmx.getLsbD_load,
    if_pos (by omega), henv, Nat.add_zero, hrow]
  rcases hcolumns column with rfl | rfl | rfl
  · rfl
  · rfl
  · rfl

theorem ruleOf_gameoflife : ruleOf "rule_gameoflife".toList = conway := by
  have hexpand : expand carules 5 "rule_gameoflife".toList =
      some (.ldbin false false false false :: neighbours.flatMap addCell ++ decideCell) := by
    decide +kernel
  have hshape : shape (.ldbin false false false false :: neighbours.flatMap addCell ++ decideCell) =
      some [some ()] := by
    decide +kernel
  funext cells
  let cells' : Nat → Nat → Bool := fun row column => cells (Fin.ofNat 3 row) (Fin.ofNat 3 column)
  have hcells : ∀ row column : Fin 3, cells' row column = cells row column := fun row column =>
    congrArg₂ cells (Fin.ext (Nat.mod_eq_of_lt row.isLt)) (Fin.ext (Nat.mod_eq_of_lt column.isLt))
  have hones : (machineOf cells').mm 3 = BitVec.allOnes 64 := rfl
  have hvalue := (macros_leave hshape (machineOf cells')).2.2 hones 0 (by decide)
  rw [(leaves_macros (machineOf cells') hones).lanes 0 (by decide)] at hvalue
  simp only [word_machineOf, hcells] at hvalue
  unfold ruleOf
  rw [hexpand]
  exact hvalue.symm

/-- The elementary automaton with this number, for a left, a middle and a right cell. -/
def elementary (code : Nat) (l c r : Bool) : Bool :=
  code.testBit (4 * l.toNat + 2 * c.toNat + r.toNat)

/-- The rule that is meant to have the number 110 has the number 118. -/
theorem ruleOf_w110 (cells : Fin 3 → Fin 3 → Bool) :
    ruleOf "rule_w110".toList cells = elementary 118 (cells 1 0) (cells 1 1) (cells 1 2) := by
  have hexpand : expand carules 5 "rule_w110".toList = some [.dup, .dropld 1 1, .dup, .dropld 1 2,
      .overand, .nip, .not, .dup, .dropld 1 0, .dup, .dropld 1 1, .dup, .dropld 1 2, .overor, .nip,
      .overor, .nip, .overand, .nip] := by
    decide +kernel
  unfold ruleOf
  rw [hexpand]
  show (((cells 1 2 || cells 1 1) || cells 1 0) && ((cells 1 2 && cells 1 1) ^^ true)) = _
  generalize cells 1 0 = l
  generalize cells 1 1 = c
  generalize cells 1 2 = r
  revert l c r
  decide

/-! ## Pictures -/

/-- The next state of a ring of cells. -/
def ring (code : Nat) (w : Int) (cells : Int → Bool) (column : Int) : Bool :=
  elementary code (cells ((column - 1) % w)) (cells (column % w)) (cells ((column + 1) % w))

theorem generations_w110 {w h row : Int} (h0 : 0 ≤ row) (hrow : row < h)
    (cells : Int → Int → Bool) (n : Nat) :
    ((generation (ruleOf "rule_w110".toList) w h)^[n] cells) row = (ring 118 w)^[n] (cells row) := by
  induction n with
  | zero => rfl
  | succ n ih =>
      rw [Function.iterate_succ_apply', Function.iterate_succ_apply', ← ih]
      funext column
      have hsame : (row + ((1 : Fin 3) : Nat) - 1) % h = row := by
        have hone : row + (((1 : Fin 3) : Nat) : Int) - 1 = row := by
          show row + 1 - 1 = row
          omega
        rw [hone]
        exact Int.emod_eq_of_lt h0 hrow
      have hleft : column + (((0 : Fin 3) : Nat) : Int) - 1 = column - 1 := by
        show column + 0 - 1 = _
        omega
      have hmiddle : column + (((1 : Fin 3) : Nat) : Int) - 1 = column := by
        show column + 1 - 1 = _
        omega
      have hright : column + (((2 : Fin 3) : Nat) : Int) - 1 = column + 1 := by
        show column + 2 - 1 = _
        omega
      show ruleOf "rule_w110".toList _ = _
      rw [ruleOf_w110, hsame, hleft, hmiddle, hright]
      rfl

end Scaf

namespace Ca

open Scaf

/-- The pictures of a run of steps are the generations of the first one. -/
theorem pictures {rule : Mmx → Mmx} {f : (Fin 3 → Fin 3 → Bool) → Bool} {x : Ca} {w h : Int}
    (hx : x.Ready rule) (hrule : ComputesRule rule f)
    (hpicture : 2 * ((x.packets x.packet0).width * (x.packets x.packet0).height) +
      pdpHeaderSize < 2 ^ 31)
    (hw : (x.packets x.packet0).width = w) (hh : (x.packets x.packet0).height = h)
    (fresh : Int → BitVec 16) :
    ∃ image₀, (x.packets x.packet0).ca2grey fresh = some image₀ ∧ ∀ n, ∃ image,
      ((Ca.step^[n] x).packets (Ca.step^[n] x).packet0).ca2grey fresh = some image ∧
        Shows w h image ((generation f w h)^[n] (cellsOf w image₀)) := by
  subst hw hh
  have hwidth : 0 < ((x.packets x.packet0).width : Int) := by
    have hpos := hx.wellFormed.width_pos
    omega
  have hheight : 0 < ((x.packets x.packet0).height : Int) := by
    have hle := hx.wellFormed.height_le
    omega
  obtain ⟨image₀, himage₀, hshows₀⟩ := CaPacket.ca2grey_spec (hx.wellFormed.shown hpicture) fresh
  refine ⟨image₀, himage₀, fun n => ?_⟩
  obtain ⟨hready, hw, hh, hview⟩ := hx.iterate hrule n
  rw [← hw, ← hh] at hpicture
  obtain ⟨image, himage, hshows⟩ :=
    CaPacket.ca2grey_spec (hready.wellFormed.shown hpicture) fresh
  rw [hw, hh] at hshows
  refine ⟨image, himage, Shows.congr hshows (hview.trans ?_)⟩
  exact (Shows.agree hshows₀).generations hwidth hheight f n

/-- The game of life, as the compiler translates it and `pdp_ca` runs it: picture `n` is generation
`n` of the first picture, on the torus. -/
theorem life_pictures (optimize : Bool) (depth : Nat) {x : Ca} {w h : Int}
    (hx : x.Ready (routine optimize depth "rule_gameoflife".toList))
    (hpicture : 2 * ((x.packets x.packet0).width * (x.packets x.packet0).height) +
      pdpHeaderSize < 2 ^ 31)
    (hw : (x.packets x.packet0).width = w) (hh : (x.packets x.packet0).height = h)
    (fresh : Int → BitVec 16) : ∃ image₀, (x.packets x.packet0).ca2grey fresh = some image₀ ∧
      ∀ n, ∃ image, ((Ca.step^[n] x).packets (Ca.step^[n] x).packet0).ca2grey fresh = some image ∧
        Shows w h image ((generation conway w h)^[n] (cellsOf w image₀)) := by
  have hd : ∃ d ∈ carules, d.name = "rule_gameoflife".toList := by decide
  obtain ⟨d, hmem, hname⟩ := hd
  have hrule := routine_computes optimize depth hmem (hname ▸ by decide)
  rw [hname, ruleOf_gameoflife] at hrule
  exact pictures hx hrule hpicture hw hh fresh

/-- Two packets with one cell in every word, and a rule of the library. -/
def withRule (name : Symbol) : Ca :=
  { ofDimensions 64 4 0 with caRoutine := some (routine true 0 name) }

theorem ready_withRule (name : Symbol) : (withRule name).Ready (routine true 0 name) := by
  have hdistinct : (ofDimensions 64 4 0).packet0 ≠ (ofDimensions 64 4 0).packet1 := by decide
  have hformed : ((ofDimensions 64 4 0).packets 0).WellFormed :=
    ⟨by decide, by decide, by decide, by decide, by decide, by decide, by decide⟩
  exact ⟨rfl, hdistinct, hformed, rfl, rfl⟩

theorem life_pictures_cells : ∃ image₀,
    ((withRule "rule_gameoflife".toList).packets 0).ca2grey (fun _ => 0) = some image₀ ∧
      ∀ n, ∃ image, ((Ca.step^[n] (withRule "rule_gameoflife".toList)).packets
        (Ca.step^[n] (withRule "rule_gameoflife".toList)).packet0).ca2grey (fun _ => 0) =
          some image ∧ Shows 64 4 image ((generation conway 64 4)^[n] (cellsOf 64 image₀)) :=
  life_pictures true 0 (ready_withRule _) (by decide) rfl rfl fun _ => 0

/-- The rule that is meant to have the number 110: each row of picture `n` is state `n` of a ring,
apart from the other rows, with the elementary rule 118. -/
theorem w110_pictures (optimize : Bool) (depth : Nat) {x : Ca} {w h : Int}
    (hx : x.Ready (routine optimize depth "rule_w110".toList))
    (hpicture : 2 * ((x.packets x.packet0).width * (x.packets x.packet0).height) +
      pdpHeaderSize < 2 ^ 31)
    (hw : (x.packets x.packet0).width = w) (hh : (x.packets x.packet0).height = h)
    (fresh : Int → BitVec 16) : ∃ image₀, (x.packets x.packet0).ca2grey fresh = some image₀ ∧
      ∀ n, ∃ image, ((Ca.step^[n] x).packets (Ca.step^[n] x).packet0).ca2grey fresh = some image ∧
        Shows w h image fun row => (ring 118 w)^[n] (cellsOf w image₀ row) := by
  have hd : ∃ d ∈ carules, d.name = "rule_w110".toList := by decide
  obtain ⟨d, hmem, hname⟩ := hd
  have hrule := routine_computes optimize depth hmem (hname ▸ by decide)
  rw [hname] at hrule
  obtain ⟨image₀, himage₀, hrun⟩ := pictures hx hrule hpicture hw hh fresh
  refine ⟨image₀, himage₀, fun n => ?_⟩
  obtain ⟨image, himage, hshows⟩ := hrun n
  refine ⟨image, himage, fun row column h0 hrow h1 hcolumn => ?_⟩
  rw [hshows row column h0 hrow h1 hcolumn, generations_w110 h0 hrow]

theorem w110_pictures_cells : ∃ image₀,
    ((withRule "rule_w110".toList).packets 0).ca2grey (fun _ => 0) = some image₀ ∧
      ∀ n, ∃ image, ((Ca.step^[n] (withRule "rule_w110".toList)).packets
        (Ca.step^[n] (withRule "rule_w110".toList)).packet0).ca2grey (fun _ => 0) = some image ∧
          Shows 64 4 image fun row => (ring 118 64)^[n] (cellsOf 64 image₀ row) :=
  w110_pictures true 0 (ready_withRule _) (by decide) rfl rfl fun _ => 0

end Ca

end PureDataPacket
