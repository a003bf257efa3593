/-
# `PureDataPacket.Scaf.Compiler` — the compiler of rules

`scafc.pl` works on text: a definition is a label and a line for each word.
Kernel words are replaced by the macros they stand for, calls of defined words
become jumps and calls, and before and after the first of these steps the
optimiser goes through its table and replaces pairs of words.

A line holds one word, so the text of a definition is the list of its tokens
here, and a global substitution of lines goes through it from left to right.
The names of defined words are taken to be free of the characters that mean
something in a regular expression; they are none of the names of the macros and
the kernel words.
-/
import PureDataPacket.Scaf.Machine
import PureDataPacket.Kernel.Symbol

namespace PureDataPacket

namespace Scaf

/-! ## Words -/

/-- The asm macros that are words, but for `r`. -/
inductive Macro where
  /-- `dropldTL` to `dropldBR` -/
  | dropld (row column : Fin 3)
  | dup
  | drop
  | dropdup
  | nipdup
  | swap
  | nip
  | dropover
  | overxor
  | overand
  | overor
  | not
  | dropzero
  | dropone
  /-- `dupsta0` to `dupsta3` -/
  | dupsta (i : Fin 4)
  /-- `droplda0` to `droplda3` -/
  | droplda (i : Fin 4)
  /-- `a0000` to `a1111` -/
  | ldbin (b3 b2 b1 b0 : Bool)
  /-- `adb0` to `adb3` -/
  | adb (i : Fin 4)
  /-- `dropisnonzero1` to `dropisnonzero4`, for 0 to 3 -/
  | dropisnonzero (i : Fin 4)
  | dropshiftright
  | dropshiftleft
  | dropshiftrighta
  | rotateright
  | rotateleft
  | rotaterightstack
  | rotateleftstack
  | anot
  deriving DecidableEq

/-- The words of `kernel.scaf`. -/
inductive KernelWord where
  | over
  /-- `@-+` to `@+-`: row 0 is `+`, column 0 is `-` -/
  | fetch (row column : Fin 3)
  | or
  | xor
  | and
  | one
  | zero
  /-- `++++` and its like: the counter is added to from bit `low` to bit `high` -/
  | add (low high : Fin 4)
  /-- `!a0` to `!a3` -/
  | sta (i : Fin 4)
  /-- `@a0` to `@a3` -/
  | lda (i : Fin 4)
  | anz
  /-- `?anz1` to `?anz4`, for 0 to 3 -/
  | anzOf (i : Fin 4)
  /-- `a-8` to `a+15`, with the four bits of the number -/
  | constant (b3 b2 b1 b0 : Bool)
  deriving DecidableEq

/-- A line of a definition. -/
inductive Token where
  | asm (m : Macro)
  | kernel (w : KernelWord)
  | word (name : Symbol)
  /-- `r`, for `;` -/
  | r
  /-- a line with nothing on it -/
  | blank
  deriving DecidableEq

/-- The definitions of `kernel.scaf`, without the `;`. -/
def KernelWord.body : KernelWord → List Macro
  | .over => [.dup, .dropover]
  | fetch row column => [.dup, .dropld row column]
  | or => [.overor, .nip]
  | xor => [.overxor, .nip]
  | and => [.overand, .nip]
  | one => [.dup, .dropone]
  | zero => [.dup, .dropzero]
  | add low high => ((List.finRange 4).filter fun i => low ≤ i ∧ i ≤ high).map .adb
  | sta i => [.dupsta i, .drop]
  | lda i => [.dup, .droplda i]
  | anz => [.dup, .dropisnonzero 3]
  | anzOf i => [.dup, .dropisnonzero i]
  | constant b3 b2 b1 b0 => [.ldbin b3 b2 b1 b0]

/-- The rows of `optim.rules`: two words, and the lines that replace them. -/
structure Rule where
  first : Token
  second : Token
  dest : List Token
  deriving DecidableEq

/-- A row with kernel words or macros on the left and a macro on the right. -/
def Rule.toMacro (first second : Token) (m : Macro) : Rule := ⟨first, second, [.asm m]⟩

open Macro KernelWord in
/-- `optim.rules`. -/
def optimRules : List Rule :=
  [.toMacro (.kernel .over) (.kernel xor) overxor,
    .toMacro (.kernel .over) (.kernel and) overand,
    .toMacro (.kernel .over) (.kernel or) overor,
    .toMacro (.asm drop) (.kernel one) dropone,
    .toMacro (.asm drop) (.kernel zero) dropzero,
    ⟨.kernel .over, .word "add".toList, [.word "overadd".toList]⟩,
    ⟨.kernel .over, .word "addc".toList, [.word "overaddc".toList]⟩] ++
  (List.finRange 4).map (fun i => .toMacro (.asm dup) (.kernel (sta i)) (dupsta i)) ++
  (List.finRange 4).map (fun i => .toMacro (.asm drop) (.kernel (lda i)) (droplda i)) ++
  .toMacro (.asm drop) (.kernel anz) (dropisnonzero 3) ::
    [3, 2, 1, 0].map (fun i => .toMacro (.asm drop) (.kernel (anzOf i)) (dropisnonzero i)) ++
  (List.finRange 3).flatMap (fun row => (List.finRange 3).map fun column =>
    .toMacro (.asm drop) (.kernel (fetch row column)) (dropld row column)) ++
  [⟨.asm dup, .asm drop, [.blank]⟩,
    .toMacro (.asm swap) (.asm drop) nip,
    .toMacro (.asm dup) (.asm swap) dup,
    .toMacro (.asm drop) (.asm dup) dropdup,
    .toMacro (.asm drop) (.kernel .over) dropover,
    .toMacro (.asm nip) (.asm dup) nipdup]

/-! ## The passes -/

/-- `s/$key/$subst/g`, for a key of two lines. -/
def replacePair {α : Type} [DecidableEq α] (first second : α) (dest : List α) : List α → List α
  | x :: y :: l =>
      if x = first ∧ y = second then dest ++ replacePair first second dest l
      else x :: replacePair first second dest (y :: l)
  | l => l

/-- A definition after `parse_scaf_line`. -/
structure Definition where
  name : Symbol
  body : List Token

/-- `subst_optim`, for one definition. -/
def substOptim (body : List Token) : List Token :=
  optimRules.foldl (fun body rule => replacePair rule.first rule.second rule.dest body) body

/-- `inline_defs`, for one definition.  The bodies have no kernel words, so their order does not
matter. -/
def inlineDefs (body : List Token) : List Token :=
  body.flatMap fun
    | .kernel w => w.body.map .asm
    | t => [t]

/-- A line after `call_defs`. -/
inductive Line where
  | op (t : Token)
  | c (name : Symbol)
  | j (name : Symbol)
  deriving DecidableEq

/-- `call_defs`, for one definition and one word. -/
def callDef (lines : List Line) (name : Symbol) : List Line :=
  (replacePair (.op (.word name)) (.op .r) [.j name] lines).map fun line =>
    if line = .op (.word name) then .c name else line

/-- `call_defs`, for one definition. -/
def callDefs (names : List Symbol) (body : List Token) : List Line :=
  names.foldl callDef (body.map .op)

/-- The main program, with `$optimize`. -/
def compile (optimize : Bool) (source : List Definition) : List (Symbol × List Line) :=
  source.map fun d =>
    let body := if optimize then substOptim d.body else d.body
    let body := inlineDefs body
    let body := if optimize then substOptim body else body
    (d.name, callDefs (source.map Definition.name) body)

/-! ## What the assembly computes -/

end Scaf

namespace Mmx

/-- `movq` and the arithmetic instructions, with a register as destination. -/
def setReg (i : Nat) (v : BitVec 64) (m : Mmx) : Mmx := { m with mm := Function.update m.mm i v }

def counter (i : Fin 4) : Nat := 4 + i

/-- `movq (SI), %mm0`, which is all of `dropdup`. -/
def dropdup (m : Mmx) : Mmx := m.setReg 0 (m.stack m.si)

/-- `drop`. -/
def drop (m : Mmx) : Mmx := m.dropdup.nip

/-- `nipdup`. -/
def nipdup (m : Mmx) : Mmx := { m with stack := Function.update m.stack m.si (m.mm 0) }

/-- `swap`. -/
def swap (m : Mmx) : Mmx :=
  let m₁ := (m.setReg 1 (m.stack m.si)).nipdup
  m₁.setReg 0 (m₁.mm 1)

/-- `ldbin`: the counter gets the bits, all ones being in `mm3`. -/
def ldbin (bit : Fin 4 → Bool) (m : Mmx) : Mmx :=
  let m₁ := m.setReg 1 (m.mm 1 ^^^ m.mm 1)
  (List.finRange 4).foldl
    (fun m i => m.setReg (counter i) (if bit i then m.mm 3 else m.mm 1)) m₁

/-- `adb0` to `adb3`. -/
def adb (i : Fin 4) (m : Mmx) : Mmx :=
  let m₁ := m.setReg 2 (m.mm (counter i))
  let m₂ := m₁.setReg (counter i) (m₁.mm (counter i) ^^^ m₁.mm 0)
  m₂.setReg 0 (m₂.mm 0 &&& m₂.mm 2)

/-- `dropisnonzero1` to `dropisnonzero4`. -/
def dropisnonzero (i : Fin 4) (m : Mmx) : Mmx :=
  ((List.finRange 4).filter fun k => 1 ≤ k ∧ k ≤ i).foldl
    (fun m k => m.setReg 0 (m.mm 0 ||| m.mm (counter k))) (m.setReg 0 (m.mm 4))

/-- `movq` from one register to another, in turn. -/
def moves (l : List (Nat × Nat)) (m : Mmx) : Mmx :=
  l.foldl (fun m p => m.setReg p.2 (m.mm p.1)) m

def exec (m : Mmx) : Scaf.Macro → Mmx
  | .dropld row column => m.dropld row column
  | .dup => m.dup
  | .drop => m.drop
  | .dropdup => m.dropdup
  | .nipdup => m.nipdup
  | .swap => m.swap
  | .nip => m.nip
  | .dropover => m.setReg 0 (m.stack (m.si + 8))
  | .overxor => m.overxor
  | .overand => m.setReg 0 (m.mm 0 &&& m.stack m.si)
  | .overor => m.setReg 0 (m.mm 0 ||| m.stack m.si)
  | .not => m.setReg 0 (m.mm 0 ^^^ m.mm 3)
  | .dropzero => m.setReg 0 (m.mm 0 ^^^ m.mm 0)
  | .dropone => m.setReg 0 (BitVec.allOnes 64)
  | .dupsta i => m.setReg (counter i) (m.mm 0)
  | .droplda i => m.setReg 0 (m.mm (counter i))
  | .ldbin b3 b2 b1 b0 => m.ldbin fun i => [b0, b1, b2, b3].get i
  | .adb i => m.adb i
  | .dropisnonzero i => m.dropisnonzero i
  | .dropshiftright =>
      let m₁ := m.moves [(4, 0), (5, 4), (6, 5), (7, 6)]
      m₁.setReg 7 (m₁.mm 7 ^^^ m₁.mm 7)
  | .dropshiftleft =>
      let m₁ := m.moves [(7, 0), (6, 7), (5, 6), (4, 5)]
      m₁.setReg 4 (m₁.mm 4 ^^^ m₁.mm 4)
  | .dropshiftrighta => m.moves [(4, 0), (5, 4), (6, 5), (7, 6)]
  | .rotateright => m.moves [(4, 1), (5, 4), (6, 5), (7, 6), (1, 7)]
  | .rotateleft => m.moves [(7, 1), (6, 7), (5, 6), (4, 5), (1, 4)]
  | .rotaterightstack => m.moves [(0, 1), (4, 0), (5, 4), (6, 5), (7, 6), (1, 7)]
  | .rotateleftstack => m.moves [(0, 1), (7, 0), (6, 7), (5, 6), (4, 5), (1, 4)]
  | .anot =>
      (List.finRange 4).foldl (fun m i => m.setReg (counter i) (m.mm (counter i) ^^^ m.mm 3)) m

end Mmx

namespace Scaf

/-- The lines of a definition, up to `r` or a jump; `call` is what the defined words do.  A line
that is no instruction has no meaning, nor has the end of a definition without `r`. -/
def run (call : Symbol → Mmx → Option Mmx) : List Line → Mmx → Option Mmx
  | [], _ => none
  | .op (.asm i) :: l, m => run call l (m.exec i)
  | .op .blank :: l, m => run call l m
  | .op .r :: _, m => some m
  | .op (.kernel _) :: _, _ => none
  | .op (.word _) :: _, _ => none
  | .c name :: l, m => (call name m).bind (run call l)
  | .j name :: _, m => call name m

/-- A call of a defined word, with at most `n` calls inside each other. -/
def callWord (program : List (Symbol × List Line)) : Nat → Symbol → Mmx → Option Mmx
  | 0, _, _ => none
  | n + 1, name, m =>
      match program.lookup name with
      | none => none
      | some lines => run (callWord program n) lines m

end Scaf

end PureDataPacket
