/-
# `PureDataPacket.Kernel.Convert` — automatic type conversion

A conversion method takes a packet and a template and returns a new packet, or
-1.  Methods are registered as programs of one or more lines, each program with
a source and a destination pattern.  `_pdp_packet_convert` runs the first
program that fits, looks at what came out, and goes on until the description
matches the template; the lines it ran are then kept in a cache, as one program
that the next conversion between the same two types replays without looking.

The search loop of the code has no bound.  Its model counts iterations, and
running out of the count is an outcome of its own, `Stop.outOfFuel`, that no
theorem takes for an end.
-/
import PureDataPacket.Kernel.PoolSpec

namespace PureDataPacket

open Pool

/-- `t_pdp_conversion_method`: code that works on the pool. -/
abbrev Method : Type := Int → Symbol → Pool → Except Fault (Int × Pool)

/-- `t_pdp_conversion_program`: a list of methods, never empty. -/
structure Program where
  first : Method
  rest : List Method

/-- `pdp_conversion_program_add`: a copy of `tail` is appended. -/
def Program.add (program tail : Program) : Program where
  first := program.first
  rest := program.rest ++ tail.first :: tail.rest

def Program.lines (program : Program) : List Method := program.first :: program.rest

/-- `t_pdp_conversion`. -/
structure Conversion where
  srcPattern : Symbol
  dstPattern : Symbol
  program : Program

/-- `INIT_MAX_CACHE_SIZE`. -/
def maxCacheSize : Nat := 32

/-- What a conversion works on: the pool and `cached_conversion_list`. -/
structure Converter where
  pool : Pool
  cached : List Conversion

/-! ## The lists -/

/-- `_pdp_type_find_conversion_program`, on `conversion_list`. -/
def findConversion (table : List Conversion) (src dst : Symbol) : Option Conversion :=
  table.find? fun c =>
    pdpTypeDescriptionMatch src c.srcPattern && pdpTypeDescriptionMatch dst c.dstPattern

/-- `_pdp_type_find_cached_conversion_program`: an exact match, whose place is
taken by the last element, and which takes the last place. -/
def findCached (src dst : Symbol) (cached : List Conversion) :
    Option (Program × List Conversion) :=
  match cached.findIdx? (fun c => src = c.srcPattern ∧ dst = c.dstPattern) with
  | none => none
  | some i =>
      match cached[i]?, cached.getLast? with
      | some c, some last => some (c.program, (cached.set i last).set (cached.length - 1) c)
      | _, _ => none

/-- `pdp_type_register_cached_conversion`: the oldest entries make room. -/
def registerCached (c : Conversion) (cached : List Conversion) : List Conversion :=
  cached.drop (cached.length + 1 - maxCacheSize) ++ [c]

/-- `pdp_packet_get_description`. -/
def pdpPacketGetDescription (packet : Int) (s : Pool) : Symbol :=
  match s.pdpPacketHeader packet with
  | none => symInvalid
  | some header =>
      match header.desc with
      | none => symUnknown
      | some d => d

theorem description_markUnused (h p : Int) (s : Pool) :
    pdpPacketGetDescription h (pdpPacketMarkUnused p s) = pdpPacketGetDescription h s := by
  unfold pdpPacketGetDescription
  cases hp : s.pdpPacketHeader p with
  | none => rw [pdpPacketMarkUnused_none hp]
  | some q =>
      rw [header_markUnused hp]
      by_cases he : h = p
      · subst he
        simp only [if_true, hp]
      · rw [if_neg he]

theorem description_neg_one (s : Pool) : pdpPacketGetDescription (-1) s = symInvalid := by
  unfold pdpPacketGetDescription
  rw [header_neg_one]

/-! ## What a conversion does -/

/-- The actions of a conversion.  A `line` also says which lines of its program
are still to come. -/
inductive ConvOp where
  | line (m : Method) (rest : List Method) (packet : Int) (template : Symbol)
  | markUnused (packet : Int)
  | description (packet : Int)
  | findCached (src dst : Symbol)
  | registerCached (c : Conversion)

/-- Why a conversion has no result. -/
inductive Stop where
  | fault (e : Fault)
  | outOfFuel
deriving DecidableEq

namespace ConvOp

@[reducible] def Answer : ConvOp → Type
  | line _ _ _ _ => Int
  | markUnused _ => Unit
  | description _ => Symbol
  | findCached _ _ => Option Program
  | registerCached _ => Unit

def exec : ∀ o : ConvOp, Converter → Except Stop (o.Answer × Converter)
  | line m _ packet template, s =>
      match m packet template s.pool with
      | .ok (p, pool) => .ok (p, { s with pool := pool })
      | .error e => .error (.fault e)
  | markUnused packet, s => .ok ((), { s with pool := pdpPacketMarkUnused packet s.pool })
  | description packet, s => .ok (pdpPacketGetDescription packet s.pool, s)
  | findCached src dst, s =>
      match PureDataPacket.findCached src dst s.cached with
      | none => .ok (none, s)
      | some (program, cached) => .ok (some program, { s with cached := cached })
  | registerCached c, s =>
      .ok ((), { s with cached := PureDataPacket.registerCached c s.cached })

end ConvOp

abbrev ConvProg (α : Type) : Type := Prog ConvOp ConvOp.Answer Stop α

namespace ConvProg

/-- The program that performs one action. -/
def call (o : ConvOp) : ConvProg o.Answer := Prog.call o

@[simp] theorem call_bind {β : Type} (o : ConvOp) (f : o.Answer → ConvProg β) :
    (call o).bind f = .act o f := rfl

end ConvProg

open ConvProg (call)

/-! ## `_pdp_packet_convert` -/

/-- The remaining lines of `_pdp_type_run_conversion_program`: each result is
the argument of the next line, and is released when that has returned. -/
def runLines (template : Symbol) : List Method → Int → ConvProg Int
  | [], p => pure p
  | m :: rest, p => do
      let tmp ← call (.line m rest p template)
      call (.markUnused p)
      runLines template rest tmp

/-- `_pdp_type_run_conversion_program`. -/
def runConversionProgram (program : Program) (packet : Int) (template : Symbol) :
    ConvProg Int := do
  let p ← call (.line program.first program.rest packet template)
  runLines template program.rest p

/-- The loop of `_pdp_packet_convert`, for a bounded number of iterations. -/
def convertLoop (table : List Conversion) (type template : Symbol) :
    Nat → Program → Int → ConvProg Int
  | 0, _, _ => .crash .outOfFuel
  | n + 1, program, tmpPacket => do
      let tmpType ← call (.description tmpPacket)
      if pdpTypeDescriptionMatch tmpType template then do
        call (.registerCached ⟨type, template, program⟩)
        pure tmpPacket
      else
        match findConversion table tmpType template with
        | none => do
            call (.markUnused tmpPacket)
            pure (-1)
        | some c => do
            let newPacket ← runConversionProgram c.program tmpPacket template
            call (.markUnused tmpPacket)
            convertLoop table type template n (program.add c.program) newPacket

/-- `_pdp_packet_convert`. -/
def pdpPacketConvert (table : List Conversion) (n : Nat) (packet : Int) (template : Symbol) :
    ConvProg Int := do
  let type ← call (.description packet)
  match ← call (.findCached type template) with
  | some program => runConversionProgram program packet template
  | none =>
      match findConversion table type template with
      | none => pure (-1)
      | some c => do
          let tmpPacket ← runConversionProgram c.program packet template
          convertLoop table type template n c.program tmpPacket

/-- What is left to do when no program is cached. -/
def convertUncached (table : List Conversion) (n : Nat) (packet : Int) (template type : Symbol) :
    ConvProg Int :=
  match findConversion table type template with
  | none => .done (-1)
  | some c =>
      (runConversionProgram c.program packet template).bind fun tmpPacket =>
        convertLoop table type template n c.program tmpPacket

/-- The loop ends: some number of iterations is enough, whatever comes of it. -/
def ConvertEnds (table : List Conversion) (packet : Int) (template : Symbol) (s : Converter) :
    Prop :=
  ∃ n, (pdpPacketConvert table n packet template).run ConvOp.exec s ≠ .error .outOfFuel

/-- A pool with one packet, described `type`. -/
def poolWith (type : Symbol) : Pool where
  pdpPool := [some { Packet.fresh 0 ⟨[], DataArea.empty_size_lt⟩ with desc := some type }]
  reusefifo := fun _ => []
  classList := []
  malloc := fun _ => some fun _ => 0
  mallocs := 0
  size_pos := Nat.one_pos

theorem description_poolWith (type : Symbol) :
    pdpPacketGetDescription 0 (poolWith type) = type := rfl

end PureDataPacket
