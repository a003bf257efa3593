/-
# `PureDataPacket.Kernel.Symbol` — type descriptions and how they match

A packet's type description is an interned symbol such as `image/grey/320x240`.
Interning makes pointer equality the equality of names, so a symbol *is* its
name here.  Two things are done with a name: it is split at every `/`
(`pdp_type_to_list`) and compared word by word, `*` matching anything
(`pdp_type_description_match`).

The numbers inside the last word are printed with `%d` and read back with
`%dx%d`; both directions are modelled, since a constructor prints what a
factory reads.
-/
import Mathlib.Data.Int.Init
import Mathlib.Data.List.Basic

namespace PureDataPacket

/-- An interned symbol: its name, without the terminating zero. -/
abbrev Symbol := List Char

/-- `PDP_SYM_WILDCARD`. -/
def symWildcard : Symbol := ['*']

/-- `pdp_gensym("invalid")`, the description of a handle without a packet. -/
def symInvalid : Symbol := ['i', 'n', 'v', 'a', 'l', 'i', 'd']

/-- `pdp_gensym("unknown")`, the description of a packet that has none. -/
def symUnknown : Symbol := ['u', 'n', 'k', 'n', 'o', 'w', 'n']

/-- The loop of `pdp_type_to_list`: `last` holds the characters read since the
last `/`. -/
def typeToListFrom : List Char → List Char → List Symbol
  | [], last => [last]
  | c :: cs, last =>
      if c = '/' then last :: typeToListFrom cs []
      else typeToListFrom cs (last ++ [c])

/-- `pdp_type_to_list`: the words of a name, possibly empty ones. -/
def pdpTypeToList (type : Symbol) : List Symbol := typeToListFrom type []

/-- The comparison loop of `pdp_type_description_match`: it stops at the end of
the shorter list with what is left of both, or at a difference. -/
def compareWords : List Symbol → List Symbol → Option (List Symbol × List Symbol)
  | d :: ad, p :: ap =>
      if d = symWildcard then compareWords ad ap
      else if p = symWildcard then compareWords ad ap
      else if d ≠ p then none
      else compareWords ad ap
  | ad, ap => some (ad, ap)

/-- `pdp_type_description_match`. -/
def pdpTypeDescriptionMatch (description pattern : Symbol) : Bool :=
  if description = pattern then true
  else
    match compareWords (pdpTypeToList description) (pdpTypeToList pattern) with
    | none => false
    | some ([], []) => true
    | some (ad, ap) =>
        -- the shorter of the two has to end in a wildcard
        if ap ≠ [] ∧ (pdpTypeToList description).getLast? ≠ some symWildcard then false
        else if ad ≠ [] ∧ (pdpTypeToList pattern).getLast? ≠ some symWildcard then false
        else true

example : pdpTypeDescriptionMatch "image/grey/8x8".toList "image/*/*".toList = true := by
  decide

example : pdpTypeDescriptionMatch "invalid".toList "image/*/*".toList = false := by
  decide

end PureDataPacket
