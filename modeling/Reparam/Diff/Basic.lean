import Reparam.Edit.Script
import Reparam.Parameter.Basic

/-! What can go wrong in a comparison of parameter lists, and what is reported without failing. -/
namespace Reparam

/-- Why no script was found. -/
inductive DiffError where
  | missing (ordinal : Nat)
  | noneLeft (type : ValueType)
  | outsideSpan (index length : Nat)
  | stuck (ordinal : Nat) (type : ValueType) (remaining : Nat)
  | unbalanced (target reference removals insertions : Nat)
  | unfit (error : ScriptError)
  | wrongLength (produced wanted : Nat)
  | wrongTypes (script : Script)
deriving DecidableEq, Repr

namespace DiffError

def reason : DiffError → String
  | missing ordinal => s!"reference parameter {ordinal} is no longer in the working list"
  | noneLeft type => s!"no reference parameter of type {type.source} left to rearrange"
  | outsideSpan index length => s!"rearrangement index {index} outside a span of {length}"
  | stuck ordinal type remaining =>
    s!"reference parameter {ordinal} of type {type.source} cannot be aligned with the " ++
      s!"{remaining} remaining target parameters"
  | unbalanced target reference removals insertions =>
    s!"single-pass comparison consumed {target} target and {reference} reference parameters " ++
      s!"with {removals} removals but recorded {insertions} insertions"
  | unfit error => error.message
  | wrongLength produced wanted =>
    s!"script yields {produced} parameters where the target has {wanted}"
  | wrongTypes script =>
    s!"script {script.display} does not reproduce the target parameter types"

def message (e : DiffError) : String := "parameter diff invariant violated: " ++ e.reason

end DiffError

/-- A reordered span with types that occur more than once on both sides: no move can be put down to
one of those parameters, so they were paired in order of appearance. -/
structure Ambiguity where
  reference : List ValueType
  target : List ValueType
deriving DecidableEq, Repr

def Ambiguity.display (a : Ambiguity) : String :=
  let listed (types : List ValueType) := String.intercalate ", " (types.map (·.source))
  s!"ambiguous rearrangement of [{listed a.reference}] into [{listed a.target}]"

/-- Whether generated names help to tell parameters apart. `auto` lets them if every reference
parameter has a name and some target parameter has a generated one. -/
inductive NameTieBreak where
  | auto | always | never
deriving DecidableEq, Repr

def NameTieBreak.resolve (reference target : List Parameter) : NameTieBreak → Bool
  | auto => reference.all (·.name.isSome) && target.any (·.synthetic)
  | always => true
  | never => false

end Reparam
