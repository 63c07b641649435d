import Reparam.Diff.Draft

/-! The comparison of two parameter lists. A script is returned only if it takes the types of the
reference to those of the target. -/
namespace Reparam

/-- A script, and what was noticed on the way without failing. -/
structure DiffReport where
  script : Script
  problems : List Ambiguity
deriving DecidableEq, Repr

def Stage.problem? : Stage → Option Ambiguity
  | .rearrange reference target =>
    match rearrangement reference target with
    | .ok ⟨_, true⟩ => some ⟨reference.map (·.type), target.map (·.type)⟩
    | _ => none
  | _ => none

/-- The stages that a comparison goes through. -/
def stages (names : NameTieBreak) (reference target : List Parameter) : List Stage :=
  plan ⟨reference.length = target.length, names.resolve reference target⟩
    (Placed.ofList reference) (Placed.ofList target)

/-- The script must give the target's number of parameters and their types. -/
def verify (d : Draft) (reference target : List Parameter) : Except DiffError Script :=
  if d.working.length ≠ target.length then
    .error (.wrongLength d.working.length target.length)
  else
    match d.script.replay (Parameter.types reference) with
    | .error err => .error (.unfit err)
    | .ok types =>
      if types = Parameter.types target then .ok d.script else .error (.wrongTypes d.script)

def diffReported (names : NameTieBreak) (reference target : List Parameter) :
    Except DiffError DiffReport := do
  let stages := stages names reference target
  let d ← stages.foldlM Draft.perform (.initial reference.length)
  let script ← verify d reference target
  return ⟨script, stages.filterMap (·.problem?)⟩

/-- The script that turns one list into the other. -/
def diff (names : NameTieBreak) (reference target : List Parameter) : Except DiffError Script := do
  return (← diffReported names reference target).script

def diffTypes (reference target : List ValueType) : Except DiffError Script :=
  diff .never (reference.map .unnamed) (target.map .unnamed)

end Reparam
