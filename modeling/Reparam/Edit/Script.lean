import Reparam.Edit.Basic

/-! Layered scripts: the indices of every edit refer to the list that the edits before it leave. -/
namespace Reparam

variable {α : Type}

abbrev Script := List Edit

namespace Script

/-- Applies the edits one after the other and stops at the first that does not fit. -/
def run (fresh : ValueType → α) (retype : ValueType → α → α) :
    Script → List α → Except ScriptError (List α)
  | [], xs => .ok xs
  | e :: rest, xs =>
    match e.apply fresh retype xs with
    | .ok ys => run fresh retype rest ys
    | .error err => .error err

/-- What the script makes of a list of types. -/
def replay (s : Script) (types : List ValueType) : Except ScriptError (List ValueType) :=
  s.run (fun t => t) (fun t _ => t) types

/-- The edits of a leading range, moved back in a longer list. -/
def offset (delta limit : Nat) (s : Script) : Script :=
  (s.filter (·.withinLimit limit)).map (·.offset delta)

/-- The script followed by another one that is moved back. -/
def merge (s other : Script) (offset : Nat) : Script := s ++ other.map (·.offset offset)

def count (s : Script) (kind : EditKind) : Nat := s.countP (·.kind = kind)

def insertions (s : Script) : List (Nat × ValueType) :=
  s.filterMap fun | .insert index t => some (index, t) | _ => none

def replacements (s : Script) : List (Nat × ValueType) :=
  s.filterMap fun | .replace index t => some (index, t) | _ => none

def removals (s : Script) : List Nat :=
  s.filterMap fun | .remove index => some index | _ => none

def display (s : Script) : String := "[" ++ String.intercalate "; " (s.map (·.display)) ++ "]"

end Script
end Reparam
