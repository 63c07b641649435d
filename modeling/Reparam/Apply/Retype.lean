import Reparam.Method.Instruction

/-! Code around a parameter that became an object of another class. -/
namespace Reparam.Code

/-- Gives calls on one class another owner if a load of the slot stands before them in their
straight-line run. `loaded` says whether there was one so far. Returns how many calls there were. -/
def retypeCalls (slot : Nat) (old new : String) (loaded : Bool) : Code → Nat × Code
  | [] => (0, [])
  | i :: rest =>
    let later := retypeCalls slot old new (!i.isBoundary && (loaded || i.isLoadOf slot)) rest
    match i with
    | .invoke owner name descriptor =>
      if owner = old && loaded then (later.1 + 1, .invoke new name descriptor :: later.2)
      else (later.1, i :: later.2)
    | _ => (later.1, i :: later.2)

/-- A load of the slot that is not checked for null at once. -/
def isBareLoad (slot : Nat) (i : Instruction) (rest : Code) : Bool :=
  i.isLoadOf slot && !rest.head?.any (·.isNullCheck)

/-- Puts an adapter behind every bare load of a slot. Returns how many there were. -/
def insertAdapters (slot : Nat) (adapter : Code) : Code → Nat × Code
  | [] => (0, [])
  | i :: rest =>
    let later := insertAdapters slot adapter rest
    if isBareLoad slot i rest then (later.1 + 1, i :: adapter ++ later.2)
    else (later.1, i :: later.2)

end Reparam.Code
