import Reparam.Type.Basic

/-! Instructions of a stack machine, as far as moving locals about needs them: which slot is
addressed, where straight-line runs end, and where control does not go on. -/
namespace Reparam

/-- The highest slot that a method can address. Numbers above it are reserved. -/
def maxSlot : Nat := 0xFFFF

/-- The slot of references to a removed parameter in code that is never reached. -/
def unreachableSlot : Nat := 0xFFFFFFFF

/-- The slot that references are parked at while a change of slots is half done. -/
def placeholderSlot : Nat := 0xFFFFFFFE

def isReserved (slot : Nat) : Bool := maxSlot < slot

/-- The category of a value that is loaded or stored. -/
inductive ValueKind where
  | int | long | float | double | reference
deriving DecidableEq, Repr

def ValueType.kind : ValueType → ValueKind
  | .boolean | .byte | .char | .short | .int => .int
  | .long => .long
  | .float => .float
  | .double => .double
  | .object _ | .array _ => .reference

/-- What a branch tests; all tests but those for null are one. -/
inductive Condition where
  | isNull | isNonNull | other
deriving DecidableEq, Repr

/-- An instruction. Those that nothing here looks into are kept by their code. -/
inductive Instruction where
  | load (slot : Nat) (kind : ValueKind)
  | store (slot : Nat) (kind : ValueKind)
  | increment (slot : Nat) (delta : Int)
  | invoke (owner name descriptor : String)
  | const (value : Int)
  | branch (condition : Condition) (target : Nat)
  | jump (target : Nat)
  | label (id : Nat)
  | line (number : Nat)
  | ret
  | throw
  | other (code : Nat)
deriving DecidableEq, Repr

namespace Instruction

/-- The slot that the instruction reads or writes. -/
def slot? : Instruction → Option Nat
  | load slot _ | store slot _ | increment slot _ => some slot
  | _ => none

/-- The instruction at another slot; one without a slot stays as it is. -/
def withSlot (slot : Nat) : Instruction → Instruction
  | load _ kind => load slot kind
  | store _ kind => store slot kind
  | increment _ delta => increment slot delta
  | i => i

def mapSlot (f : Nat → Nat) (i : Instruction) : Instruction :=
  match i.slot? with
  | some slot => i.withSlot (f slot)
  | none => i

/-- Labels and line markers end a straight-line run. -/
def isBoundary : Instruction → Bool
  | label _ | line _ => true
  | _ => false

def isNullCheck : Instruction → Bool
  | branch .isNull _ | branch .isNonNull _ => true
  | _ => false

/-- Control never goes on to the next instruction. -/
def isExit : Instruction → Bool
  | ret | throw | jump _ => true
  | _ => false

def isLoadOf (slot : Nat) : Instruction → Bool
  | load s _ => s == slot
  | _ => false

/-- Writes to the slot it addresses. -/
def isWrite : Instruction → Bool
  | store _ _ | increment _ _ => true
  | _ => false

def owner? : Instruction → Option String
  | invoke owner _ _ => some owner
  | _ => none

def label? : Instruction → Option Nat
  | label id => some id
  | _ => none

end Instruction

/-- The instructions of a method, in order. -/
abbrev Code := List Instruction

namespace Code

/-- The addressable slots that the code refers to, ascending, each one once. -/
def referencedSlots (code : Code) : List Nat :=
  ((code.filterMap (·.slot?)).filter fun slot => !isReserved slot).eraseDups.mergeSort

/-- The positions of the instructions that address a slot. -/
def positionsOf (code : Code) (slot : Nat) : List Nat :=
  (code.zipIdx.filter fun (i, _) => i.slot? == some slot).map (·.2)

def remap (f : Nat → Nat) (code : Code) : Code := code.map (·.mapSlot f)

/-- How many instructions a remapping changes. -/
def remapCount (f : Nat → Nat) (code : Code) : Nat :=
  code.countP fun i => i.slot?.any fun slot => f slot != slot

def redirect (source dest : Nat) : Nat → Nat := fun slot => if slot = source then dest else slot

/-- Points every reference to one slot at another. -/
def retarget (source dest : Nat) (code : Code) : Code := code.remap (redirect source dest)

def retargetCount (source dest : Nat) (code : Code) : Nat := code.remapCount (redirect source dest)

/-- Inserts right behind a position, or at the end if the position is past it. -/
def insertAfter (code : Code) (index : Nat) (added : Code) : Code :=
  code.take (index + 1) ++ added ++ code.drop (index + 1)

/-- Puts a sequence in the place of one instruction. -/
def replaceAt (code : Code) (index : Nat) (added : Code) : Code :=
  if index < code.length then code.take index ++ added ++ code.drop (index + 1) else code

/-- Which instructions can be reached, when `live` says whether the first one can be fallen into.
Every label may be jumped to, and nothing behind an exit is reached before the next label. -/
def reachableFrom (live : Bool) : Code → List Bool
  | [] => []
  | i :: rest =>
    let here := live || i.label?.isSome
    here :: reachableFrom (here && !i.isExit) rest

def reachable (code : Code) : List Bool := code.reachableFrom true

/-- The first and the last label, which together span the method. -/
def outerLabels? (code : Code) : Option (Nat × Nat) :=
  match code.filterMap (·.label?) with
  | [] => none
  | first :: rest => some (first, rest.getLastD first)

end Code
end Reparam
