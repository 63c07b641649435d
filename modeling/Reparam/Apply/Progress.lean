import Reparam.Apply.Basic
import Reparam.Apply.Retype

/-! The state of an application and the changes that its phases are made of. Nothing is undone when
an application stops, so the body goes along with the error. -/
namespace Reparam

structure Progress where
  body : Body
  table : SlotTable
  changed : Changed := {}
deriving DecidableEq, Repr

/-- An error, and the body as it was left. -/
structure Stopped where
  error : ApplyError
  body : Body
deriving DecidableEq, Repr

namespace Progress

variable {α : Type}

def stop (p : Progress) (error : ApplyError) : Except Stopped α := .error ⟨error, p.body⟩

/-- Makes the table anew from the signature. -/
def rebuild (widths : Widths) (p : Progress) : Except Stopped Progress :=
  match SlotTable.ofSignature widths p.body.signature with
  | .ok table => .ok { p with table }
  | .error shortage => p.stop (.slotAllocation shortage.required)

/-- Notes a number of changed instructions. -/
def tally (count : Nat) (p : Progress) : Progress :=
  if count = 0 then p else { p with changed := { p.changed with instructions := true } }

def changedSignature (p : Progress) : Progress :=
  { p with changed := { p.changed with signature := true } }

def changedFrames (p : Progress) : Progress :=
  { p with changed := { p.changed with signature := true, frames := true } }

def changedSlots (p : Progress) : Progress :=
  { p with changed := { p.changed with slots := true } }

def entry (p : Progress) (ordinal : Nat) : Except Stopped SlotEntry :=
  match p.table.entries[ordinal]? with
  | some entry => .ok entry
  | none => p.stop (.ordinalOutOfRange ordinal p.table.length)

/-- Where a parameter stands once those at some other ordinals are gone. No parameter has the ordinal
of one that stands nowhere. -/
def currentOrdinal (p : Progress) (ordinal : Nat) (gone : List Nat) : Except Stopped Nat :=
  match currentIndex? ordinal gone with
  | some ordinal => .ok ordinal
  | none => p.stop (.ordinalOutOfRange (currentIndex ordinal gone) p.table.length)

/-- Redirects the instructions of the body. -/
def retarget (source dest : Nat) (p : Progress) : Progress :=
  { p with body := { p.body with code := p.body.code.retarget source dest } }.tally
    (p.body.code.retargetCount source dest)

/-- Moves slots for what happened to the locals since a snapshot. -/
def reconcile (widths : Widths) (s : Snapshot) (p : Progress) : Progress :=
  { p with body := s.reconcile widths p.body }.tally (s.reconcileCount widths p.body)

/-- Takes a parameter and a local out, both by index. -/
def withoutParameter (ordinal index : Nat) (p : Progress) : Progress :=
  let signature := { p.body.signature with params := p.body.signature.params.eraseIdx ordinal }
  { p with body := { p.body with signature, locals := p.body.locals.eraseIdx index } }

/-- Drops a parameter with its local. What still refers to it is redirected before everything above
it moves down. -/
def dropParameter (widths : Widths) (ordinal dest : Nat) (p : Progress) :
    Except Stopped Progress := do
  let entry ← p.entry ordinal
  let name := p.body.signature.params[ordinal]?.bind (·.name)
  match p.body.localIndex? entry.slot name with
  | none => p.stop (.missingLocal ordinal entry.slot)
  | some index =>
    let snapshot := Snapshot.take widths p.body
    let p := (p.retarget entry.slot dest).withoutParameter ordinal index
    return (← (p.reconcile widths snapshot).rebuild widths).changedFrames

/-- Remaps the slots of locals and instructions alike. -/
def remapSlots (f : Nat → Nat) (p : Progress) : Progress :=
  let locals := p.body.locals.map fun l => { l with slot := f l.slot }
  let code := p.body.code.remap f
  { p with body := { p.body with locals, code } }.tally (p.body.code.remapCount f)

end Progress
end Reparam
