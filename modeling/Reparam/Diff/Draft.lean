import Reparam.Diff.Plan
import Reparam.Diff.SinglePass

/-! A script under construction. The list that it makes of the reference parameters is kept beside
it, so that every index can be read off that list when an edit is added. -/
namespace Reparam

/-- An element of the working list. -/
inductive Entry where
  | reference (ordinal : Nat)
  | inserted
deriving DecidableEq, Repr

structure Draft where
  working : List Entry
  script : Script
deriving DecidableEq, Repr

namespace Draft

def initial (n : Nat) : Draft := ⟨(List.range n).map .reference, []⟩

/-- Adds an edit to the script and carries it out on the working list. -/
def emit (d : Draft) (e : Edit) : Except DiffError Draft :=
  match e.apply (fun _ => .inserted) (fun _ entry => entry) d.working with
  | .ok working => .ok ⟨working, d.script ++ [e]⟩
  | .error err => .error (.unfit err)

/-- Where a reference parameter stands. -/
def position (d : Draft) (ordinal : Nat) : Except DiffError Nat :=
  match d.working.findIdx? (· = .reference ordinal) with
  | some index => .ok index
  | none => .error (.missing ordinal)

/-- Inserts at an index, or at the end if the list is not that long yet. -/
def insertAt (d : Draft) (index : Nat) (t : ValueType) : Except DiffError Draft :=
  d.emit (.insert (min index d.working.length) t)

def remove (d : Draft) (ordinal : Nat) : Except DiffError Draft := do
  d.emit (.remove (← d.position ordinal))

/-- Swaps neighbours and moves over longer ways. A destination past the end stands for the last
place. -/
def reorder (d : Draft) (source dest : Nat) : Except DiffError Draft :=
  let dest := min dest (d.working.length - 1)
  if source = dest then .ok d
  else if source + 1 = dest ∨ dest + 1 = source then d.emit (.swap source dest)
  else d.emit (.move source dest)

/-- Takes a reference parameter to where another one stands. -/
def shift (d : Draft) (s : Shift) : Except DiffError Draft := do
  let source ← d.position s.moved
  let dest ← d.position s.place
  d.reorder source dest

def rearrange (d : Draft) (reference target : List Placed) : Except DiffError Draft := do
  let r ← rearrangement reference target
  r.shifts.foldlM shift d

/-- Settles a window by a single pass. Reference parameters that the pass did not come to are gone
from the target. -/
def compareWindow (d : Draft) (reference target : List Placed) : Except DiffError Draft :=
  match reference with
  | [] => .ok d
  | first :: _ => do
    let start ← d.position first.ordinal
    let findings ← SinglePass.compare reference target
    let d ← (findings.toScript.map (·.offset start)).foldlM emit d
    ((reference.drop findings.consumed).reverse.map (·.ordinal)).foldlM remove d

/-- Carries out a stage of a plan. -/
def perform (d : Draft) : Stage → Except DiffError Draft
  | .remove ordinal => d.remove ordinal
  | .insertBehind ordinal t => do d.insertAt ((← d.position ordinal) + 1) t
  | .insertAt index t => d.insertAt index t
  | .moveTo ordinal dest => do d.reorder (← d.position ordinal) dest
  | .replace ordinal t => do d.emit (.replace (← d.position ordinal) t)
  | .swap a b => do
    let i ← d.position a
    let j ← d.position b
    d.emit (.swap i j)
  | .rearrange reference target => d.rearrange reference target
  | .window reference target => d.compareWindow reference target
  | .stuck ordinal t remaining => .error (.stuck ordinal t remaining)

end Draft
end Reparam
