import Reparam.Diff.Basic

/-! Comparison in a single pass with one cursor on either list. Every mismatch is taken for a swap of
neighbours, a run of insertions, a removal or a replacement. It knows no moves and looks one element
ahead, so it is meant for small windows. -/
namespace Reparam.SinglePass

/-- What parameters are compared by. -/
structure Mark where
  type : ValueType
  generated : Bool
deriving DecidableEq, Repr

/-- What a pass found. Insertions, replacements and swaps index the list with the insertions in
place; each removal indexes the list that the removals before it leave. -/
structure Findings where
  insertions : List (Nat × ValueType) := []
  replacements : List (Nat × ValueType) := []
  swaps : List (Nat × Nat) := []
  removals : List Nat := []
  consumed : Nat := 0
deriving DecidableEq, Repr

namespace Findings

def isEmpty (f : Findings) : Bool :=
  f.insertions.isEmpty && f.replacements.isEmpty && f.swaps.isEmpty && f.removals.isEmpty

def toScript (f : Findings) : Script :=
  f.insertions.map (fun (i, t) => .insert i t) ++ f.replacements.map (fun (i, t) => .replace i t) ++
    f.swaps.map (fun (a, b) => .swap a b) ++ f.removals.map .remove

def consume (n : Nat) (f : Findings) : Findings := { f with consumed := f.consumed + n }

end Findings

/-- What is made of the two elements at the cursors. An insertion takes the element at the target's
cursor and some more behind it. -/
inductive Verdict where
  | keep | swap | remove | replace
  | insert (further : Nat)

/-- The two elements at the cursors come in the other order in the target. -/
def exchanged (old new : Mark) : List Mark → List Mark → Bool
  | nextOld :: _, nextNew :: _ => nextOld.type = new.type && nextNew = old
  | _, _ => false

/-- The reference lines up again without its element at the cursor. The element after next is
looked up by the target's cursor. -/
def dropped (whole : List Mark) (cursor : Nat) (new : Mark) : List Mark → List Mark → Bool
  | nextOld :: _, nextNew :: _ => nextOld = new && whole[cursor + 2]?.all (· = nextNew)
  | _, _ => false

/-- How many elements stand before the one that the reference element reappears as. Where only the
names differ, any element of the type will do. -/
def reappears? (old new : Mark) (ahead : List Mark) : Option Nat :=
  ahead.findIdx? fun m =>
    old.type = m.type && (old.type = new.type || old.generated = m.generated)

/-- Judges the elements at the cursors, with those behind them. -/
def verdict (whole : List Mark) (cursor : Nat) (old new : Mark) (olds news : List Mark) : Verdict :=
  if old = new then .keep
  else if exchanged old new olds news then .swap
  else
    match reappears? old new news with
    | some further => .insert further
    | none =>
      if dropped whole cursor new olds news then .remove
      else if old.type = new.type then .keep
      else .replace

/-- Numbers types from an index on. -/
def numbered (index : Nat) (marks : List Mark) : List (Nat × ValueType) :=
  (marks.zipIdx index).map fun (m, i) => (i, m.type)

/-- Walks on from two cursors. `whole` is the reference list, `index` the place in it with the
insertions so far, and `cursor` the place in the target. -/
def walk (whole : List Mark) (index cursor : Nat) : List Mark → List Mark → Findings
  | _, [] => {}
  | [], news => { insertions := numbered index news }
  | old :: olds, new :: news =>
    match verdict whole cursor old new olds news with
    | .keep => (walk whole (index + 1) (cursor + 1) olds news).consume 1
    | .swap =>
      let rest := (walk whole (index + 2) (cursor + 2) (olds.drop 1) (news.drop 1)).consume 2
      { rest with swaps := (index, index + 1) :: rest.swaps }
    | .insert further =>
      let rest := walk whole (index + further + 1) (cursor + further + 1) (old :: olds)
        (news.drop further)
      { rest with
        insertions := numbered index (new :: news.take further) ++ rest.insertions }
    | .remove =>
      let rest := (walk whole (index + 1) cursor olds (new :: news)).consume 1
      { rest with removals := cursor :: rest.removals }
    | .replace =>
      let rest := (walk whole (index + 1) (cursor + 1) olds news).consume 1
      { rest with replacements := (index, new.type) :: rest.replacements }
termination_by old new => old.length + new.length
decreasing_by all_goals grind

/-- Compares two lists. What was consumed of them has to make up for what was inserted and
removed. -/
def compareMarks (reference target : List Mark) : Except DiffError Findings :=
  let f := walk reference 0 0 reference target
  if target.length + f.removals.length = f.consumed + f.insertions.length then .ok f
  else .error (.unbalanced target.length f.consumed f.removals.length f.insertions.length)

def compare (reference target : List Placed) : Except DiffError Findings :=
  compareMarks (reference.map fun p => ⟨p.type, p.synthetic⟩)
    (target.map fun p => ⟨p.type, p.synthetic⟩)

def compareTypes (reference target : List ValueType) : Except DiffError Findings :=
  compareMarks (reference.map (⟨·, false⟩)) (target.map (⟨·, false⟩))

end Reparam.SinglePass
