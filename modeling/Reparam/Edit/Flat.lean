import Reparam.Edit.Script

/-! Flat scripts: one list for each kind of edit, run in a fixed order. Insertions, replacements and
substitutions index the list with all insertions in place. Reorders index the list before any edit
and are shifted for insertions and substitutions. Removals index the list after reordering, and
inlinings the list after removals. -/
namespace Reparam

variable {α β : Type}

/-- A pending swap or move. -/
inductive Reorder where
  | swap (a b : Nat)
  | move (source dest : Nat)
deriving DecidableEq, Repr

namespace Reorder

def mapIndices (f : Nat → Nat) : Reorder → Reorder
  | swap a b => swap (f a) (f b)
  | move source dest => move (f source) (f dest)

/-- Accounts for a parameter inserted at an index. The sum is taken not to overflow a machine word:
an index for which it would lies outside of every list. -/
def shiftedForInsertion (index : Nat) (r : Reorder) : Reorder :=
  r.mapIndices fun i => if index ≤ i then i + 1 else i

/-- Accounts for the parameter at an index being dropped. -/
def shiftedForRemoval (index : Nat) (r : Reorder) : Reorder :=
  r.mapIndices fun i => if index < i then i - 1 else i

def offset (delta : Nat) (r : Reorder) : Reorder := r.mapIndices (· + delta)

def first : Reorder → Nat
  | swap a _ => a
  | move source _ => source

def toEdit : Reorder → Edit
  | swap a b => .swap a b
  | move source dest => .move source dest

end Reorder

/-- In a substitution the target comes before the source. -/
structure FlatScript where
  insertions : List (Nat × ValueType) := []
  replacements : List (Nat × ValueType) := []
  substitutions : List (Nat × Nat) := []
  reorders : List Reorder := []
  removals : List Nat := []
  inlines : List (Nat × Nat) := []
deriving DecidableEq, Repr

/-- Pairs by ascending first component; equal ones keep their order. -/
def ascendingByFirst (pairs : List (Nat × β)) : List (Nat × β) :=
  pairs.mergeSort fun p q => p.1 ≤ q.1

/-- Pairs by descending first component; equal ones keep their order. -/
def descendingByFirst (pairs : List (Nat × β)) : List (Nat × β) :=
  pairs.mergeSort fun p q => q.1 ≤ p.1

def descending (indices : List Nat) : List Nat := indices.mergeSort fun i j => j ≤ i

/-- Where an index points once the elements at some other indices are gone. An index that is listed
more than once counts as often, so that more may be gone in front than there are places. Then the
index points nowhere. -/
def currentIndex? (index : Nat) (gone : List Nat) : Option Nat :=
  let passed := gone.countP (· < index)
  if passed ≤ index then some (index - passed) else none

/-- The same as a machine word that is not checked: an index that points nowhere wraps around. -/
def currentIndex (index : Nat) (gone : List Nat) : Nat :=
  (currentIndex? index gone).getD (index + maxIndex + 1 - gone.countP (· < index))

namespace FlatScript

def length (f : FlatScript) : Nat :=
  f.insertions.length + f.replacements.length + f.substitutions.length + f.reorders.length +
    f.removals.length + f.inlines.length

/-- The edits whose first index lies below a limit, moved back in a longer list. -/
def offset (delta limit : Nat) (f : FlatScript) : FlatScript where
  insertions := (f.insertions.filter (·.1 < limit)).map fun (i, t) => (i + delta, t)
  replacements := (f.replacements.filter (·.1 < limit)).map fun (i, t) => (i + delta, t)
  substitutions := (f.substitutions.filter (·.1 < limit)).map fun (i, j) => (i + delta, j + delta)
  reorders := (f.reorders.filter (·.first < limit)).map (·.offset delta)
  removals := (f.removals.filter (· < limit)).map (· + delta)
  inlines := (f.inlines.filter (·.1 < limit)).map fun (i, g) => (i + delta, g)

/-- Adds another script that is moved back. The largest index stands for no parameter, and edits
that name it are left out. -/
def merge (f other : FlatScript) (offset : Nat) : FlatScript :=
  let shifted := other.offset offset maxIndex
  { insertions := ascendingByFirst (f.insertions ++ shifted.insertions)
    replacements := f.replacements ++ shifted.replacements
    substitutions := f.substitutions ++ shifted.substitutions
    reorders := f.reorders ++ shifted.reorders
    removals := f.removals ++ shifted.removals
    inlines := f.inlines ++ shifted.inlines }

/-- The reorders as they stand once all insertions and substitutions are through. -/
def settledReorders (f : FlatScript) : List Reorder :=
  f.reorders.map fun r =>
    (descendingByFirst f.substitutions).foldl (fun r p => r.shiftedForRemoval p.1)
      ((ascendingByFirst f.insertions).foldl (fun r p => r.shiftedForInsertion p.1) r)

/-- Drops the targets of substitutions in the given order. `gone` holds the targets dropped before:
a source is looked up where it stands without them, and one that points nowhere is out of range. -/
def substituteAll : List (Nat × Nat) → List Nat → List α → Except ScriptError (List α)
  | [], _, xs => .ok xs
  | (target, source) :: rest, gone, xs =>
    if target = source then .error (.selfSubstitution (.substitute target source))
    else if target < xs.length ∧ (currentIndex? source gone).any (· < xs.length) then
      substituteAll rest (target :: gone) (xs.eraseIdx target)
    else .error (.outOfRange (.substitute target source) xs.length)

/-- Runs the kinds of edits over a list in their fixed order. -/
def run (fresh : ValueType → α) (retype : ValueType → α → α) (f : FlatScript) (xs : List α) :
    Except ScriptError (List α) := do
  let through (s : Script) (xs : List α) := s.run fresh retype xs
  let xs ← through ((ascendingByFirst f.insertions).map fun (i, t) => .insert i t) xs
  let xs ← through (f.replacements.map fun (i, t) => .replace i t) xs
  let xs ← substituteAll (descendingByFirst f.substitutions) [] xs
  let xs ← through (f.settledReorders.map (·.toEdit)) xs
  let xs ← through ((descending f.removals).map .remove) xs
  through ((descendingByFirst f.inlines).map fun (i, g) => .inline i g) xs

/-- What the script makes of a list of types. -/
def replay (f : FlatScript) (types : List ValueType) : Except ScriptError (List ValueType) :=
  f.run (fun t => t) (fun t _ => t) types

end FlatScript
end Reparam
