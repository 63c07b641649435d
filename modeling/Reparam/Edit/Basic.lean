import Reparam.Type.Descriptor

/-! Edits of a parameter list and what each of them does to a list of any kind of element. -/
namespace Reparam

variable {α : Type}

/-- The largest index. It stands for no parameter. -/
def maxIndex : Nat := Nat.pow 2 64 - 1

/-- One step of a script. Indices are ordinals of parameters, never slots. A substitution drops its
target and lets the source stand in for it; an inlining drops its target for generated code. -/
inductive Edit where
  | insert (index : Nat) (type : ValueType)
  | replace (index : Nat) (type : ValueType)
  | swap (a b : Nat)
  | move (source dest : Nat)
  | remove (index : Nat)
  | substitute (target source : Nat)
  | inline (target generator : Nat)
deriving DecidableEq, Repr

inductive EditKind where
  | insert | replace | substitute | swap | move | remove | inline
deriving DecidableEq, Repr

inductive ScriptError where
  | outOfRange (edit : Edit) (length : Nat)
  | selfSubstitution (edit : Edit)
  | danglingSource (target : Nat)
deriving DecidableEq, Repr

namespace Edit

def kind : Edit → EditKind
  | insert .. => .insert
  | replace .. => .replace
  | swap .. => .swap
  | move .. => .move
  | remove .. => .remove
  | substitute .. => .substitute
  | inline .. => .inline

/-- The index that decides whether an edit lies in a leading range. -/
def primary : Edit → Nat
  | insert index _ | replace index _ | remove index => index
  | swap a _ => a
  | move source _ => source
  | substitute target _ | inline target _ => target

def mapIndices (f : Nat → Nat) : Edit → Edit
  | insert index t => insert (f index) t
  | replace index t => replace (f index) t
  | swap a b => swap (f a) (f b)
  | move source dest => move (f source) (f dest)
  | remove index => remove (f index)
  | substitute target source => substitute (f target) (f source)
  | inline target generator => inline (f target) generator

/-- The same edit further back in a longer list. -/
def offset (delta : Nat) (e : Edit) : Edit := e.mapIndices (· + delta)

def withinLimit (limit : Nat) (e : Edit) : Bool := e.primary < limit

def display : Edit → String
  | insert index t => s!"insert {t.source} at {index}"
  | replace index t => s!"replace {index} with {t.source}"
  | swap a b => s!"swap {a} and {b}"
  | move source dest => s!"move {source} to {dest}"
  | remove index => s!"remove {index}"
  | substitute target source => s!"substitute {target} with {source}"
  | inline target generator => s!"inline {target} via generator {generator}"

end Edit

def ScriptError.message : ScriptError → String
  | outOfRange edit length => s!"`{edit.display}` is out of range for {length} parameters"
  | selfSubstitution edit => s!"`{edit.display}` substitutes a parameter with itself"
  | danglingSource target =>
    s!"substitution of reference parameter {target} redirects to a parameter that does not survive"

/-- The list with two elements exchanged. -/
def exchange (xs : List α) (a b : Nat) : List α :=
  match xs[a]?, xs[b]? with
  | some x, some y => (xs.set a y).set b x
  | _, _ => xs

/-- The list with one element taken out and put back elsewhere. -/
def relocate (xs : List α) (source dest : Nat) : List α :=
  match xs[source]? with
  | some x => (xs.eraseIdx source).insertIdx dest x
  | none => xs

/-- How an element left the list: dropped, with another one in its place, or for generated code. -/
inductive Departure (α : Type) where
  | removed
  | substituted (source : α)
  | inlined (generator : Nat)
deriving DecidableEq, Repr

def Departure.isSubstituted : Departure α → Bool
  | substituted _ => true
  | _ => false

namespace Edit

/-- Applies an edit to a list. `fresh` makes the element that an insertion adds, and `retype` gives
an element another type. -/
def apply (fresh : ValueType → α) (retype : ValueType → α → α) (e : Edit) (xs : List α) :
    Except ScriptError (List α) :=
  let guarded (inRange : Bool) (result : List α) : Except ScriptError (List α) :=
    if inRange then .ok result else .error (.outOfRange e xs.length)
  match e with
  | insert index t => guarded (index ≤ xs.length) (xs.insertIdx index (fresh t))
  | replace index t => guarded (index < xs.length) (xs.modify index (retype t))
  | swap a b => guarded (a < xs.length && b < xs.length) (exchange xs a b)
  | move source dest =>
    guarded (source < xs.length && dest < xs.length) (relocate xs source dest)
  | remove index => guarded (index < xs.length) (xs.eraseIdx index)
  | substitute target source =>
    if target = source then .error (.selfSubstitution e)
    else guarded (target < xs.length && source < xs.length) (xs.eraseIdx target)
  | inline target _ => guarded (target < xs.length) (xs.eraseIdx target)

/-- The element that an edit takes out of the list, and how. -/
def departure? (e : Edit) (xs : List α) : Option (α × Departure α) :=
  match e with
  | remove index => xs[index]?.map (·, .removed)
  | substitute target source =>
    match xs[target]?, xs[source]? with
    | some x, some y => some (x, .substituted y)
    | _, _ => none
  | inline target generator => xs[target]?.map (·, .inlined generator)
  | _ => none

end Edit
end Reparam
