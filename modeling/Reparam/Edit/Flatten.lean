import Reparam.Edit.Flat

/-! Flattening: the flat script with the same effect as a layered one on a list of known length. The
layered script is run over tokens that remember where each element comes from; the flat script is
read off where the tokens end up. -/
namespace Reparam

variable {α : Type}

/-- Where an element comes from: a reference parameter by its ordinal, or an insertion by its place
in the script. -/
inductive Origin where
  | reference (ordinal : Nat)
  | inserted (serial : Nat)
deriving DecidableEq, Repr

/-- An element of a list under edit. A reference parameter notes the type it was given last. -/
inductive Token where
  | reference (ordinal : Nat) (retyped : Option ValueType)
  | inserted (serial : Nat) (type : ValueType)
deriving DecidableEq, Repr

namespace Token

def origin : Token → Origin
  | reference ordinal _ => .reference ordinal
  | inserted serial _ => .inserted serial

def ordinal? : Token → Option Nat
  | reference ordinal _ => some ordinal
  | inserted .. => none

def retype (t : ValueType) : Token → Token
  | reference ordinal _ => reference ordinal (some t)
  | inserted serial _ => inserted serial t

end Token

/-- What became of a reference parameter that left the list. -/
abbrev Fate := Departure Origin

/-- A list under edit, and what became of the reference parameters that left it. -/
structure Tracking where
  tokens : List Token
  fates : List (Nat × Fate)

def Departure.toFate : Departure Token → Fate
  | .removed => .removed
  | .substituted source => .substituted source.origin
  | .inlined generator => .inlined generator

namespace Tracking

def initial (n : Nat) : Tracking := ⟨(List.range n).map (.reference · none), []⟩

def fate? (tr : Tracking) (ordinal : Nat) : Option Fate := tr.fates.lookup ordinal

/-- Notes what becomes of a reference parameter; inserted ones leave no trace. -/
def noteDeparture (tr : Tracking) : Option (Token × Departure Token) → Tracking
  | some (.reference ordinal _, how) => { tr with fates := (ordinal, how.toFate) :: tr.fates }
  | _ => tr

/-- Follows the edits of a script, the first of which has the given serial number. -/
def follow (serial : Nat) : Script → Tracking → Except ScriptError Tracking
  | [], tr => .ok tr
  | e :: rest, tr =>
    match e.apply (.inserted serial) Token.retype tr.tokens with
    | .error err => .error err
    | .ok tokens =>
      follow (serial + 1) rest
        { tr.noteDeparture (e.departure? tr.tokens) with tokens := tokens }

/-- Puts a reference parameter in front of the first one with a larger ordinal. -/
def slotIn (tokens : List Token) (ordinal : Nat) : List Token :=
  let index := tokens.findIdx fun t => t.ordinal?.any (ordinal < ·)
  tokens.insertIdx index (.reference ordinal none)

/-- The reference parameters with a fate of some kind, ascending. -/
def withFate (tr : Tracking) (n : Nat) (p : Fate → Bool) : List Nat :=
  (List.range n).filter fun ordinal => (tr.fate? ordinal).any p

/-- The list just before removals: survivors where they end up, with the removed and the inlined
parameters between them by ordinal. -/
def beforeRemovals (tr : Tracking) (n : Nat) : List Token :=
  (tr.withFate n (!·.isSubstituted)).foldl slotIn tr.tokens

/-- Deals reference parameters out to the places that hold one. -/
def refill : List Token → List Token → List Token
  | .reference .. :: places, r :: refs => r :: refill places refs
  | place :: places, refs => place :: refill places refs
  | [], _ => []

/-- The list just before reordering: insertions where they end up, and reference parameters by
ordinal in the places between them. -/
def beforeReorders (tr : Tracking) (n : Nat) : List Token :=
  let places := tr.beforeRemovals n
  let refs := places.filter (·.ordinal?.isSome)
  refill places (refs.mergeSort fun r s => r.ordinal?.getD 0 ≤ s.ordinal?.getD 0)

/-- The list with all insertions in place and the substituted parameters still there. -/
def afterInsertions (tr : Tracking) (n : Nat) : List Token :=
  (tr.withFate n (·.isSubstituted)).foldl slotIn (tr.beforeReorders n)

/-- The element that a chain of substitutions ends at. A chain is followed for a given number of
steps; it has no loop, so the number of reference parameters is enough. -/
def finalSource (tr : Tracking) : Nat → Origin → Origin
  | steps + 1, .reference ordinal =>
    match tr.fate? ordinal with
    | some (.substituted further) => tr.finalSource steps further
    | _ => .reference ordinal
  | _, source => source

/-- The place of a substituted parameter and that of the element that stands in for it. -/
def substitution (tr : Tracking) (n : Nat) (ordinal : Nat) (source : Origin) :
    Except ScriptError (Nat × Nat) :=
  let indexOf (o : Origin) := (tr.afterInsertions n).findIdx? (·.origin = o)
  match indexOf (.reference ordinal), indexOf (tr.finalSource n source) with
  | some target, some found =>
    if target = found then .error (.danglingSource ordinal) else .ok (target, found)
  | _, _ => .error (.danglingSource ordinal)

/-- The substitutions by descending ordinal. -/
def substitutions (tr : Tracking) (n : Nat) : Except ScriptError (List (Nat × Nat)) :=
  (tr.withFate n (·.isSubstituted)).reverse.mapM fun ordinal =>
    match tr.fate? ordinal with
    | some (.substituted source) => tr.substitution n ordinal source
    | _ => .error (.danglingSource ordinal)

/-- Swaps and moves that take a list to the wanted one, front to back. `names` holds for every place
the index by which reorders call it. An element is moved forward when that keeps the order of the
others and shifts more than one place; otherwise it trades places. -/
def settle : List Token → List Token → List Nat → List Reorder
  | w :: wanted, c :: current, name :: names =>
    if c = w then settle wanted current names
    else
      match current.findIdx? (· = w) with
      | none => settle wanted current names
      | some j =>
        let other := names.getD j maxIndex
        let contiguous := (c :: current.take (j + 1)).all (·.ordinal?.isSome)
        if wanted[j]? ≠ some c ∧ contiguous ∧ 0 < j then
          .move other name :: settle wanted (c :: current.eraseIdx j) names
        else .swap name other :: settle wanted (current.set j c) names
  | _, _, _ => []

/-- The swaps and moves, by the ordinals that the places have before reordering. -/
def reorders (tr : Tracking) (n : Nat) : List Reorder :=
  let start := tr.beforeReorders n
  settle (tr.beforeRemovals n) start (start.map fun t => t.ordinal?.getD maxIndex)

/-- The places before removals whose parameter has a fate of some kind, descending. -/
def placesOf (tr : Tracking) (n : Nat) (pick : Fate → Option α) : List (Nat × α) :=
  ((tr.beforeRemovals n).zipIdx.filterMap fun (t, i) =>
    ((t.ordinal?.bind tr.fate?).bind pick).map (i, ·)).reverse

/-- The flat script of what was tracked for a number of reference parameters. -/
def toFlat (tr : Tracking) (n : Nat) : Except ScriptError FlatScript := do
  let substitutions ← tr.substitutions n
  let list := (tr.afterInsertions n).zipIdx
  let removals := (tr.placesOf n fun | .removed => some () | _ => none).map (·.1)
  let inlines := tr.placesOf n fun | .inlined generator => some generator | _ => none
  return {
    insertions := list.filterMap fun | (.inserted _ t, i) => some (i, t) | _ => none
    replacements := list.filterMap fun | (.reference _ (some t), i) => some (i, t) | _ => none
    substitutions
    reorders := tr.reorders n
    removals
    inlines := inlines.map fun (i, generator) => (currentIndex i removals, generator) }

end Tracking

/-- The flat script that does to a list of `n` parameters what the layered one does. There is none
if a substituted parameter has no surviving one to stand in for it. -/
def Script.flatten (s : Script) (n : Nat) : Except ScriptError FlatScript :=
  match Tracking.follow 0 s (.initial n) with
  | .ok tr => tr.toFlat n
  | .error err => .error err

end Reparam
