import Reparam.Diff.Basic

/-! How a span of parameters is brought into the order of another one with the same types. Types
that occur once go to their places in order of destination. Whatever is still out of place is
settled front to back by the first parameter of the wanted type. -/
namespace Reparam

/-- A move of one reference parameter to the place of another, both by ordinal. -/
structure Shift where
  moved : Nat
  place : Nat
deriving DecidableEq, Repr

/-- The moves, and whether some of them had to be chosen among equal types. -/
structure Rearrangement where
  shifts : List Shift
  ambiguous : Bool
deriving DecidableEq, Repr

namespace Rearrangement

def countType (t : ValueType) (span : List Placed) : Nat := span.countP (·.type = t)

def aligned (span target : List Placed) : Bool :=
  (span.zip target).all fun (p, q) => p.sameType q

/-- The parameters whose type occurs once on either side, by the index that they belong at. -/
def uniqueMoves (reference target : List Placed) : List (Placed × Nat) :=
  let unique := reference.filter fun p =>
    countType p.type reference = 1 && countType p.type target = 1
  let moves := unique.filterMap fun p => (target.findIdx? (·.sameType p)).map (p, ·)
  moves.mergeSort fun m n => m.2 ≤ n.2

/-- Moves unique parameters to their places until the span is aligned. -/
def placeUnique (target : List Placed) :
    List (Placed × Nat) → List Placed → Except DiffError (List Shift × List Placed)
  | [], span => .ok ([], span)
  | (p, dest) :: moves, span =>
    if aligned span target then .ok ([], span)
    else
      match span.findIdx? (·.ordinal = p.ordinal) with
      | none => placeUnique target moves span
      | some source =>
        if source = dest then placeUnique target moves span
        else
          match span[source]?, span[dest]? with
          | some moved, some place =>
            match placeUnique target moves (relocate span source dest) with
            | .ok (shifts, result) => .ok (⟨moved.ordinal, place.ordinal⟩ :: shifts, result)
            | .error err => .error err
          | _, _ => .error (.outsideSpan (max source dest) span.length)

/-- Fills place after place by the first parameter of the wanted type. -/
def settle : List Placed → List Placed → Except DiffError (List Shift)
  | _, [] => .ok []
  | [], wanted :: _ => .error (.noneLeft wanted.type)
  | p :: span, wanted :: target =>
    if p.sameType wanted then settle span target
    else
      match span.find? (·.sameType wanted) with
      | none => .error (.noneLeft wanted.type)
      | some moved =>
        match settle (p :: span.eraseP (·.sameType wanted)) target with
        | .ok shifts => .ok (⟨moved.ordinal, p.ordinal⟩ :: shifts)
        | .error err => .error err

end Rearrangement

def rearrangement (reference target : List Placed) : Except DiffError Rearrangement :=
  match Rearrangement.placeUnique target (Rearrangement.uniqueMoves reference target) reference with
  | .error err => .error err
  | .ok (shifts, span) =>
    if Rearrangement.aligned span target then .ok ⟨shifts, false⟩
    else
      match Rearrangement.settle span target with
      | .ok more => .ok ⟨shifts ++ more, true⟩
      | .error err => .error err

end Reparam
