import Reparam.Diff.Rearrangement

/-! The plan of a comparison: stages that take the reference list to the target list. Both lists are
taken off from the front in rounds. A round keeps a leading pair that matches, replaces a type,
rearranges all that is left, or cuts off a window for the single pass. Every round takes at least
one reference parameter off, and what is left of the target in the end is inserted. -/
namespace Reparam

/-- A step of a plan. Reference parameters are named by ordinal: where they stand is looked up when
the stage is carried out. -/
inductive Stage where
  | remove (ordinal : Nat)
  | insertBehind (ordinal : Nat) (type : ValueType)
  | insertAt (index : Nat) (type : ValueType)
  | moveTo (ordinal dest : Nat)
  | replace (ordinal : Nat) (type : ValueType)
  | swap (a b : Nat)
  | rearrange (reference target : List Placed)
  | window (reference target : List Placed)
  | stuck (ordinal : Nat) (type : ValueType) (remaining : Nat)
deriving DecidableEq, Repr

/-- What stays the same in all rounds. -/
structure Setting where
  sameSize : Bool
  compareNames : Bool
deriving DecidableEq, Repr

/-- The stages of one round, and what it leaves of either list. -/
structure Round where
  stages : List Stage
  reference : List Placed
  target : List Placed

namespace Round

open Rearrangement (countType)

/-- With lists of one size, a leading pair matches by itself. If it does not, the first reference
parameter may be gone. -/
def keepSameSize (cfg : Setting) (p : Placed) (ps : List Placed) (q : Placed) (qs : List Placed) :
    Option Round :=
  if p.sameType q then
    if !cfg.compareNames || p.sameName q then some ⟨[], ps, qs⟩ else none
  else
    match ps, qs with
    | p₁ :: p₂ :: rest, q₁ :: _ :: _ =>
      if p₁.agrees q && p₂.agrees q₁ then some ⟨[.remove p.ordinal], p₂ :: rest, qs⟩ else none
    | _, _ => none

/-- The second reference parameter has a type of its own on either side and went somewhere else,
while the target's second parameter is no insertion. -/
def keepMoved (p₁ q₁ : Placed) (rest reference target : List Placed) : Option Round :=
  let alone := countType p₁.type reference = 1 && countType p₁.type target = 1
  let known := countType q₁.type reference = countType q₁.type target
  if reference.length = target.length && alone && known then
    (target.find? (·.sameType p₁)).map fun dest =>
      ⟨[.moveTo p₁.ordinal dest.ordinal], rest, (target.eraseP (·.sameType p₁)).drop 1⟩
  else none

/-- With lists of different sizes, a leading pair is trusted only if the next pair explains itself
too: it matches, something was put in between, or a parameter moved away. -/
def keepOtherSize (cfg : Setting) (p : Placed) (ps : List Placed) (q : Placed) (qs : List Placed) :
    Option Round :=
  match ps, qs with
  | p₁ :: rest, q₁ :: others =>
    if !p.sameType q then none
    else if p₁.agrees q₁ then some ⟨[], ps, qs⟩
    else if cfg.compareNames then
      match others with
      | q₂ :: others =>
        if p₁.agrees q₂ then some ⟨[.insertBehind p.ordinal q₁.type], rest, others⟩ else none
      | [] => none
    else keepMoved p₁ q₁ rest (p :: ps) (q :: qs)
  | _, _ => none

/-- Takes a leading pair off. -/
def keep? (cfg : Setting) (p : Placed) (ps target : List Placed) : Option Round :=
  match target with
  | [] => none
  | q :: qs => if cfg.sameSize then keepSameSize cfg p ps q qs else keepOtherSize cfg p ps q qs

/-- Some pair from an index on differs in anything, its ordinals included. -/
def differFrom (index : Nat) (reference target : List Placed) : Bool :=
  ((reference.zip target).drop index).any fun (p, q) => p ≠ q

/-- The types at an index differ for no other reason than a replacement: the parameter was not
pushed back by an insertion, and all behind it is unchanged. -/
def replaceAt? (index : Nat) (reference target : List Placed) : Option Round :=
  match reference[index]?, target[index]? with
  | some p, some q =>
    let pushedBack := reference.length ≠ target.length && target[index + 1]?.any p.sameType
    if pushedBack || differFrom (index + 1) reference target || p.sameType q then none
    else some ⟨[.replace p.ordinal q.type], reference.eraseIdx index, target.eraseIdx index⟩
  | _, _ => none

/-- Replaces the first type, or settles the last two parameters by a swap or a replacement. -/
def replace? (reference target : List Placed) : Option Round :=
  (replaceAt? 0 reference target).or
    (match reference, target with
    | [p, p₁], [q, q₁] =>
      if !p.sameType p₁ && p.sameType q₁ && p₁.sameType q then
        some ⟨[.swap p.ordinal p₁.ordinal], [], []⟩
      else replaceAt? 1 reference target
    | _, _ => none)

/-- Both lists without their common beginning. -/
def trimFront : List Placed → List Placed → List Placed × List Placed
  | p :: ps, q :: qs => if p.sameType q then trimFront ps qs else (p :: ps, q :: qs)
  | ps, qs => (ps, qs)

/-- Both lists without their common beginning and end. -/
def trim (ps qs : List Placed) : List Placed × List Placed :=
  let (ps, qs) := trimFront ps qs
  let (ps, qs) := trimFront ps.reverse qs.reverse
  (ps.reverse, qs.reverse)

/-- The parameters of a type that occurs once in their list and nowhere in the other one, and the
rest. -/
def peel (list other : List Placed) : List Placed × List Placed :=
  list.partition fun p => countType p.type list = 1 && countType p.type other = 0

/-- Two lists without the parameters that one of them has alone and once. Nothing is peeled off if
both sides have types of their own. -/
structure Peeled where
  removed : List Placed
  kept : List Placed
  inserted : List Placed
  wanted : List Placed

def peelBoth (reference target : List Placed) : Peeled :=
  let onlyReference := reference.any fun p => countType p.type target = 0
  let onlyTarget := target.any fun q => countType q.type reference = 0
  let (removed, kept) :=
    if onlyReference && !onlyTarget then peel reference target else ([], reference)
  let (inserted, wanted) :=
    if onlyTarget && !onlyReference then peel target reference else ([], target)
  ⟨removed, kept, inserted, wanted⟩

/-- Removals come first and insertions last, so that only reference parameters are rearranged. -/
def Peeled.stages (l : Peeled) : List Stage :=
  let (kept, wanted) := trim l.kept l.wanted
  let order := if kept.isEmpty then [] else [.rearrange kept wanted]
  l.removed.reverse.map (fun p => .remove p.ordinal) ++ order ++
    l.inserted.map fun q => .insertAt q.ordinal q.type

/-- What is left differs in order only, up to types that one of the sides has alone and once. -/
def rearrange? (reference target : List Placed) : Option Round :=
  let peeled := peelBoth reference target
  if (peeled.kept.map (·.type)).isPerm (peeled.wanted.map (·.type)) then
    some ⟨peeled.stages, [], []⟩
  else none

/-- How many target parameters come before the second reference parameter shows up again. With one
reference parameter left, those are all but the last. -/
def ahead? (ps target : List Placed) : Option Nat :=
  match ps with
  | [] => if target.isEmpty then none else some (target.length - 1)
  | p₁ :: _ => target.findIdx? (·.sameType p₁)

/-- The target index of the first reference parameter whose type the target has at all. -/
def closest? (reference target : List Placed) : Option Nat :=
  reference.findSome? fun p => target.findIdx? (·.sameType p)

/-- Cuts a window off both lists. -/
def cut (m n : Nat) (reference target : List Placed) : Round :=
  ⟨[.window (reference.take m) (target.take n)], reference.drop m, target.drop n⟩

/-- The names of the second parameters are no reason to tell them apart. -/
def secondNamesAgree (cfg : Setting) (ps target : List Placed) : Bool :=
  match ps, target with
  | p₁ :: _, _ :: q₁ :: _ => !cfg.compareNames || p₁.agrees q₁
  | _, _ => true

/-- Cuts off the smallest window that can hold the difference, or else drops the second reference
parameter. -/
def narrow (cfg : Setting) (p : Placed) (ps target : List Placed) : Round :=
  match ahead? ps target, target with
  | some ahead, q :: _ =>
    let namesAgree := secondNamesAgree cfg ps target
    let lead := if p.sameType q && namesAgree then 1 else 2
    cut (if namesAgree then 2 else 1) (ahead + lead) (p :: ps) target
  | _, _ =>
    let closest :=
      if ps.length + 1 = target.length then (closest? (p :: ps) target).filter (1 < ·) else none
    match closest, ps with
    | some n, _ => cut n n (p :: ps) target
    | none, p₁ :: rest => ⟨[.remove p₁.ordinal], p :: rest, target⟩
    | none, [] => ⟨[.stuck p.ordinal p.type target.length], [], []⟩

end Round

namespace Round

/-- The round takes something off a reference list of the given length. -/
def Shortens (n : Nat) (round : Round) : Prop := round.reference.length < n

variable {cfg : Setting} {p q : Placed} {ps qs reference target : List Placed} {round : Round}

theorem keepSameSize_shortens (h : keepSameSize cfg p ps q qs = some round) :
    round.Shortens (ps.length + 1) := by
  unfold keepSameSize at h
  grind [Shortens]

theorem keepMoved_reference {p₁ q₁ : Placed} {rest : List Placed}
    (h : keepMoved p₁ q₁ rest reference target = some round) : round.reference = rest := by
  simp only [keepMoved] at h
  split at h
  · obtain ⟨dest, _, rfl⟩ := Option.map_eq_some_iff.1 h
    rfl
  · simp at h

theorem keepOtherSize_shortens (h : keepOtherSize cfg p ps q qs = some round) :
    round.Shortens (ps.length + 1) := by
  unfold keepOtherSize at h
  grind [Shortens, keepMoved_reference]

theorem keep_shortens (h : keep? cfg p ps target = some round) :
    round.Shortens (ps.length + 1) := by
  unfold keep? at h
  grind [keepSameSize_shortens, keepOtherSize_shortens]

theorem replaceAt_shortens {index : Nat} (h : replaceAt? index reference target = some round) :
    round.Shortens reference.length := by
  unfold replaceAt? at h
  grind [Shortens]

theorem replace_shortens (h : replace? (p :: ps) target = some round) :
    round.Shortens (ps.length + 1) := by
  rcases Option.or_eq_some_iff.1 h with h | ⟨-, h⟩
  · exact replaceAt_shortens h
  · split at h
    · split at h
      · cases h
        simp [Shortens]
      · exact replaceAt_shortens h
    · simp at h

theorem rearrange_shortens (h : rearrange? (p :: ps) target = some round) :
    round.Shortens (ps.length + 1) := by
  simp only [rearrange?] at h
  split at h
  · cases h
    simp [Shortens]
  · simp at h

theorem cut_shortens {m n : Nat} (hm : 1 ≤ m) :
    (cut m n (p :: ps) target).Shortens (ps.length + 1) := by
  simp only [Shortens, cut, List.length_drop, List.length_cons]
  omega

theorem narrow_shortens : (narrow cfg p ps target).Shortens (ps.length + 1) := by
  unfold narrow
  split
  · exact cut_shortens (by split <;> omega)
  · simp only
    split
    · rename_i n _ hn
      refine cut_shortens ?_
      split at hn
      · have := (Option.filter_eq_some_iff.1 hn).2
        simp at this
        omega
      · simp at hn
    · simp [Shortens]
    · simp [Shortens]

end Round

def nextRound (cfg : Setting) (p : Placed) (ps target : List Placed) : Round :=
  match Round.keep? cfg p ps target with
  | some round => round
  | none =>
    match Round.replace? (p :: ps) target with
    | some round => round
    | none => (Round.rearrange? (p :: ps) target).getD (Round.narrow cfg p ps target)

theorem nextRound_shortens {cfg : Setting} {p : Placed} {ps target : List Placed} :
    (nextRound cfg p ps target).Shortens (ps.length + 1) := by
  unfold nextRound
  split
  · exact Round.keep_shortens ‹_›
  · split
    · exact Round.replace_shortens ‹_›
    · cases h : Round.rearrange? (p :: ps) target with
      | some round => exact Round.rearrange_shortens h
      | none => exact Round.narrow_shortens

/-- The stages of all rounds, and the insertions at the end. -/
def plan (cfg : Setting) (reference target : List Placed) : List Stage :=
  match reference with
  | [] => target.map fun q => .insertAt q.ordinal q.type
  | p :: ps =>
    let round := nextRound cfg p ps target
    round.stages ++ plan cfg round.reference round.target
termination_by reference.length
decreasing_by exact nextRound_shortens

end Reparam
