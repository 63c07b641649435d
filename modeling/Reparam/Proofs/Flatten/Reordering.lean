import Reparam.Proofs.Flatten.Offsetting

/-! Flattening reorders only when it has to. There are swaps and moves in a flat script if and only
if the parameters that stay end up in another order than they came in. A script that does no more
than give a parameter another type is flat already. -/
namespace Reparam

variable {n serial ordinal : Nat} {s : Script} {f : FlatScript} {tr : Tracking}
  {wanted current : List Token} {names : List Nat}

/-- The ordinal of a reference parameter. -/
def Origin.ordinal? : Origin → Option Nat
  | reference k => some k
  | inserted _ => none

namespace Tracking

theorem ordinals_origins (tr : Tracking) :
    tr.origins.filterMap Origin.ordinal? = ordinals tr.tokens := by
  rw [origins, List.filterMap_map, ordinals]
  refine List.filterMap_congr fun t _ => ?_
  cases t <;> rfl

/-- There is something to reorder unless the parameters that stay are in the order that they were
in. -/
theorem Sound.beforeReorders_eq_iff (h : tr.Sound n serial) :
    tr.beforeReorders n = tr.beforeRemovals n ↔ (ordinals tr.tokens).Pairwise (· < ·) := by
  constructor
  · intro hsame
    have hsorted := ordinals_beforeReorders_pairwise h
    rw [hsame] at hsorted
    rw [← passedOver_beforeRemovals h]
    exact hsorted.sublist ((List.filter_sublist.trans List.filter_sublist).filterMap _)
  · intro hsorted
    have hslotted : (ordinals (tr.beforeRemovals n)).Pairwise (· < ·) := by
      refine foldl_slotIn_pairwise hsorted (List.nodup_range.filter _) fun o ho hm => ?_
      obtain ⟨how, hfate, -⟩ := (mem_withFate h).1 ho
      rw [((mem_ordinals_tokens h).1 hm).2] at hfate
      cases hfate
    rw [beforeReorders, List.mergeSort_of_pairwise]
    · exact refill_self _
    · refine ((List.pairwise_filterMap.1 hslotted).filter _).imp_of_mem fun hr ht hlt => ?_
      obtain ⟨i, hi⟩ := Option.isSome_iff_exists.1 (List.mem_filter.1 hr).2
      obtain ⟨j, hj⟩ := Option.isSome_iff_exists.1 (List.mem_filter.1 ht).2
      simpa [hi, hj] using Nat.le_of_lt (hlt i hi j hj)

/-- Two orders of the same tokens are settled by no swap and no move only if they are one: the
first token that stands elsewhere is found further back. -/
theorem settle_eq_nil_iff (h : current.Perm wanted) (hnames : names.length = current.length) :
    settle wanted current names = [] ↔ current = wanted := by
  refine ⟨fun hnone => ?_, fun hsame => hsame ▸ settle_self current names⟩
  induction wanted generalizing current names with
  | nil => exact h.eq_nil
  | cons w wanted ih =>
    obtain _ | ⟨c, current⟩ := current
    · exact h.symm.eq_nil.symm
    obtain _ | ⟨name, names⟩ := names
    · cases hnames
    by_cases hcw : c = w
    · subst hcw
      rw [settle, if_pos rfl] at hnone
      exact congrArg (c :: ·) (ih ((List.perm_cons c).1 h) (Nat.succ_inj.1 hnames) hnone)
    · obtain ⟨j, hfind, -⟩ := exists_findIdx h hcw
      rw [settle, if_neg hcw, hfind] at hnone
      dsimp only at hnone
      split at hnone <;> cases hnone

theorem reorders_eq_nil_iff :
    tr.reorders n = [] ↔ tr.beforeReorders n = tr.beforeRemovals n :=
  settle_eq_nil_iff beforeReorders_perm (by simp)

/-- If nothing is dropped and no parameter passes another one, the flat script is what the tokens
tell where they stand. -/
theorem Sound.toFlat_of_settled (h : tr.Sound n serial) (hfates : tr.fates = [])
    (hsorted : (ordinals tr.tokens).Pairwise (· < ·)) : tr.toFlat n = .ok {
      insertions := located Token.insertedType? 0 tr.tokens
      replacements := located Token.retypedType? 0 tr.tokens } := by
  have hfate (i : Nat) : tr.fate? i = none := by rw [fate?, hfates]; rfl
  have hwith (q : Fate → Bool) : tr.withFate n q = [] :=
    List.filter_eq_nil_iff.2 fun i _ => by simp [hfate]
  have hremovals : tr.beforeRemovals n = tr.tokens := by rw [beforeRemovals, hwith]; rfl
  have hreorders := h.beforeReorders_eq_iff.2 hsorted
  have hinsertions : tr.afterInsertions n = tr.tokens := by
    rw [afterInsertions, hwith, hreorders, hremovals]
    rfl
  have hfated {α : Type} (pick : Fate → Option α) :
      located (tr.fated pick) 0 (tr.beforeRemovals n) = [] := by
    refine located_eq_nil (fun t _ => ?_) 0
    cases t <;> simp [fated, Token.ordinal?, hfate]
  have hnone : tr.substitutions n = .ok [] := by
    rw [substitutions, hwith]
    rfl
  cases hflat : tr.toFlat n with
  | error err =>
    rw [toFlat_error_iff, hnone] at hflat
    cases hflat
  | ok f =>
    obtain ⟨pairs, hpairs, rfl⟩ := toFlat_eq_ok hflat
    cases hnone.symm.trans hpairs
    simp [hfated, hinsertions, reorders_eq_nil_iff.2 hreorders]

end Tracking

open Tracking

/-- A script that gives one parameter another type is flat already. -/
theorem flatten_replace (h : ordinal < n) (t : ValueType) :
    Script.flatten [.replace ordinal t] n = .ok { replacements := [(ordinal, t)] } := by
  obtain ⟨m, rfl⟩ := Nat.exists_eq_add_of_le (Nat.succ_le_of_lt h)
  -- the parameter is retyped on its own first, and then the others are put around it
  let alone : Tracking := ⟨[.reference 0 (some t)], []⟩
  have halone : follow 0 [.replace 0 t] (initial 1) = .ok alone := rfl
  have hfollow := follow_framed ordinal 1 m halone
  have hscript : [Edit.replace 0 t].map (·.offset ordinal) = [.replace ordinal t] := by
    simp [Edit.offset, Edit.mapIndices]
  rw [hscript, initial_framed] at hfollow
  have hsorted : (ordinals (alone.framed ordinal 1 m).tokens).Pairwise (· < ·) :=
    ordinals_framed_pairwise (List.pairwise_singleton ..) (by simp [alone])
  have hinserted (t : Token) : (t.offset ordinal).insertedType? = t.insertedType? := by
    cases t <;> rfl
  have hretyped (t : Token) : (t.offset ordinal).retypedType? = t.retypedType? := by
    cases t <;> rfl
  have hflat := (sound_follow (sound_initial _) hfollow).toFlat_of_settled rfl hsorted
  rw [Tracking.framed, located_framed hinserted fun _ _ => rfl,
    located_framed hretyped fun _ _ => rfl] at hflat
  rw [Script.flatten, hfollow]
  refine hflat.trans ?_
  simp [alone, located, Token.insertedType?, Token.retypedType?]

/-- A flattened script reorders nothing if and only if the reference parameters that the script
leaves are in the order of their ordinals, whatever else comes in or goes. -/
theorem flatten_reorders_nil_iff (h : s.flatten n = .ok f) :
    ∃ left, s.origins n = .ok left ∧
      (f.reorders = [] ↔ (left.filterMap Origin.ordinal?).Pairwise (· < ·)) := by
  obtain ⟨tr, hfollow, hf⟩ := flatten_eq_ok h
  have hreached := reached_of_follow hfollow
  obtain ⟨pairs, -, rfl⟩ := toFlat_eq_ok hf
  refine ⟨tr.origins, hreached.origins, ?_⟩
  rw [tr.ordinals_origins, ← hreached.sound.beforeReorders_eq_iff]
  exact reorders_eq_nil_iff

/-- The last parameter moves to the front and is removed from there, so that no order is left to
make up for. -/
theorem flatten_passing :
    Script.flatten [.move 3 0, .insert 2 .long, .substitute 3 1, .remove 0] 4 = .ok {
      insertions := [(1, .long)]
      substitutions := [(2, 0)]
      removals := [3] } := by
  let tr : Tracking := {
    tokens := [.reference 0 none, .inserted 1 .long, .reference 2 none]
    fates := [(3, .removed), (1, .substituted (.reference 0))] }
  have hfollow : follow 0 [.move 3 0, .insert 2 .long, .substitute 3 1, .remove 0] (initial 4) =
      .ok tr := rfl
  have hremovals : tr.beforeRemovals 4 = tr.tokens ++ [.reference 3 none] := rfl
  have hreorders : tr.beforeReorders 4 = tr.tokens ++ [.reference 3 none] := by
    have hsound := sound_follow (sound_initial 4) hfollow
    rw [hsound.beforeReorders_eq_iff.2 (by decide), hremovals]
  simp only [Script.flatten, hfollow, toFlat, substitutions, substitution, reorders,
    afterInsertions, hreorders]
  rfl

theorem flatten_reorders_nil_iff_on_passing : ∃ f : FlatScript,
    Script.flatten [.move 3 0, .insert 2 .long, .substitute 3 1, .remove 0] 4 = .ok f ∧
      f.reorders = [] ∧ ∃ left : List Origin,
        Script.origins [.move 3 0, .insert 2 .long, .substitute 3 1, .remove 0] 4 = .ok left ∧
        (left.filterMap Origin.ordinal?).Pairwise (· < ·) := by
  obtain ⟨left, hleft, hiff⟩ := flatten_reorders_nil_iff flatten_passing
  exact ⟨_, flatten_passing, rfl, left, hleft, hiff.1 rfl⟩

end Reparam
