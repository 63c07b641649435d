import Reparam.Apply.Phases
import Reparam.Proofs.Flatten.Offsetting

/-! The normal form of a flattened script. Each kind of edit is in the order in which it is run, a
place has one kind of edit among insertions, replacements and substitutions, and what stands in for
a parameter is not substituted itself. -/
namespace Reparam

variable {n : Nat} {s : Script} {f : FlatScript} {tr : Tracking}
  {done rest : List (Nat × Nat)} {target source : Nat}

/-- Of different indices, no more than there are lie below a limit. -/
theorem countP_lt_le {is : List Nat} (h : is.Nodup) (i : Nat) : is.countP (· < i) ≤ i := by
  have hsub : is.filter (· < i) ⊆ List.range i := fun j hj =>
    List.mem_range.2 (by simpa using (List.mem_filter.1 hj).2)
  have hle := (List.subperm_of_subset (h.filter _) hsub).length_le
  rwa [List.length_range, ← List.countP_eq_length_filter] at hle

/-- When a run comes to the second part, the targets of the first part are gone. -/
theorem Applier.substituteAll_append (a : Applier) (ps qs : List (Nat × Nat)) (gone : List Nat)
    (p : Progress) : a.substituteAll (ps ++ qs) gone p =
      a.substituteAll ps gone p >>= a.substituteAll qs ((ps.map (·.1)).reverse ++ gone) := by
  induction ps generalizing gone p with
  | nil => rfl
  | cons e ps ih =>
    rw [List.cons_append, substituteAll, substituteAll, bind_assoc]
    refine bind_congr fun source => ?_
    rw [bind_assoc]
    refine bind_congr fun p => ?_
    rw [ih]
    simp

namespace FlatScript

/-- The normal form of flat scripts for a number of parameters. -/
structure Normal (f : FlatScript) (n : Nat) : Prop extends f.Ordered where
  replacements : f.replacements.Pairwise (·.1 < ·.1)
  insertions_replacements : (f.insertions.map (·.1)).Disjoint (f.replacements.map (·.1))
  insertions_targets : (f.insertions.map (·.1)).Disjoint (f.substitutions.map (·.1))
  replacements_targets : (f.replacements.map (·.1)).Disjoint (f.substitutions.map (·.1))
  sources : ∀ p ∈ f.substitutions, p.2 ∉ f.substitutions.map (·.1)
  reorders : ∀ r ∈ f.reorders, r.All (· < n)

/-- No more targets are dropped in front of a source than there are places. -/
theorem Normal.countP_gone_le (h : f.Normal n)
    (hsplit : descendingByFirst f.substitutions = done ++ (target, source) :: rest) :
    (done.map (·.1)).reverse.countP (· < source) ≤ source := by
  rw [descendingByFirst_eq h.substitutions] at hsplit
  have htargets : (f.substitutions.map (·.1)).Nodup :=
    List.pairwise_map.2 (h.substitutions.imp Nat.ne_of_gt)
  rw [hsplit, List.map_append] at htargets
  exact countP_lt_le (List.nodup_reverse.2 htargets.of_append_left) source

end FlatScript

namespace Tracking

/-- A substituted parameter is put back without the type that it was given last. -/
theorem Sound.retypedType_of_standIn (h : tr.Sound n s.length) {t : Token} {p : Nat × Origin}
    (ht : t ∈ tr.afterInsertions n) (hs : tr.standIn t = some p) : t.retypedType? = none := by
  obtain ⟨hordinal, hfate⟩ := standIn_eq_some.1 hs
  rw [afterInsertions_perm.mem_iff, List.mem_append, List.mem_append] at ht
  rcases ht with ht | ht | ht
  · obtain ⟨i, -, rfl⟩ := List.mem_map.1 ht
    rfl
  · obtain ⟨i, -, rfl⟩ := List.mem_map.1 ht
    rfl
  · -- it would still be in the list that the script leaves
    have hleft := (mem_ordinals_tokens h).1 (List.mem_filterMap.2 ⟨t, ht, hordinal⟩)
    rw [hfate] at hleft
    cases hleft.2

theorem Reached.normal (h : Reached s n tr) (hf : tr.toFlat n = .ok f) : f.Normal n := by
  have hordered := h.ordered hf
  have hfits := h.fits hf
  obtain ⟨pairs, hpairs, rfl⟩ := toFlat_eq_ok hf
  have hsources := h.substitutions_ok hpairs
  have htargets : pairs.map (·.1) =
      ((located tr.standIn 0 (tr.afterInsertions n)).map (·.1)).reverse := by
    rw [targets_eq hsources, List.map_reverse]
  have hinserted (t : Token) (type : ValueType) (ht : t.insertedType? = some type) :
      t.retypedType? = none ∧ tr.standIn t = none := by
    cases t with
    | inserted => exact ⟨rfl, rfl⟩
    | reference => cases ht
  refine { hordered with
    replacements := located_pairwise
    insertions_replacements := located_disjoint fun t _ type ht => (hinserted t type ht).1
    insertions_targets := ?_
    replacements_targets := ?_
    sources := fun p hp hmem => ?_
    reorders := hfits.reorders }
  · rw [htargets, List.disjoint_reverse_right]
    exact located_disjoint fun t _ type ht => (hinserted t type ht).2
  · rw [htargets, List.disjoint_reverse_right, List.disjoint_comm]
    exact located_disjoint fun t ht _ hs => h.sound.retypedType_of_standIn ht hs
  · obtain ⟨i, hi, rfl⟩ := List.getElem_of_mem hp
    obtain ⟨-, -, c, hc, hkept, -⟩ := hsources.get (hsources.length_eq ▸ hi) hi
    rw [htargets, List.mem_reverse] at hmem
    obtain ⟨q, hq, hplace⟩ := List.mem_map.1 hmem
    obtain ⟨t, ht, hs⟩ := mem_located_zero.1 hq
    rw [hplace] at ht
    cases hc.symm.trans ht
    rw [hkept] at hs
    cases hs

end Tracking

open Tracking

/-- A flattened script is in normal form. So whenever a source is looked up, in a replay or in an
application, no more targets in front of it are gone than there were places, and the look-up finds
one. -/
theorem flatten_normal (h : s.flatten n = .ok f) :
    f.Normal n ∧ ∀ done target source rest,
      descendingByFirst f.substitutions = done ++ (target, source) :: rest →
        let gone := (done.map (·.1)).reverse
        gone.countP (· < source) ≤ source ∧
          (∀ {α : Type} (xs : List α),
            FlatScript.substituteAll (descendingByFirst f.substitutions) [] xs =
              FlatScript.substituteAll done [] xs >>=
                FlatScript.substituteAll ((target, source) :: rest) gone) ∧
          ∀ (a : Applier) (p : Progress),
            a.substituteAll (descendingByFirst f.substitutions) [] p =
              a.substituteAll done [] p >>= a.substituteAll ((target, source) :: rest) gone := by
  obtain ⟨tr, hfollow, htoFlat⟩ := flatten_eq_ok h
  have hnormal := (reached_of_follow hfollow).normal htoFlat
  refine ⟨hnormal, fun done target source rest hsplit => ⟨hnormal.countP_gone_le hsplit, ?_, ?_⟩⟩
  · intro α xs
    rw [hsplit, FlatScript.substituteAll_append done, List.append_nil]
  · intro a p
    rw [hsplit, Applier.substituteAll_append, List.append_nil]

theorem flatten_chain : Script.flatten [.insert 0 .long, .replace 4 .double, .substitute 1 2,
    .substitute 1 3, .swap 1 2, .remove 3, .inline 3 7] 6 =
      .ok {
        insertions := [(0, .long)]
        replacements := [(4, .double)]
        substitutions := [(2, 4), (1, 4)]
        reorders := [.swap 2 3]
        removals := [3]
        inlines := [(3, 7)] } := by
  let tr : Tracking := {
    tokens := [.inserted 0 .long, .reference 3 (some .double), .reference 2 none]
    fates := [(5, .inlined 7), (4, .removed), (1, .substituted (.reference 3)),
      (0, .substituted (.reference 1))] }
  have hfollow : follow 0 [.insert 0 .long, .replace 4 .double, .substitute 1 2, .substitute 1 3,
      .swap 1 2, .remove 3, .inline 3 7] (initial 6) = .ok tr := rfl
  have hremovals : tr.beforeRemovals 6 = tr.tokens ++ [.reference 4 none, .reference 5 none] := rfl
  have hreorders : tr.beforeReorders 6 = [.inserted 0 .long, .reference 2 none,
      .reference 3 (some .double), .reference 4 none, .reference 5 none] := by
    simp [beforeReorders, hremovals, tr, List.mergeSort, List.MergeSort.Internal.splitInTwo,
      Token.ordinal?, refill]
  simp only [Script.flatten, hfollow, toFlat, substitutions, substitution, reorders,
    afterInsertions, hreorders]
  rfl

/-- Both sources end up at one parameter, which is not substituted. -/
theorem flatten_normal_on_chain : ∃ f : FlatScript,
    Script.flatten [.insert 0 .long, .replace 4 .double, .substitute 1 2, .substitute 1 3,
      .swap 1 2, .remove 3, .inline 3 7] 6 = .ok f ∧ f.substitutions = [(2, 4), (1, 4)] ∧ f.Normal 6 :=
  ⟨_, flatten_chain, rfl, (flatten_normal flatten_chain).1⟩

end Reparam
