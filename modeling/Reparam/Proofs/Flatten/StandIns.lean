import Reparam.Proofs.Edit.Substitution
import Reparam.Proofs.Flatten.Arrangement
import Reparam.Proofs.Traversal

/-! The substitutions that flattening reads off: every substituted parameter with the place of the
element that its chain of sources ends at. They exist unless a chain ends in a dropped insertion. -/
namespace Reparam

theorem located_map_snd {α β : Type} {pick : α → Option β} (base : Nat) (xs : List α) :
    (located pick base xs).map (·.2) = xs.filterMap pick := by
  induction xs generalizing base with
  | nil => rfl
  | cons x xs ih =>
    cases h : pick x with
    | none => rw [located_cons_none h, List.filterMap_cons_none h, ih]
    | some y => rw [located_cons_some h, List.filterMap_cons_some h, List.map_cons, ih]

variable {n serial ordinal : Nat} {s : Script} {tr : Tracking} {tokens : List Token}
  {o last : Origin}

theorem mem_origins_reference : .reference ordinal ∈ tokens.map Token.origin ↔
    ordinal ∈ ordinals tokens := by
  rw [mem_ordinals, List.mem_map]
  constructor
  · rintro ⟨t, ht, ho⟩
    cases t <;> cases ho
    exact ⟨_, ht⟩
  · rintro ⟨r, ht⟩
    exact ⟨_, ht, rfl⟩

/-- A parameter has one place in a list that holds it once. -/
theorem place_unique (h : (ordinals tokens).Nodup) {i j : Nat} {t u : Token}
    (ht : tokens[i]? = some t) (hu : tokens[j]? = some u) (hto : t.ordinal? = some ordinal)
    (huo : u.ordinal? = some ordinal) : i = j := by
  have hpair := List.pairwise_iff_getElem.1 (List.pairwise_filterMap.1 h)
  obtain ⟨hi, rfl⟩ := List.getElem?_eq_some_iff.1 ht
  obtain ⟨hj, rfl⟩ := List.getElem?_eq_some_iff.1 hu
  rcases Nat.lt_trichotomy i j with hlt | rfl | hlt
  · exact (hpair i j hi hj hlt _ hto _ huo rfl).elim
  · rfl
  · exact (hpair j i hj hi hlt _ huo _ hto rfl).elim

namespace Tracking

theorem withFate_substituted (h : tr.Sound n serial) : tr.withFate n (·.isSubstituted) =
    (located tr.standIn 0 (tr.afterInsertions n)).map (·.2.1) := by
  have hmap : (located tr.standIn 0 (tr.afterInsertions n)).map (·.2.1) =
      ((tr.afterInsertions n).filterMap tr.standIn).map (·.1) := by
    rw [← located_map_snd 0, List.map_map]
    rfl
  rw [hmap, withFate, ← ordinals_afterInsertions h, ordinals, List.filter_filterMap,
    List.map_filterMap]
  refine List.filterMap_congr fun t _ => ?_
  cases t with
  | inserted => rfl
  | reference i r =>
    cases hf : tr.fate? i with
    | none => simp [standIn, Token.ordinal?, hf]
    | some how => cases how <;> simp [standIn, Token.ordinal?, hf, Departure.isSubstituted]

theorem substitutions_eq (h : tr.Sound n serial) : tr.substitutions n =
    (located tr.standIn 0 (tr.afterInsertions n)).reverse.mapM fun p =>
      tr.substitution n p.2.1 p.2.2 := by
  rw [substitutions, withFate_substituted h, ← List.map_reverse, List.mapM_map]
  refine mapM_congr fun p hp => ?_
  obtain ⟨t, -, ht⟩ := mem_located_zero.1 (List.mem_reverse.1 hp)
  simp only [Function.comp_apply, (standIn_eq_some.1 ht).2]

theorem afterInsertions_perm : (tr.afterInsertions n).Perm
    ((tr.withFate n (·.isSubstituted)).map (.reference · none) ++
      ((tr.withFate n (!·.isSubstituted)).map (.reference · none) ++ tr.tokens)) :=
  (foldl_slotIn_perm _ _).trans
    ((beforeReorders_perm.trans (foldl_slotIn_perm _ _)).append_left _)

theorem mem_origins_afterInsertions {k : Nat} :
    .inserted k ∈ (tr.afterInsertions n).map Token.origin ↔ .inserted k ∈ tr.origins := by
  rw [(afterInsertions_perm.map _).mem_iff, List.map_append, List.map_append, origins]
  simp [Token.origin]

theorem Reached.finalSource_kept (h : Reached s n tr) (hl : s.LeadsTo n o (.reference ordinal))
    (p : Origin) : tr.fate? ordinal ≠ some (.substituted p) := by
  generalize hlast : Origin.reference ordinal = last at hl
  induction hl with
  | inserted => cases hlast
  | kept hk =>
    cases hlast
    exact fun hf => hk p ((h.substituted _ _).1 hf)
  | via _ _ ih => exact ih hlast

theorem Reached.leadsTo_lt (h : Reached s n tr) (hl : s.LeadsTo n o (.reference ordinal))
    (ho : ∀ i, o = .reference i → i < n) : ordinal < n := by
  generalize hlast : Origin.reference ordinal = last at hl
  induction hl with
  | inserted => cases hlast
  | kept =>
    cases hlast
    exact ho _ rfl
  | via hs _ ih =>
    refine ih (fun i hi => ?_) hlast
    exact h.sound.source_lt _ (h.sound.fate_eq_some_iff.1 ((h.substituted _ _).2 hs)) i (by rw [hi])

/-- Its final source stands in for a parameter, wherever it is. -/
theorem Reached.substitution_eq (h : Reached s n tr) {p : Nat × Nat × Origin}
    (hp : p ∈ located tr.standIn 0 (tr.afterInsertions n)) :
    (∃ found c, tr.substitution n p.2.1 p.2.2 = .ok (p.1, found) ∧ p.1 ≠ found ∧
      (tr.afterInsertions n)[found]? = some c ∧ tr.standIn c = none ∧
      c.origin = tr.finalSource n p.2.2) ∨
    tr.substitution n p.2.1 p.2.2 = .error (.danglingSource p.2.1) ∧
      tr.finalSource n p.2.2 ∉ (tr.afterInsertions n).map Token.origin := by
  obtain ⟨place, target, source⟩ := p
  obtain ⟨t, ht, hs⟩ := mem_located_zero.1 hp
  obtain ⟨hto, hfate⟩ := standIn_eq_some.1 hs
  have hnodup : (ordinals (tr.afterInsertions n)).Nodup := by
    rw [ordinals_afterInsertions h.sound]
    exact List.nodup_range
  have htarget : (tr.afterInsertions n).findIdx? (·.origin = .reference target) = some place := by
    obtain ⟨i, hi⟩ : ∃ i, (tr.afterInsertions n).findIdx? (·.origin = .reference target) =
        some i := by
      rw [← Option.isSome_iff_exists, List.findIdx?_isSome, List.any_eq_true]
      refine ⟨t, List.mem_of_getElem? ht, ?_⟩
      cases t <;> simp_all [Token.ordinal?, Token.origin]
    obtain ⟨hlt, ho, -⟩ := List.findIdx?_eq_some_iff_getElem.1 hi
    rw [hi, place_unique hnodup (List.getElem?_eq_getElem hlt) ht _ hto]
    cases hx : (tr.afterInsertions n)[i] <;> simp_all [Token.ordinal?, Token.origin]
  have hleads := h.leadsTo_iff.2 (rfl : tr.finalSource n source = _)
  cases hfind : (tr.afterInsertions n).findIdx? (·.origin = tr.finalSource n source) with
  | none =>
    refine .inr ⟨by simp only [substitution, htarget, hfind], ?_⟩
    simpa using hfind
  | some found =>
    obtain ⟨hlt, ho, -⟩ := List.findIdx?_eq_some_iff_getElem.1 hfind
    have ho : (tr.afterInsertions n)[found].origin = tr.finalSource n source := by simpa using ho
    have hkept : tr.standIn (tr.afterInsertions n)[found] = none := by
      refine standIn_eq_none.2 fun i p hi => ?_
      refine h.finalSource_kept (o := source) ?_ p
      rw [h.leadsTo_iff, ← ho]
      cases hx : (tr.afterInsertions n)[found] <;> simp_all [Token.ordinal?, Token.origin]
    have hne : place ≠ found := by
      rintro rfl
      rw [List.getElem?_eq_getElem hlt, Option.some.injEq] at ht
      rw [ht, hs] at hkept
      cases hkept
    refine .inl ⟨found, _, ?_, hne, List.getElem?_eq_getElem hlt, hkept, ho⟩
    simp only [substitution, htarget, hfind, if_neg hne]

theorem Reached.substitutions_ok (h : Reached s n tr) {pairs : List (Nat × Nat)}
    (hp : tr.substitutions n = .ok pairs) :
    List.Forall₂ (fun p y => y.1 = p.1 ∧ y.1 ≠ y.2 ∧ ∃ c, (tr.afterInsertions n)[y.2]? = some c ∧
      tr.standIn c = none ∧ c.origin = tr.finalSource n p.2.2)
      (located tr.standIn 0 (tr.afterInsertions n)).reverse pairs := by
  rw [substitutions_eq h.sound, mapM_eq_ok_iff] at hp
  refine (List.forall₂_iff_zip.2 ⟨hp.length_eq, fun {p y} hm => ?_⟩)
  have hy := (List.forall₂_iff_zip.1 hp).2 hm
  rcases h.substitution_eq (List.mem_reverse.1 (List.of_mem_zip hm).1) with
    ⟨found, c, hs, hne, hc, hkept, ho⟩ | ⟨hs, -⟩
  · rw [hs] at hy
    cases hy
    exact ⟨rfl, hne, c, hc, hkept, ho⟩
  · rw [hs] at hy
    cases hy

theorem Reached.substitutions_error (h : Reached s n tr) {err : ScriptError}
    (he : tr.substitutions n = .error err) : ∃ target, err = .danglingSource target := by
  rw [substitutions_eq h.sound] at he
  obtain ⟨p, hp, hpe⟩ := mem_of_mapM_error he
  rcases h.substitution_eq (List.mem_reverse.1 hp) with ⟨found, c, hs, -⟩ | ⟨hs, -⟩
  · rw [hs] at hpe
    cases hpe
  · rw [hs] at hpe
    cases hpe
    exact ⟨p.2.1, rfl⟩

/-- The source that a chain ends at is gone just when it is a dropped insertion. -/
theorem Reached.finalSource_gone (h : Reached s n tr) (hs : s.Substitutes n (.reference ordinal) o) :
    tr.finalSource n o ∉ (tr.afterInsertions n).map Token.origin ↔
      ∃ k, tr.finalSource n o = .inserted k ∧ .inserted k ∉ tr.origins := by
  cases hfinal : tr.finalSource n o with
  | inserted k => simp [mem_origins_afterInsertions]
  | reference i =>
    have hi : i < n := by
      refine h.leadsTo_lt (h.leadsTo_iff.2 hfinal) fun j hj => ?_
      exact h.sound.source_lt _ (h.sound.fate_eq_some_iff.1 ((h.substituted _ _).2 hs)) j (by rw [hj])
    simp [mem_origins_reference, ordinals_afterInsertions h.sound, hi]

theorem Reached.substitutions_error_iff (h : Reached s n tr) :
    (∃ err, tr.substitutions n = .error err) ↔ s.Dangles n := by
  rw [substitutions_eq h.sound]
  constructor
  · rintro ⟨err, he⟩
    obtain ⟨p, hp, hpe⟩ := mem_of_mapM_error he
    obtain ⟨t, -, ht⟩ := mem_located_zero.1 (List.mem_reverse.1 hp)
    have hsub := (h.substituted _ _).1 (standIn_eq_some.1 ht).2
    rcases h.substitution_eq (List.mem_reverse.1 hp) with ⟨found, c, hs, -⟩ | ⟨-, hgone⟩
    · rw [hs] at hpe
      cases hpe
    · obtain ⟨k, hk, hnot⟩ := (h.finalSource_gone hsub).1 hgone
      exact ⟨_, _, k, _, hsub, h.leadsTo_iff.2 hk, h.origins, hnot⟩
  · rintro ⟨ordinal, source, k, left, hsub, hl, hleft, hnot⟩
    rw [h.origins] at hleft
    cases hleft
    have hfate := (h.substituted _ _).2 hsub
    have hin : ordinal ∈ ordinals (tr.afterInsertions n) := by
      rw [ordinals_afterInsertions h.sound]
      exact List.mem_range.2 (h.sound.bound _ (h.sound.fate_eq_some_iff.1 hfate))
    obtain ⟨r, hr⟩ := mem_ordinals.1 hin
    obtain ⟨place, hplace⟩ := List.getElem?_of_mem hr
    have hp : (place, ordinal, source) ∈ located tr.standIn 0 (tr.afterInsertions n) :=
      mem_located_zero.2 ⟨_, hplace, standIn_eq_some.2 ⟨rfl, hfate⟩⟩
    have hgone := (h.finalSource_gone hsub).2 ⟨k, h.leadsTo_iff.1 hl, hnot⟩
    cases hmap : (located tr.standIn 0 (tr.afterInsertions n)).reverse.mapM
        fun p => tr.substitution n p.2.1 p.2.2 with
    | error err => exact ⟨err, rfl⟩
    | ok pairs =>
      obtain ⟨i, hi, hpi⟩ := List.getElem_of_mem (List.mem_reverse.2 hp)
      have hall := mapM_eq_ok_iff.1 hmap
      have hy := hall.get hi (hall.length_eq ▸ hi)
      simp only [List.get_eq_getElem, hpi] at hy
      rcases h.substitution_eq hp with ⟨found, c, -, -, hc, -, ho⟩ | ⟨hs, -⟩
      · exact (hgone (ho ▸ List.mem_map_of_mem (List.mem_of_getElem? hc))).elim
      · rw [hs] at hy
        cases hy

end Tracking
end Reparam
