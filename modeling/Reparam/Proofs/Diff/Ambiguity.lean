import Reparam.Proofs.Diff.Unchanged
import Reparam.Proofs.Edit.Located

/-! What a comparison reports as ambiguous. One round at most rearranges anything, and its span
differs in order only. If no type occurs twice in the span, the moves of its parameters, in order of
their places, settle it from the front on, so that nothing is left to pair by appearance. -/
namespace Reparam

variable {names : NameTieBreak} {cfg : Setting} {round : Round} {report : DiffReport}
  {p q : Placed} {reference target span before ps qs kept wanted : List Placed}
  {moves : List (Placed × Nat)} {m : Placed × Nat}

namespace Rearrangement

theorem aligned_of_types (h : span.map (·.type) = target.map (·.type)) : aligned span target := by
  induction span generalizing target with
  | nil => rfl
  | cons p span ih =>
    obtain _ | ⟨q, target⟩ := target
    · rfl
    obtain ⟨htype, hrest⟩ := List.cons.inj h
    have halign := ih hrest
    simp only [aligned, List.zip_cons_cons, List.all_cons, Bool.and_eq_true] at halign ⊢
    exact ⟨Round.sameType_iff.2 htype, halign⟩

theorem findIdx_ordinal {front behind : List Placed}
    (hd : ((front ++ p :: behind).map (·.ordinal)).Nodup) :
    (front ++ p :: behind).findIdx? (·.ordinal = p.ordinal) = some front.length := by
  have hnone : front.findIdx? (·.ordinal = p.ordinal) = none := by
    rw [List.map_append, List.nodup_append] at hd
    refine List.findIdx?_eq_none_iff.2 fun q hq => decide_eq_false ?_
    exact hd.2.2 _ (List.mem_map_of_mem hq) _ (by simp)
  simp [List.findIdx?_append, hnone, List.findIdx?_cons]

theorem relocate_behind (before front behind : List Placed) (p : Placed) :
    relocate (before ++ (front ++ p :: behind)) (before.length + front.length) before.length =
      before ++ [p] ++ (front ++ behind) := by
  have hlt : front.length < (front ++ p :: behind).length := by simp
  have hframe := relocate_frame before [] hlt (Nat.zero_lt_of_lt hlt)
  rw [relocate_to_front] at hframe
  simpa [Nat.add_comm] using hframe

/-- Moves to all places in order. What is in place already stays where it is, and the next parameter
is taken from behind it. -/
theorem placeUnique_in_order {shifts : List Shift} {result : List Placed}
    (hdest : moves.map (·.2) = List.range' before.length moves.length)
    (hperm : (moves.map (·.1)).Perm span) (hd : ((before ++ span).map (·.ordinal)).Nodup)
    (htypes : (before ++ moves.map (·.1)).map (·.type) = target.map (·.type))
    (h : placeUnique target moves (before ++ span) = .ok (shifts, result)) :
    aligned result target := by
  induction moves generalizing before span shifts with
  | nil =>
    obtain rfl : span = [] := hperm.nil_eq.symm
    cases h
    exact aligned_of_types htypes
  | cons m moves ih =>
    obtain ⟨p, dest⟩ := m
    obtain ⟨rfl, hrest⟩ := List.cons.inj hdest
    obtain ⟨front, behind, rfl⟩ := List.append_of_mem (hperm.subset List.mem_cons_self)
    have hperm' : (moves.map (·.1)).Perm (front ++ behind) :=
      (List.perm_cons p).1 (hperm.trans List.perm_middle)
    have hmoved : (before ++ [p] ++ (front ++ behind)).Perm (before ++ (front ++ p :: behind)) := by
      rw [List.append_assoc]
      exact (@List.perm_middle _ p front behind).symm.append_left before
    -- the rest goes behind the parameter that is in place now
    have hnext (shifts : List Shift)
        (h : placeUnique target moves (before ++ [p] ++ (front ++ behind)) = .ok (shifts, result)) :
        aligned result target := by
      refine ih ?_ hperm' ((hmoved.map _).nodup_iff.2 hd) ?_ h
      · rw [hrest, List.length_append]
        rfl
      · rw [List.append_assoc]
        exact htypes
    have hfind : (before ++ (front ++ p :: behind)).findIdx? (·.ordinal = p.ordinal) =
        some (before.length + front.length) := by
      rw [← List.append_assoc] at hd ⊢
      rw [findIdx_ordinal hd, List.length_append]
    rw [placeUnique] at h
    by_cases haligned : aligned (before ++ (front ++ p :: behind)) target
    · rw [if_pos haligned] at h
      cases h
      exact haligned
    · rw [if_neg haligned] at h
      simp only [hfind] at h
      split at h
      · rename_i hfront
        obtain rfl : front = [] := by simpa using hfront
        refine hnext shifts ?_
        rw [List.append_assoc]
        exact h
      · split at h
        · split at h
          · rename_i hplace
            cases h
            rw [relocate_behind] at hplace
            exact hnext _ hplace
          · cases h
        · cases h

/-- A unique parameter belongs where the target has its type. -/
theorem mem_uniqueMoves (h : m ∈ uniqueMoves reference target) :
    m.1 ∈ reference ∧ ∃ q, target[m.2]? = some q ∧ q.type = m.1.type := by
  obtain ⟨p, hp, hm⟩ := List.mem_filterMap.1 ((List.mergeSort_perm ..).subset h)
  obtain ⟨index, hindex, rfl⟩ := Option.map_eq_some_iff.1 hm
  obtain ⟨hlt, hsame, -⟩ := List.findIdx?_eq_some_iff_getElem.1 hindex
  exact ⟨List.mem_of_mem_filter hp, target[index], List.getElem?_eq_getElem hlt,
    Round.sameType_iff.1 hsame⟩

theorem types_uniqueMoves (reference target : List Placed) :
    (uniqueMoves reference target).map (fun m => some m.1.type) =
      ((uniqueMoves reference target).map (·.2)).map fun i => (target[i]?).map (·.type) := by
  rw [List.map_map]
  refine List.map_congr_left fun m hm => ?_
  obtain ⟨-, q, hq, htype⟩ := mem_uniqueMoves hm
  simp [hq, htype]

theorem countType_eq_count (t : ValueType) (list : List Placed) :
    countType t list = (list.map (·.type)).count t := by
  rw [List.count, List.countP_map]
  rfl

section

variable (hperm : (reference.map (·.type)).Perm (target.map (·.type)))
  (hnodup : (reference.map (·.type)).Nodup)

include hperm hnodup

/-- If no type occurs twice, all parameters are unique. -/
theorem uniqueMoves_perm : ((uniqueMoves reference target).map (·.1)).Perm reference := by
  have hknown (p : Placed) (hp : p ∈ reference) : p.type ∈ target.map (·.type) :=
    hperm.subset (List.mem_map_of_mem hp)
  have hunique : (reference.filter fun p => countType p.type reference = 1 &&
      countType p.type target = 1) = reference := by
    refine List.filter_eq_self.2 fun p hp => ?_
    have hcount := List.count_eq_one_of_mem hnodup (List.mem_map_of_mem hp)
    have hcount' := List.count_eq_one_of_mem (hperm.nodup_iff.1 hnodup) (hknown p hp)
    simp [countType_eq_count, hcount, hcount']
  have hfound (p : Placed) (hp : p ∈ reference) :
      ((target.findIdx? (·.sameType p)).map (p, ·)).map (·.1) = some p := by
    obtain ⟨q, hq, htype⟩ := List.mem_map.1 (hknown p hp)
    have hsome : (target.findIdx? (·.sameType p)).isSome := by
      rw [List.findIdx?_isSome, List.any_eq_true]
      exact ⟨q, hq, Round.sameType_iff.2 htype⟩
    obtain ⟨index, hindex⟩ := Option.isSome_iff_exists.1 hsome
    rw [hindex]
    rfl
  rw [uniqueMoves, hunique]
  refine ((List.mergeSort_perm ..).map _).trans (.of_eq ?_)
  rw [List.map_filterMap, List.filterMap_congr hfound, List.filterMap_some]

/-- Their places are all places, as two parameters of one place would have one type. -/
theorem uniqueMoves_places :
    (uniqueMoves reference target).map (·.2) = List.range reference.length := by
  have hplaces : ((uniqueMoves reference target).map (·.2)).Nodup := by
    have htypes : ((uniqueMoves reference target).map fun m => some m.1.type).Nodup := by
      have hsome := (((uniqueMoves_perm hperm hnodup).map (·.type)).nodup_iff.2 hnodup).map
        (Option.some_injective _)
      simpa [Function.comp_def] using hsome
    rw [types_uniqueMoves] at htypes
    exact htypes.of_map _
  have hsorted : ((uniqueMoves reference target).map (·.2)).Pairwise (· ≤ ·) :=
    List.pairwise_map.2 (pairwise_mergeSort_key Prod.snd _)
  refine eq_range_of_ascending (hsorted.imp₂ (fun _ _ => Nat.lt_of_le_of_ne) hplaces) ?_ ?_
  · intro i hi
    obtain ⟨m, hm, rfl⟩ := List.mem_map.1 hi
    have hlen : reference.length = target.length := by simpa using hperm.length_eq
    rw [hlen]
    exact uniqueMoves_lt m hm
  · simpa using (uniqueMoves_perm hperm hnodup).length_eq

theorem uniqueMoves_types :
    ((uniqueMoves reference target).map (·.1)).map (·.type) = target.map (·.type) := by
  have hlen : reference.length = target.length := by simpa using hperm.length_eq
  have hrange : (List.range target.length).map (fun i => (target[i]?).map (·.type)) =
      target.map fun q => some q.type := by
    refine List.ext_getElem (by simp) fun i hi hi' => ?_
    rw [List.length_map] at hi'
    simp [List.getElem?_eq_getElem hi']
  refine List.map_injective_iff.2 (Option.some_injective _) ?_
  have htypes := types_uniqueMoves reference target
  rw [uniqueMoves_places hperm hnodup, hlen, hrange] at htypes
  simpa [Function.comp_def] using htypes

end

end Rearrangement

/-- A rearrangement pairs parameters by appearance only if some type occurs twice. -/
theorem rearrangement_of_nodup {r : Rearrangement}
    (hperm : (reference.map (·.type)).Perm (target.map (·.type)))
    (hnodup : (reference.map (·.type)).Nodup) (hd : (reference.map (·.ordinal)).Nodup)
    (h : rearrangement reference target = .ok r) : r.ambiguous = false := by
  have hmoves := Rearrangement.uniqueMoves_perm hperm hnodup
  have hplaces : (Rearrangement.uniqueMoves reference target).map (·.2) = List.range'
      ([] : List Placed).length (Rearrangement.uniqueMoves reference target).length := by
    rw [Rearrangement.uniqueMoves_places hperm hnodup, List.range_eq_range', ← hmoves.length_eq,
      List.length_map]
    rfl
  unfold rearrangement at h
  split at h
  · cases h
  · rename_i shifts span hplace
    have haligned := Rearrangement.placeUnique_in_order hplaces hmoves hd
      (Rearrangement.uniqueMoves_types hperm hnodup) hplace
    rw [if_pos haligned] at h
    cases h
    rfl

/-- What an ambiguity says about the two lists whose comparison reports it. -/
structure Ambiguity.Genuine (a : Ambiguity) (reference target : List ValueType) : Prop where
  among : a.reference.Sublist reference
  among_target : a.target.Sublist target
  perm : a.reference.Perm a.target
  differs : a.reference ≠ a.target
  repeated : ∃ t, 2 ≤ a.reference.count t

theorem Ambiguity.Genuine.mono {a : Ambiguity} {types types' wanted wanted' : List ValueType}
    (h : a.Genuine types wanted) (hs : types.Sublist types') (hs' : wanted.Sublist wanted') :
    a.Genuine types' wanted' :=
  { h with
    among := h.among.trans hs
    among_target := h.among_target.trans hs' }

/-- Some stages report one ambiguity at most. -/
def Reports (l : List Stage) (reference target : List ValueType) : Prop :=
  l.filterMap (·.problem?) = [] ∨
    ∃ a : Ambiguity, l.filterMap (·.problem?) = [a] ∧ a.Genuine reference target

theorem Reports.mono {l l' : List Stage} {types types' wanted wanted' : List ValueType}
    (h : Reports l types wanted) (heq : l'.filterMap (·.problem?) = l.filterMap (·.problem?))
    (hs : types.Sublist types') (hs' : wanted.Sublist wanted') : Reports l' types' wanted' := by
  unfold Reports
  rw [heq]
  exact h.imp_right fun ⟨a, ha, hgenuine⟩ => ⟨a, ha, hgenuine.mono hs hs'⟩

namespace Round

theorem trimFront_eq_nil
    (h : (trimFront ps qs).1.map (·.type) = (trimFront ps qs).2.map (·.type)) :
    (trimFront ps qs).1 = [] := by
  fun_induction trimFront ps qs with
  | case1 p ps q qs hsame ih => exact ih h
  | case2 p ps q qs hsame => exact absurd (Round.sameType_iff.2 (List.cons.inj h).1) hsame
  | case3 ps qs hnot =>
    obtain _ | ⟨p, ps⟩ := ps
    · rfl
    · obtain _ | ⟨q, qs⟩ := qs
      · cases h
      · exact (hnot p ps q qs rfl rfl).elim

/-- What is not trimmed off is not in order. -/
theorem trim_differs (h : (trim ps qs).1 ≠ []) :
    (trim ps qs).1.map (·.type) ≠ (trim ps qs).2.map (·.type) := by
  intro htypes
  simp only [trim, List.map_reverse, List.reverse_inj] at htypes
  exact h (by simp only [trim, trimFront_eq_nil htypes, List.reverse_nil])

/-- Only what is not in order yet is rearranged. -/
theorem ordering_reports (hperm : (kept.map (·.type)).Perm (wanted.map (·.type)))
    (hd : (kept.map (·.ordinal)).Nodup) :
    Reports (ordering kept wanted) (kept.map (·.type)) (wanted.map (·.type)) := by
  obtain ⟨hsub, hsub'⟩ := trim_sublist kept wanted
  unfold ordering
  split
  · exact .inl rfl
  · rename_i hne
    cases hproblem : (Stage.rearrange (trim kept wanted).1 (trim kept wanted).2).problem? with
    | none => exact .inl (by simp [hproblem])
    | some a =>
      refine .inr ⟨a, by simp [hproblem], ?_⟩
      simp only [Stage.problem?] at hproblem
      split at hproblem
      · rename_i shifts hr
        cases hproblem
        refine ⟨hsub.map _, hsub'.map _, trim_perm hperm, trim_differs (by simpa using hne), ?_⟩
        by_contra hrepeated
        have hnodup : ((trim kept wanted).1.map (·.type)).Nodup := by
          simpa [List.nodup_iff_count_le_one, Nat.lt_succ_iff] using hrepeated
        cases rearrangement_of_nodup (trim_perm hperm) hnodup (hd.sublist (hsub.map _)) hr
      · cases hproblem

/-- Nor are removals and insertions reported. -/
theorem peeled_reports
    (hperm : ((peelBoth reference target).kept.map (·.type)).Perm
      ((peelBoth reference target).wanted.map (·.type)))
    (hd : (reference.map (·.ordinal)).Nodup) :
    Reports (peelBoth reference target).stages (reference.map (·.type)) (target.map (·.type)) := by
  obtain ⟨f, g, hpeel⟩ := peelBoth_eq reference target
  rw [hpeel] at hperm ⊢
  have hkept : (reference.filter fun p => !f p).Sublist reference := List.filter_sublist
  have hwanted : (target.filter fun q => !g q).Sublist target := List.filter_sublist
  refine (ordering_reports hperm (hd.sublist (hkept.map _))).mono ?_ (hkept.map _) (hwanted.map _)
  simp [Peeled.stages_eq, insertions, Stage.problem?]

/-- A round reports nothing, or it leaves nothing for another one. -/
theorem Shape.quiet_or_last (h : round.Shape cfg reference target) :
    round.stages.filterMap (·.problem?) = [] ∨
      ((peelBoth reference target).kept.map (·.type)).Perm
        ((peelBoth reference target).wanted.map (·.type)) ∧
      round = ⟨(peelBoth reference target).stages, [], []⟩ := by
  cases h with
  | rearrange hperm => exact .inr ⟨hperm, rfl⟩
  | _ => exact .inl rfl

theorem Shape.sublist (h : round.Shape cfg reference target) :
    round.reference.Sublist reference ∧ round.target.Sublist target := by
  cases h with
  | move =>
    refine ⟨by simp, ?_⟩
    exact (List.drop_sublist 1 _).trans List.eraseP_sublist
  | window => exact ⟨List.drop_sublist _ _, List.drop_sublist _ _⟩
  | _ => simp [List.sublist_cons_self]

end Round

theorem plan_reports (cfg : Setting) (reference target : List Placed)
    (hd : (reference.map (·.ordinal)).Nodup) :
    Reports (plan cfg reference target) (reference.map (·.type)) (target.map (·.type)) := by
  fun_induction plan cfg reference target with
  | case1 target => exact .inl (by simp [Stage.problem?])
  | case2 target p ps round ih =>
    have hshape : round.Shape cfg (p :: ps) target := nextRound_shape
    rcases hshape.quiet_or_last with hquiet | ⟨hperm, hround⟩
    · obtain ⟨hsub, hsub'⟩ := hshape.sublist
      refine (ih (hd.sublist (hsub.map _))).mono ?_ (hsub.map _) (hsub'.map _)
      rw [List.filterMap_append, hquiet, List.nil_append]
    · rw [hround, plan_nil_nil, List.append_nil]
      exact Round.peeled_reports hperm hd

/-- One problem at most is reported. It is about parameters that change their order only, among
which some type occurs twice, so that lists without such a type give none. -/
theorem diffReported_problems {reference target : List Parameter}
    (h : diffReported names reference target = .ok report) :
    report.problems.length ≤ 1 ∧
      (∀ a ∈ report.problems, a.reference.Sublist (Parameter.types reference) ∧
        a.target.Sublist (Parameter.types target) ∧ a.reference.Perm a.target ∧
        a.reference ≠ a.target ∧ ∃ t, 2 ≤ a.reference.count t) ∧
      ((Parameter.types reference).Nodup ∨ (Parameter.types target).Nodup →
        report.problems = []) := by
  obtain ⟨d, -, -, rfl⟩ := diffReported_eq_ok h
  have hreports : Reports (stages names reference target) _ _ := plan_reports _ _ _ (by
    rw [ordinals_ofList]
    exact List.nodup_range)
  rw [types_ofList, types_ofList] at hreports
  rcases hreports with hnone | ⟨a, hone, ha⟩
  · simp [hnone]
  · rw [hone]
    refine ⟨Nat.le_refl _, List.forall_mem_singleton.2
      ⟨ha.among, ha.among_target, ha.perm, ha.differs, ha.repeated⟩, fun hnodup => ?_⟩
    obtain ⟨t, ht⟩ := ha.repeated
    have hspan : a.reference.Nodup := hnodup.elim (·.sublist ha.among) fun hn =>
      ha.perm.nodup_iff.2 (hn.sublist ha.among_target)
    have hle := List.nodup_iff_count_le_one.1 hspan t
    omega

/-- What is removed and what is in place already is not part of the problem. -/
theorem diffReported_problems_beside_others :
    let types : List ValueType := [.float, .int, .int, .long, .boolean, .long]
    let wanted : List ValueType := [.float, .long, .int, .long, .int]
    let problem : Ambiguity := ⟨[.int, .int, .long, .long], [.long, .int, .long, .int]⟩
    let script : Script := [.remove 4, .move 3 1, .swap 4 3]
    diffReported .never (types.map .unnamed) (wanted.map .unnamed) = .ok ⟨script, [problem]⟩ ∧
      problem.reference.Perm problem.target ∧ ∃ t, 2 ≤ problem.reference.count t := by
  intro types wanted problem script
  have hreported : diffReported .never (types.map .unnamed) (wanted.map .unnamed) =
      .ok ⟨script, [problem]⟩ := by
    decide +kernel
  obtain ⟨-, -, hperm, -, hrepeated⟩ :=
    (diffReported_problems hreported).2.1 problem List.mem_cons_self
  exact ⟨hreported, hperm, hrepeated⟩

end Reparam
