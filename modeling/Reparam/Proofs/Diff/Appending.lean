import Reparam.Proofs.Diff.Emitting
import Reparam.Proofs.Diff.Unchanged

/-! Comparing a list with a longer one that begins with it. All but its last parameter are taken off
in pairs. What the longer list has behind is then inserted, and it is the same whether that is left
to the end, or done as a peeled rest, or by the window of the last parameter. -/
namespace Reparam

variable {names : NameTieBreak} {cfg : Setting} {p : Placed} {more : List Placed} {round : Round}
  {params added : List Parameter}

namespace Round

/-- The last parameter stays where parameters are peeled off the target. -/
theorem peelBoth_longer (p : Placed) (more : List Placed) : ∃ f : Placed → Bool,
    peelBoth [p] (p :: more) =
      ⟨[], [p], more.filter f, p :: more.filter fun q => !f q⟩ := by
  have hknown : Known [p] (p :: more) := by simp [Known]
  by_cases htarget : Known (p :: more) [p]
  · refine ⟨fun _ => false, ?_⟩
    rw [peelBoth_eq_ite, if_pos hknown, if_pos htarget]
    simp
  · refine ⟨fun q => Rearrangement.countType q.type (p :: more) = 1 &&
      Rearrangement.countType q.type [p] = 0, ?_⟩
    rw [peelBoth_eq_ite, if_pos hknown, if_neg htarget, peel, List.partition_eq_filter_filter]
    have hstays : Rearrangement.countType p.type [p] ≠ 0 := by simp [countType_eq_zero_iff]
    simp [hstays, Function.comp_def]

theorem rearrange_longer (h : rearrange? [p] (p :: more) = some round) :
    round = ⟨insertions more, [], []⟩ := by
  obtain ⟨f, hpeel⟩ := peelBoth_longer p more
  have hperm := h
  simp only [rearrange?, hpeel] at hperm
  split at hperm
  · rename_i hsame
    have hnone : more.filter (fun q => !f q) = [] := by
      simpa using (List.isPerm_iff.1 hsame).length_eq
    have hall : more.filter f = more := by
      rw [List.filter_eq_nil_iff] at hnone
      exact List.filter_eq_self.2 fun q hq => by simpa using hnone q hq
    rw [hnone, hall] at hpeel
    exact (Option.some.inj ((rearrange_of_types hpeel rfl).symm.trans h)).symm
  · cases hperm

theorem narrow_longer : narrow cfg p [] (p :: more) = ⟨[.window [p] (p :: more)], [], []⟩ := by
  simp [narrow, ahead?, secondNamesAgree, cut, Placed.sameType]

end Round

theorem plan_longer (hsize : cfg.sameSize = false) (p : Placed) (more : List Placed) :
    plan cfg [p] (p :: more) = insertions more ∨
      plan cfg [p] (p :: more) = [.window [p] (p :: more)] := by
  have hkeep : Round.keep? cfg p [] (p :: more) = none := by
    simp [Round.keep?, Round.keepOtherSize, hsize]
  have hreplace : Round.replace? [p] (p :: more) = none := by
    unfold Round.replace?
    rw [Round.replaceAt_of_sameType rfl]
    rfl
  cases hrearrange : Round.rearrange? [p] (p :: more) with
  | some round =>
    rw [Round.rearrange_longer hrearrange] at hrearrange
    exact .inl (plan_of_rearrange hkeep hreplace hrearrange)
  | none => exact .inr (plan_of_narrow hkeep hreplace hrearrange Round.narrow_longer)

/-- The plan names the parameters behind by their places in the longer list. -/
theorem plan_append (hsize : cfg.sameSize = false) (params added : List Parameter) :
    let more := Placed.ofListFrom params.length added
    plan cfg (Placed.ofList params) (Placed.ofList (params ++ added)) = insertions more ∨
      ∃ p : Placed, p.ordinal + 1 = params.length ∧
        plan cfg (Placed.ofList params) (Placed.ofList (params ++ added)) =
          [.window [p] (p :: more)] := by
  intro more
  obtain rfl | ⟨front, last, hparams⟩ := List.eq_nil_or_concat params
  · exact .inl (plan.eq_1 ..)
  · rw [List.concat_eq_append] at hparams
    subst hparams
    have hplan : plan cfg (Placed.ofList (front ++ [last]))
          (Placed.ofList (front ++ [last] ++ added)) =
        plan cfg [⟨last, front.length⟩] (⟨last, front.length⟩ :: more) := by
      rw [Placed.ofList_append (front ++ [last]), Placed.ofList_concat, List.append_assoc]
      exact plan_behind hsize _ _ [] _
    rw [hplan]
    exact (plan_longer hsize _ more).imp_right fun h => ⟨_, by simp, h⟩

theorem quiet_insertions (more : List Placed) : ∀ stage ∈ insertions more, stage.Quiet := by
  intro stage hs
  obtain ⟨q, -, rfl⟩ := List.mem_map.1 hs
  exact ⟨rfl, rfl⟩

theorem numberedFrom_behind (params added : List Parameter) :
    NumberedFrom params.length (Placed.ofListFrom params.length added) := by
  have hdrop := (numberedFrom_ofList (params ++ added)).drop (Placed.ofList params).length
  rwa [Placed.ofList_append, List.drop_left, length_ofList, Nat.zero_add] at hdrop

/-- Comparing a list with one that has more parameters behind gives their insertions in order, each
at its place, and nothing to report. -/
theorem diffReported_append (names : NameTieBreak) (params added : List Parameter) :
    diffReported names params (params ++ added) =
      .ok ⟨Script.appending params.length (Parameter.types added), []⟩ := by
  obtain rfl | hne := eq_or_ne added []
  · rw [List.append_nil]
    exact diffReported_of_types rfl
  have hsize : params.length ≠ (params ++ added).length := by simpa using hne
  have huntouched := Draft.initial_untouched params.length
  obtain ⟨working, hemit⟩ := (Draft.initial params.length).emit_appending (Parameter.types added)
  rw [huntouched.length] at hemit
  -- either way the stages emit one and the same script
  rcases @plan_append
    ⟨params.length = (params ++ added).length, names.resolve params (params ++ added)⟩
    (by simpa using hsize) params added with hplan | ⟨p, hp, hplan⟩
  · refine diffReported_of_stages hplan (quiet_insertions _) (Eq.trans ?_ hemit)
    rw [Draft.insert_behind (by rw [huntouched.length]; exact numberedFrom_behind _ _),
      huntouched.length, Placed.types_ofListFrom]
  · refine diffReported_of_stages hplan (fun stage hs => ?_) (Eq.trans ?_ hemit)
    · rw [List.mem_singleton.1 hs]
      exact ⟨rfl, rfl⟩
    · rw [foldlM_single]
      rw [← hp] at huntouched ⊢
      rw [huntouched.window_longer rfl, Placed.types_ofListFrom]

end Reparam
