import Reparam.Proofs.Diff.InStep
import Reparam.Proofs.Traversal

/-! When a comparison succeeds. The stages can always be carried out and leave a list of the target's
length; if no parameter is moved early, it also has the target's types. Early moves are made only
between lists of different lengths whose names are not compared. -/
namespace Reparam

variable {names : NameTieBreak} {cfg : Setting} {d : Draft} {items : List Item} {round : Round}
  {reference target : List Placed}

theorem ordinals_ofList (params : List Parameter) :
    (Placed.ofList params).map (·.ordinal) = List.range params.length := by
  refine List.ext_getElem (by simp [Placed.ofList]) fun i hi hi' => ?_
  simp [Placed.ofList]

theorem initial_shows (params : List Parameter) :
    (Draft.initial params.length).Shows (Parameter.types params)
      ((Placed.ofList params).map Placed.item) where
  working := by
    refine List.ext_getElem (by simp [Draft.initial, Placed.ofList]) fun i hi hi' => ?_
    simp [Draft.initial, Placed.ofList, Placed.item]
  replay := by
    change Except.ok (Parameter.types params) = _
    congr 1
    refine List.ext_getElem (by simp [Parameter.types, Placed.ofList]) fun i hi hi' => ?_
    simp [Parameter.types, Placed.ofList, Placed.item]
  distinct := by
    rw [present_items, ordinals_ofList]
    exact List.nodup_range

theorem types_ofList (params : List Parameter) :
    (Placed.ofList params).map (·.type) = Parameter.types params := by
  refine List.ext_getElem (by simp [Parameter.types, Placed.ofList]) fun i hi hi' => ?_
  simp [Parameter.types, Placed.ofList]

theorem length_ofList (params : List Parameter) : (Placed.ofList params).length = params.length := by
  simp [Placed.ofList]

namespace Round

theorem isMove_peeled (l : Peeled) : ∀ stage ∈ l.stages, stage.isMove = false := by
  intro stage hs
  obtain ⟨_, rfl⟩ | ⟨_, _, rfl⟩ | ⟨_, _, rfl⟩ := l.mem_stages hs <;> rfl

theorem Shape.isMove (h : round.Shape cfg reference target)
    (hcfg : cfg.sameSize = true ∨ cfg.compareNames = true) :
    ∀ stage ∈ round.stages, stage.isMove = false := by
  cases h with
  | move hsize hnames => simp [hsize, hnames] at hcfg
  | rearrange => exact isMove_peeled _
  | keep | dropFirst | insertBehind | replace | replaceSecond | swap | window | dropSecond =>
    simp [cut, Stage.isMove]

end Round

/-- Between lists of one size, and wherever names are compared, nothing is moved early. -/
theorem isMove_plan (hcfg : cfg.sameSize = true ∨ cfg.compareNames = true) :
    ∀ stage ∈ plan cfg reference target, stage.isMove = false := by
  fun_induction plan cfg reference target with
  | case1 target =>
    intro stage hs
    obtain ⟨q, -, rfl⟩ := List.mem_map.1 hs
    rfl
  | case2 target p ps round ih =>
    intro stage hs
    rcases List.mem_append.1 hs with hs | hs
    · exact nextRound_shape.isMove hcfg stage hs
    · exact ih stage hs

/-- The draft that the stages of a comparison lead to. -/
def drafted (names : NameTieBreak) (reference target : List Parameter) : Except DiffError Draft :=
  (stages names reference target).foldlM Draft.perform (.initial reference.length)

theorem drafted_fits (names : NameTieBreak) (reference target : List Parameter) :
    ∃ items, Gives (Parameter.types reference) (drafted names reference target) items ∧
      items.length = target.length := by
  have hfits : Fits target.length (Placed.ofList reference) (Placed.ofList target)
      ((Placed.ofList reference).map Placed.item) := by
    refine ⟨by simpa using within_items (Placed.ofList reference) [], ?_⟩
    rw [List.length_map, length_ofList, length_ofList, Nat.add_comm]
  obtain ⟨items, hgives, hend⟩ := plan_keeps (P := fun _ => True)
    (fun p ps target _ => nextRound_shape.fits) Fits.insertions
    (fun _ _ => trivial) (initial_shows reference) hfits
  exact ⟨items, hgives, by simpa using hend.length⟩

theorem drafted_in_step {reference target : List Parameter}
    (h : ∀ stage ∈ stages names reference target, stage.isMove = false) :
    ∃ items, Gives (Parameter.types reference) (drafted names reference target) items ∧
      items.map (·.2) = Parameter.types target := by
  have hstep : InStep (Parameter.types target) (Placed.ofList reference) (Placed.ofList target)
      ((Placed.ofList reference).map Placed.item) :=
    ⟨[], [], by simp, by simp [types_ofList], numberedFrom_ofList target⟩
  obtain ⟨items, hgives, pre, post, rfl, hwanted, -⟩ := plan_keeps (P := (·.isMove = false))
    (fun p ps target hs => nextRound_shape.in_step hs) InStep.insertions h
    (initial_shows reference) hstep
  exact ⟨_, hgives, by simpa using hwanted.symm⟩

theorem verify_eq {reference target : List Parameter}
    (h : d.Shows (Parameter.types reference) items) (hlen : items.length = target.length) :
    verify d reference target =
      if items.map (·.2) = Parameter.types target then .ok d.script
      else .error (.wrongTypes d.script) := by
  have hworking : d.working.length = target.length := by rw [h.working, List.length_map, hlen]
  rw [verify, if_neg (by simp [hworking]), h.replay]

theorem diffReported_eq {reference target : List Parameter}
    (hd : drafted names reference target = .ok d)
    (hv : verify d reference target = .ok d.script) :
    diffReported names reference target =
      .ok ⟨d.script, (stages names reference target).filterMap (·.problem?)⟩ := by
  rw [drafted] at hd
  simp only [diffReported, hd, bind, Except.bind, hv]
  rfl

theorem diffReported_error {reference target : List Parameter} {err : DiffError}
    (hd : drafted names reference target = .ok d) (hv : verify d reference target = .error err) :
    diffReported names reference target = .error err := by
  rw [drafted] at hd
  simp only [diffReported, hd, bind, Except.bind, hv]

/-- A report holds the script of the draft that the stages led to, and the problems of the stages. -/
theorem diffReported_eq_ok {reference target : List Parameter} {report : DiffReport}
    (h : diffReported names reference target = .ok report) :
    ∃ d, drafted names reference target = .ok d ∧ d.script.replay (Parameter.types reference) =
        .ok (Parameter.types target) ∧
      report = ⟨d.script, (stages names reference target).filterMap (·.problem?)⟩ := by
  obtain ⟨d, hd, h⟩ := exists_of_bind h
  obtain ⟨script, hverify, h⟩ := exists_of_bind h
  cases h
  unfold verify at hverify
  split at hverify
  · cases hverify
  · split at hverify
    · cases hverify
    · split at hverify
      · rename_i types hreplay htypes
        cases hverify
        exact ⟨d, hd, htypes ▸ hreplay, rfl⟩
      · cases hverify

/-- If no parameter is moved early, the script of the completed draft is the result. -/
theorem diffReported_in_step {reference target : List Parameter}
    (h : ∀ stage ∈ stages names reference target, stage.isMove = false) :
    ∃ d, drafted names reference target = .ok d ∧ diffReported names reference target =
      .ok ⟨d.script, (stages names reference target).filterMap (·.problem?)⟩ := by
  obtain ⟨items, ⟨d, hd, hshows⟩, htypes⟩ := drafted_in_step h
  have hlen : items.length = target.length := by
    simpa [Parameter.types] using congrArg List.length htypes
  have hverify : verify d reference target = .ok d.script := by
    rw [verify_eq hshows hlen, if_pos htypes]
  exact ⟨d, hd, diffReported_eq hd hverify⟩

/-- Lists of one length, and lists whose names are compared, can always be compared: every stage is
carried out, and the script takes the types of the reference to those of the target. -/
theorem diffReported_succeeds (names : NameTieBreak) (reference target : List Parameter)
    (h : reference.length = target.length ∨ names.resolve reference target = true) :
    ∃ report, diffReported names reference target = .ok report ∧
      report.script.replay (Parameter.types reference) = .ok (Parameter.types target) := by
  have hmoves : ∀ stage ∈ stages names reference target, stage.isMove = false := by
    refine isMove_plan ?_
    rcases h with h | h
    · exact .inl (by simpa using h)
    · exact .inr h
  obtain ⟨items, ⟨d, hd, hshows⟩, htypes⟩ := drafted_in_step hmoves
  have hlen : items.length = target.length := by
    simpa [Parameter.types] using congrArg List.length htypes
  have hverify : verify d reference target = .ok d.script := by
    rw [verify_eq hshows hlen, if_pos htypes]
  exact ⟨_, diffReported_eq hd hverify, by rw [← htypes]; exact hshows.replay⟩

theorem diffReported_succeeds_on_swap :
    [Parameter.unnamed .int, .unnamed .long].length =
        [Parameter.unnamed .long, .unnamed .int].length ∧
      ∃ report, diffReported .never [.unnamed .int, .unnamed .long]
          [.unnamed .long, .unnamed .int] = .ok report ∧
        report.script.replay [.int, .long] = .ok [.long, .int] :=
  ⟨rfl, diffReported_succeeds .never _ _ (.inl rfl)⟩

/-- Bare types are compared without an error just when the draft, which is always completed and has
as many parameters as the target, has the target's types. It has if no parameter is moved early. -/
theorem diffTypes_succeeds_iff (reference target : List ValueType) :
    ∃ d out, drafted .never (reference.map .unnamed) (target.map .unnamed) = .ok d ∧
      d.script.replay reference = .ok out ∧ out.length = target.length ∧
      ((∃ script, diffTypes reference target = .ok script) ↔ out = target) ∧
      (out ≠ target → diffTypes reference target = .error (.wrongTypes d.script)) ∧
      ((∀ stage ∈ stages .never (reference.map .unnamed) (target.map .unnamed),
        stage.isMove = false) → out = target) := by
  obtain ⟨items, ⟨d, hd, hshows⟩, hlen⟩ :=
    drafted_fits .never (reference.map .unnamed) (target.map .unnamed)
  have hverify := verify_eq hshows hlen
  have hreplay := hshows.replay
  rw [types_unnamed] at hreplay
  simp only [types_unnamed] at hverify
  refine ⟨d, items.map (·.2), hd, hreplay, by simpa using hlen, ?_, ?_, ?_⟩
  · constructor
    · rintro ⟨script, hscript⟩
      by_contra hne
      rw [if_neg hne] at hverify
      rw [diffTypes, diff, diffReported_error hd hverify] at hscript
      cases hscript
    · intro heq
      rw [if_pos heq] at hverify
      refine ⟨d.script, ?_⟩
      rw [diffTypes, diff, diffReported_eq hd hverify]
      rfl
  · intro hne
    rw [if_neg hne] at hverify
    rw [diffTypes, diff, diffReported_error hd hverify]
    rfl
  · intro hmoves
    obtain ⟨items', ⟨d', hd', hshows'⟩, htypes⟩ := drafted_in_step hmoves
    rw [hd] at hd'
    cases hd'
    have hreplay' := hshows'.replay
    rw [types_unnamed, hreplay] at hreplay'
    rw [types_unnamed] at htypes
    exact (Except.ok.inj hreplay').trans htypes

/-- The second parameter moved away early stands between those that a later window is for. -/
theorem diffTypes_fails_after_move :
    diffTypes [.int, .long, .boolean, .int, .int, .long] [.int, .int, .double, .boolean, .int] =
      .error (.wrongTypes [.remove 1, .move 1 3, .remove 2, .replace 3 .double, .insert 4 .int]) := by
  decide +kernel

end Reparam
