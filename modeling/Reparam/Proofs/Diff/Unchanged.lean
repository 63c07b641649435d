import Reparam.Proofs.Diff.Strangers
import Reparam.Proofs.Diff.Applying

/-! What a comparison leaves alone: lists with the same types altogether, whatever their names, and
the beginning that lists of different lengths share. -/
namespace Reparam

variable {names : NameTieBreak} {cfg : Setting} {d : Draft} {p q p₁ q₁ : Placed}
  {ps qs : List Placed} {reference target : List Parameter} {stage : Stage} {l : List Stage}

namespace Round

theorem replaceAt_of_sameType (h : p.type = q.type) : replaceAt? 0 (p :: ps) (q :: qs) = none := by
  simp [replaceAt?, sameType_iff.2 h]

/-- The last two parameters are looked at together only if there are two on either side. -/
theorem replace_of_length_ne (h : ps.length ≠ qs.length) : replace? ps qs = replaceAt? 0 ps qs := by
  unfold replace?
  split
  · exact absurd rfl h
  · exact Option.or_none

theorem replace_of_leading (hlen : ps.length ≠ qs.length) (h : p.type = q.type) :
    replace? (p :: ps) (q :: qs) = none := by
  rw [replace_of_length_ne (by simpa using hlen), replaceAt_of_sameType h]

theorem replace_of_types (h : ps.map (·.type) = qs.map (·.type)) : replace? ps qs = none := by
  obtain _ | ⟨p, ps⟩ := ps
  · obtain rfl : qs = [] := List.map_eq_nil_iff.1 h.symm
    rfl
  obtain _ | ⟨q, qs⟩ := qs
  · cases h
  obtain ⟨htype, hrest⟩ := List.cons.inj h
  unfold replace?
  rw [replaceAt_of_sameType htype, Option.none_or]
  obtain _ | ⟨p₁, _ | ⟨p₂, ps⟩⟩ := ps
  · rfl
  · obtain _ | ⟨q₁, _ | ⟨q₂, qs⟩⟩ := qs
    · rfl
    · have htype₁ : p₁.type = q₁.type := (List.cons.inj hrest).1
      simp [replaceAt?, Placed.sameType, htype, htype₁]
    · rfl
  · rfl

end Round

theorem plan_of_nextRound {round : Round} (h : nextRound cfg p ps qs = round) :
    plan cfg (p :: ps) qs = round.stages ++ plan cfg round.reference round.target := by
  rw [plan, h]

theorem plan_nil_nil : plan cfg [] [] = [] := by
  rw [plan]
  rfl

/-- A round that rearranges leaves nothing for another one. -/
theorem plan_of_rearrange (hkeep : Round.keep? cfg p ps qs = none)
    (hreplace : Round.replace? (p :: ps) qs = none)
    (h : Round.rearrange? (p :: ps) qs = some ⟨l, [], []⟩) : plan cfg (p :: ps) qs = l := by
  have hnext : nextRound cfg p ps qs = ⟨l, [], []⟩ := by
    simp only [nextRound, hkeep, hreplace, h, Option.getD_some]
  rw [plan_of_nextRound hnext, plan_nil_nil, List.append_nil]

/-- Nor does a window around all that is left. -/
theorem plan_of_narrow (hkeep : Round.keep? cfg p ps qs = none)
    (hreplace : Round.replace? (p :: ps) qs = none)
    (hrearrange : Round.rearrange? (p :: ps) qs = none)
    (h : Round.narrow cfg p ps qs = ⟨l, [], []⟩) : plan cfg (p :: ps) qs = l := by
  have hnext : nextRound cfg p ps qs = ⟨l, [], []⟩ := by
    simp only [nextRound, hkeep, hreplace, hrearrange, h, Option.getD_none]
  rw [plan_of_nextRound hnext, plan_nil_nil, List.append_nil]

/-- Between lists of one size, a pair is taken off if it matches by itself. -/
theorem nextRound_of_match (hsize : cfg.sameSize = true) (htype : p.type = q.type)
    (hname : (!cfg.compareNames || p.sameName q) = true) :
    nextRound cfg p ps (q :: qs) = ⟨[], ps, qs⟩ := by
  simp [nextRound, Round.keep?, Round.keepSameSize, hsize, Round.sameType_iff.2 htype, hname]

/-- A pair of one type is taken off, or else its names differ and all that is left is found to be in
order. -/
theorem nextRound_of_types (hsize : cfg.sameSize = true) (htype : p.type = q.type)
    (hrest : ps.map (·.type) = qs.map (·.type)) :
    nextRound cfg p ps (q :: qs) = ⟨[], ps, qs⟩ ∨ nextRound cfg p ps (q :: qs) = ⟨[], [], []⟩ := by
  have htypes : (p :: ps).map (·.type) = (q :: qs).map (·.type) := by simp [htype, hrest]
  by_cases hname : !cfg.compareNames || p.sameName q
  · exact .inl (nextRound_of_match hsize htype hname)
  · right
    have hkeep : Round.keep? cfg p ps (q :: qs) = none := by
      simp [Round.keep?, Round.keepSameSize, hsize, Round.sameType_iff.2 htype, hname]
    simp only [nextRound, hkeep, Round.replace_of_types htypes, Round.rearrange_same htypes]
    rfl

theorem plan_of_types (hsize : cfg.sameSize = true) (h : ps.map (·.type) = qs.map (·.type)) :
    plan cfg ps qs = [] := by
  induction ps generalizing qs with
  | nil =>
    obtain rfl : qs = [] := List.map_eq_nil_iff.1 h.symm
    exact plan_nil_nil
  | cons p ps ih =>
    obtain _ | ⟨q, qs⟩ := qs
    · cases h
    obtain ⟨htype, hrest⟩ := List.cons.inj h
    rcases nextRound_of_types hsize htype hrest with hround | hround
    · rw [plan_of_nextRound hround]
      exact ih hrest
    · rw [plan_of_nextRound hround]
      exact plan_nil_nil

/-- Where the sizes differ, a pair is taken off if the pair behind it matches. -/
theorem nextRound_of_agrees (hsize : cfg.sameSize = false) (hsame : p.type = q.type)
    (hnext : p₁.agrees q₁ = true) :
    nextRound cfg p (p₁ :: ps) (q :: q₁ :: qs) = ⟨[], p₁ :: ps, q₁ :: qs⟩ := by
  simp [nextRound, Round.keep?, Round.keepOtherSize, hsize, Round.sameType_iff.2 hsame, hnext]

theorem Placed.agrees_self (p : Placed) : p.agrees p = true := by
  simp [agrees, sameType, sameName]

/-- Of parameters that come first in both lists, all but the last are taken off. -/
theorem plan_behind (hsize : cfg.sameSize = false) (front : List Placed) (p : Placed)
    (ps qs : List Placed) :
    plan cfg (front ++ p :: ps) (front ++ p :: qs) = plan cfg (p :: ps) (p :: qs) := by
  induction front with
  | nil => rfl
  | cons first front ih =>
    -- what comes next is the same on both sides, be it of the front or not
    obtain ⟨next, ps', qs', hps, hqs⟩ : ∃ next ps' qs', front ++ p :: ps = next :: ps' ∧
        front ++ p :: qs = next :: qs' := by
      cases front <;> exact ⟨_, _, _, rfl, rfl⟩
    rw [← ih, List.cons_append, List.cons_append, hps, hqs,
      plan_of_nextRound (nextRound_of_agrees hsize rfl next.agrees_self)]
    rfl

namespace Placed

/-- Gives parameters their indices behind others. -/
def ofListFrom (start : Nat) (params : List Parameter) : List Placed :=
  (params.zipIdx start).map fun (p, i) => ⟨p, i⟩

theorem ofListFrom_cons (start : Nat) (p : Parameter) (params : List Parameter) :
    ofListFrom start (p :: params) = ⟨p, start⟩ :: ofListFrom (start + 1) params := by
  simp [ofListFrom, List.zipIdx_cons]

theorem ofListFrom_append (start : Nat) (params more : List Parameter) :
    ofListFrom start (params ++ more) =
      ofListFrom start params ++ ofListFrom (start + params.length) more := by
  simp [ofListFrom, List.zipIdx_append]

theorem ofList_append (params more : List Parameter) :
    ofList (params ++ more) = ofList params ++ ofListFrom params.length more := by
  simp [ofList, ofListFrom, List.zipIdx_append]

theorem ofList_concat (params : List Parameter) (p : Parameter) :
    ofList (params ++ [p]) = ofList params ++ [⟨p, params.length⟩] :=
  ofList_append params [p]

theorem types_ofListFrom (start : Nat) (params : List Parameter) :
    (ofListFrom start params).map (·.type) = Parameter.types params := by
  induction params generalizing start with
  | nil => rfl
  | cons p params ih => rw [ofListFrom_cons, List.map_cons, ih]; rfl

theorem ofList_split (front back : List ValueType) (x : ValueType) :
    ofList ((front ++ x :: back).map .unnamed) =
      ofList (front.map .unnamed) ++ ⟨.unnamed x, front.length⟩ ::
        ofListFrom (front.length + 1) (back.map .unnamed) := by
  rw [List.map_append, ofList_append, List.map_cons, ofListFrom_cons, List.length_map]

end Placed

/-- The stage moves nothing early and leaves nothing to report. -/
def Stage.Quiet (stage : Stage) : Prop := stage.isMove = false ∧ stage.problem? = none

/-- A draft made by quiet stages has the target's types, so that its script is the result. -/
theorem diffReported_of_stages (hl : stages names reference target = l)
    (hquiet : ∀ stage ∈ l, stage.Quiet)
    (hd : l.foldlM Draft.perform (.initial reference.length) = .ok d) :
    diffReported names reference target = .ok ⟨d.script, []⟩ := by
  subst hl
  obtain ⟨d', hd', hreport⟩ := diffReported_in_step fun stage hs => (hquiet stage hs).1
  cases hd.symm.trans hd'
  rw [hreport, List.filterMap_eq_nil_iff.2 fun stage hs => (hquiet stage hs).2]

theorem diffReported_of_plan {types wanted : List ValueType} {same : Bool}
    (hsame : decide (types.length = wanted.length) = same)
    (hplan : plan ⟨same, false⟩ (Placed.ofList (types.map .unnamed))
      (Placed.ofList (wanted.map .unnamed)) = l)
    (hquiet : ∀ stage ∈ l, stage.Quiet)
    (hd : l.foldlM Draft.perform (.initial types.length) = .ok d) :
    diffReported .never (types.map .unnamed) (wanted.map .unnamed) = .ok ⟨d.script, []⟩ := by
  subst hsame
  refine diffReported_of_stages ?_ hquiet (by simpa using hd)
  simpa [stages, NameTieBreak.resolve] using hplan

theorem diffReported_of_types (h : Parameter.types reference = Parameter.types target) :
    diffReported names reference target = .ok ⟨[], []⟩ := by
  have hsize : reference.length = target.length := by
    simpa [Parameter.types] using congrArg List.length h
  have hstages : stages names reference target = [] :=
    plan_of_types (by simpa using hsize) (by rw [types_ofList, types_ofList, h])
  exact diffReported_of_stages hstages (by simp) rfl

/-- A comparison gives the empty script just for lists with the same types in the same order, and
then it has nothing to report. -/
theorem diffReported_empty_iff (names : NameTieBreak) (reference target : List Parameter) :
    ((∃ report, diffReported names reference target = .ok report ∧ report.script = []) ↔
        Parameter.types reference = Parameter.types target) ∧
      (diffReported names reference target = .ok ⟨[], []⟩ ↔
        Parameter.types reference = Parameter.types target) := by
  have htypes (report : DiffReport) (h : diffReported names reference target = .ok report)
      (hscript : report.script = []) : Parameter.types reference = Parameter.types target := by
    have hdiff : diff names reference target = .ok report.script := by
      rw [diff, h]
      rfl
    have hreplay := (diff_eq_ok hdiff).2
    rw [hscript] at hreplay
    exact Except.ok.inj hreplay
  refine ⟨⟨?_, fun h => ⟨_, diffReported_of_types h, rfl⟩⟩, ⟨fun h => ?_, diffReported_of_types⟩⟩
  · rintro ⟨report, h, hscript⟩
    exact htypes report h hscript
  · exact htypes _ h rfl

end Reparam
