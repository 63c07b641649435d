import Reparam.Proofs.Diff.Relabelling
import Reparam.Proofs.Diff.Success

/-! Comparisons of lists whose parameters get other names. What is made of two lists depends on
their types and on how reference parameters compare with target parameters of their type, and on
nothing else that names say. -/
namespace Reparam

variable {l l' : Labels} {p q : Placed} {ps qs whole reference target : List Placed}
  {index cursor : Nat}

namespace SinglePass

/-- What a parameter is compared by. -/
def mark (p : Placed) : Mark := ⟨p.type, p.synthetic⟩

theorem mark_eq_iff : mark p = mark q ↔ p.type = q.type ∧ p.synthetic = q.synthetic := by
  rw [mark, mark, Mark.mk.injEq]

theorem mark_relabel_eq_iff (h : p.Alike l l' q) :
    mark (p.relabel l) = mark (q.relabel l') ↔ mark p = mark q := by
  rw [mark_eq_iff, mark_eq_iff]
  exact and_congr_right fun htype => (h htype).2.1

def marks (ps : List Placed) : List Mark := ps.map mark

theorem exchanged_relabel (h : AllAlike l l' (p :: ps) (q :: qs)) :
    exchanged (mark (p.relabel l)) (mark (q.relabel l')) (marks (ps.map (·.relabel l)))
        (marks (qs.map (·.relabel l'))) =
      exchanged (mark p) (mark q) (marks ps) (marks qs) := by
  obtain _ | ⟨p₁, ps⟩ := ps
  · rfl
  obtain _ | ⟨q₁, qs⟩ := qs
  · rfl
  have hcross := mark_relabel_eq_iff (h p (by simp) q₁ (by simp))
  simp only [eq_comm (a := mark (p.relabel l)), eq_comm (a := mark p)] at hcross
  simp only [marks, List.map_cons, exchanged, hcross]
  rfl

theorem dropped_relabel (hwhole : AllAlike l l' whole qs) (h : AllAlike l l' ps (q :: qs)) :
    dropped (marks (whole.map (·.relabel l))) cursor (mark (q.relabel l'))
        (marks (ps.map (·.relabel l))) (marks (qs.map (·.relabel l'))) =
      dropped (marks whole) cursor (mark q) (marks ps) (marks qs) := by
  obtain _ | ⟨p₁, ps⟩ := ps
  · rfl
  obtain _ | ⟨q₁, qs⟩ := qs
  · rfl
  have hnext := mark_relabel_eq_iff (h p₁ (by simp) q (by simp))
  have hahead : ((marks (whole.map (·.relabel l)))[cursor + 2]?.all (· = mark (q₁.relabel l'))) =
      (marks whole)[cursor + 2]?.all (· = mark q₁) := by
    simp only [marks, List.map_map, List.getElem?_map]
    cases hp : whole[cursor + 2]? with
    | none => rfl
    | some p₂ =>
      have hsecond := mark_relabel_eq_iff
        (hwhole p₂ (List.mem_of_getElem? hp) q₁ List.mem_cons_self)
      simp [hsecond]
  simp only [marks, List.map_cons, dropped] at hahead ⊢
  rw [hahead]
  simp only [hnext]

theorem findIdx_congr {α : Type} {xs : List α} {f g : α → Bool} (h : ∀ x ∈ xs, f x = g x) :
    xs.findIdx? f = xs.findIdx? g := by
  induction xs with
  | nil => rfl
  | cons x xs ih =>
    rw [List.findIdx?_cons, List.findIdx?_cons, h x List.mem_cons_self,
      ih fun y hy => h y (List.mem_cons_of_mem _ hy)]

theorem reappears_relabel (h : AllAlike l l' (p :: ps) (q :: qs)) :
    reappears? (mark (p.relabel l)) (mark (q.relabel l')) (marks (qs.map (·.relabel l'))) =
      reappears? (mark p) (mark q) (marks qs) := by
  simp only [reappears?, marks, List.map_map, List.findIdx?_map]
  refine findIdx_congr fun q₁ hq₁ => ?_
  have hsame := mark_relabel_eq_iff (h p List.mem_cons_self q₁ (List.mem_cons_of_mem _ hq₁))
  rw [mark_eq_iff, mark_eq_iff] at hsame
  by_cases htype : p.type = q₁.type
  · have hflag : (p.relabel l).synthetic = (q₁.relabel l').synthetic ↔
        p.synthetic = q₁.synthetic := by
      simpa [htype] using hsame
    have hdecide : decide ((mark (p.relabel l)).generated = (mark (q₁.relabel l')).generated) =
        decide ((mark p).generated = (mark q₁).generated) := decide_eq_decide.2 hflag
    simp only [Function.comp_apply, hdecide]
    rfl
  · simp [mark, htype]

theorem verdict_relabel (hwhole : AllAlike l l' whole (q :: qs))
    (h : AllAlike l l' (p :: ps) (q :: qs)) :
    verdict (marks (whole.map (·.relabel l))) cursor (mark (p.relabel l)) (mark (q.relabel l'))
        (marks (ps.map (·.relabel l))) (marks (qs.map (·.relabel l'))) =
      verdict (marks whole) cursor (mark p) (mark q) (marks ps) (marks qs) := by
  have hfirst := mark_relabel_eq_iff (h p List.mem_cons_self q List.mem_cons_self)
  have hdropped := @dropped_relabel l l' q ps qs whole cursor
    (hwhole.mono (List.Subset.refl _) (List.subset_cons_self q qs))
    (h.mono (List.subset_cons_self p ps) (List.Subset.refl _))
  unfold verdict
  simp only [hfirst, exchanged_relabel h, reappears_relabel h, hdropped]
  rfl

theorem numbered_relabel (l : Labels) (index : Nat) (qs : List Placed) :
    numbered index (marks (qs.map (·.relabel l))) = numbered index (marks qs) := by
  induction qs generalizing index with
  | nil => rfl
  | cons q qs ih =>
    have hrest := ih (index + 1)
    simp only [numbered, marks, List.map_cons, List.zipIdx_cons] at hrest ⊢
    rw [hrest]
    rfl

/-- A pass judges every pair of elements as it did under the old names, and so it walks the same
way. -/
theorem walk_relabel (hps : ps ⊆ whole) (h : AllAlike l l' whole qs) :
    walk (marks (whole.map (·.relabel l))) index cursor (marks (ps.map (·.relabel l)))
        (marks (qs.map (·.relabel l'))) =
      walk (marks whole) index cursor (marks ps) (marks qs) := by
  induction hn : ps.length + qs.length using Nat.strongRecOn generalizing ps qs index cursor with
  | ind n ih =>
    subst hn
    obtain _ | ⟨q, qs⟩ := qs
    · simp [marks, walk]
    obtain _ | ⟨p, ps⟩ := ps
    · have hnumbered := numbered_relabel l' index (q :: qs)
      simp only [marks, List.map_nil, List.map_cons, walk] at hnumbered ⊢
      rw [hnumbered]
    have hverdict := @verdict_relabel l l' p q ps qs whole cursor h
      (h.mono hps (List.Subset.refl _))
    have hrest : ∀ (ps' qs' : List Placed) (index' cursor' : Nat), ps' ⊆ p :: ps → qs' ⊆ q :: qs →
        ps'.length + qs'.length < (p :: ps).length + (q :: qs).length →
        walk (marks (whole.map (·.relabel l))) index' cursor' (marks (ps'.map (·.relabel l)))
            (marks (qs'.map (·.relabel l'))) =
          walk (marks whole) index' cursor' (marks ps') (marks qs') := by
      intro ps' qs' index' cursor' hps' hqs' hlt
      exact ih _ hlt (List.Subset.trans hps' hps) (h.mono (List.Subset.refl _) hqs') rfl
    have hp := List.subset_cons_self p ps
    have hq := List.subset_cons_self q qs
    simp only [marks, List.map_cons] at hverdict hrest ⊢
    rw [walk, walk, hverdict]
    generalize verdict (whole.map mark) cursor (mark p) (mark q) (ps.map mark) (qs.map mark) = v
    cases v with
    | keep =>
      simp only [hrest ps qs _ _ hp hq (by simp only [List.length_cons]; omega)]
    | swap =>
      have hnext := hrest (ps.drop 1) (qs.drop 1) (index + 2) (cursor + 2)
        (List.Subset.trans (List.drop_subset 1 ps) hp)
        (List.Subset.trans (List.drop_subset 1 qs) hq)
        (by simp only [List.length_drop, List.length_cons]; omega)
      simp only [List.map_drop] at hnext
      simp only [hnext]
    | insert further =>
      have hnext := hrest (p :: ps) (qs.drop further) (index + further + 1) (cursor + further + 1)
        (List.Subset.refl _) (List.Subset.trans (List.drop_subset further qs) hq)
        (by simp only [List.length_drop, List.length_cons]; omega)
      have hnumbered := numbered_relabel l' index (q :: qs.take further)
      simp only [marks, List.map_cons, List.map_drop, List.map_take] at hnext hnumbered
      simp only [hnext, hnumbered]
    | remove =>
      have hnext := hrest ps (q :: qs) (index + 1) cursor hp (List.Subset.refl _)
        (by simp only [List.length_cons]; omega)
      simp only [List.map_cons] at hnext
      simp only [hnext]
    | replace =>
      simp only [hrest ps qs _ _ hp hq (by simp only [List.length_cons]; omega)]
      rfl

theorem compare_relabel (h : AllAlike l l' reference target) :
    compare (reference.map (·.relabel l)) (target.map (·.relabel l')) =
      compare reference target := by
  have hwalk := @walk_relabel l l' reference target reference 0 0 (List.Subset.refl _) h
  have hcompare : compareMarks (marks (reference.map (·.relabel l)))
      (marks (target.map (·.relabel l'))) = compareMarks (marks reference) (marks target) := by
    simp only [compareMarks, hwalk]
    simp only [marks, List.length_map]
  exact hcompare

end SinglePass

namespace Rearrangement

theorem aligned_relabel (l l' : Labels) (span target : List Placed) :
    aligned (span.map (·.relabel l)) (target.map (·.relabel l')) = aligned span target := by
  simp only [aligned, List.zip_map, List.all_map]
  rfl

/-- A move under the new name of its parameter. -/
def renamed (l : Labels) (m : Placed × Nat) : Placed × Nat := (m.1.relabel l, m.2)

theorem uniqueMoves_relabel (l l' : Labels) (reference target : List Placed) :
    uniqueMoves (reference.map (·.relabel l)) (target.map (·.relabel l')) =
      (uniqueMoves reference target).map (renamed l) := by
  have hmoves (unique : List Placed) : ((unique.map (·.relabel l)).filterMap fun p =>
        ((target.map (·.relabel l')).findIdx? (·.sameType p)).map (p, ·)) =
      (unique.filterMap fun p => (target.findIdx? (·.sameType p)).map (p, ·)).map (renamed l) := by
    simp only [List.filterMap_map, List.map_filterMap, Function.comp_def, Round.findIdx_relabel,
      Option.map_map]
    rfl
  simp only [uniqueMoves, Round.countType_relabel, List.filter_map, Function.comp_def,
    Placed.relabel_type, hmoves]
  exact (List.map_mergeSort (f := renamed l) fun _ _ _ _ => rfl).symm

theorem placeUnique_relabel (l l' : Labels) (target : List Placed) (moves : List (Placed × Nat))
    (span : List Placed) :
    placeUnique (target.map (·.relabel l')) (moves.map (renamed l)) (span.map (·.relabel l)) =
      (placeUnique target moves span).map fun r => (r.1, r.2.map (·.relabel l)) := by
  induction moves generalizing span with
  | nil => rfl
  | cons m moves ih =>
    obtain ⟨p, dest⟩ := m
    have hfind : (span.map (·.relabel l)).findIdx? (·.ordinal = (p.relabel l).ordinal) =
        span.findIdx? (·.ordinal = p.ordinal) := by
      rw [List.findIdx?_map]
      rfl
    simp only [List.map_cons, renamed, placeUnique, aligned_relabel, hfind, List.getElem?_map, ih,
      relocate_map, List.length_map]
    split
    · rfl
    · cases span.findIdx? (·.ordinal = p.ordinal) with
      | none => rfl
      | some source =>
        simp only
        split
        · rfl
        · cases span[source]? with
          | none => rfl
          | some moved =>
            cases span[dest]? with
            | none => rfl
            | some place =>
              simp only [Option.map_some]
              cases placeUnique target moves (relocate span source dest) <;> rfl

theorem settle_relabel (l l' : Labels) (span target : List Placed) :
    settle (span.map (·.relabel l)) (target.map (·.relabel l')) = settle span target := by
  induction target generalizing span with
  | nil => cases span <;> rfl
  | cons wanted target ih =>
    obtain _ | ⟨p, span⟩ := span
    · rfl
    have hfind := Round.find_relabel l' l wanted span
    have herase := Round.eraseP_relabel l' l wanted span
    simp only [List.map_cons, settle, Placed.sameType_relabel, ih, hfind, herase]
    split
    · rfl
    · cases span.find? (·.sameType wanted) with
      | none => rfl
      | some moved =>
        have hrest := ih (p :: span.eraseP (·.sameType wanted))
        simp only [List.map_cons] at hrest
        simp only [Option.map_some, hrest]
        rfl

end Rearrangement

theorem rearrangement_relabel (l l' : Labels) (reference target : List Placed) :
    rearrangement (reference.map (·.relabel l)) (target.map (·.relabel l')) =
      rearrangement reference target := by
  unfold rearrangement
  rw [Rearrangement.uniqueMoves_relabel, Rearrangement.placeUnique_relabel]
  cases Rearrangement.placeUnique target (Rearrangement.uniqueMoves reference target) reference with
  | error err => rfl
  | ok placed =>
    simp only [Except.map, Rearrangement.aligned_relabel, Rearrangement.settle_relabel]

theorem Draft.perform_relabel {stage : Stage} (d : Draft) (hs : stage.DrawsOn reference target)
    (h : AllAlike l l' reference target) : d.perform (stage.relabel l l') = d.perform stage := by
  cases stage with
  | rearrange ps qs => simp only [Stage.relabel, perform, rearrange, rearrangement_relabel]
  | window ps qs =>
    have hcompare := SinglePass.compare_relabel (h.mono hs.1 hs.2)
    obtain _ | ⟨p, ps⟩ := ps
    · rfl
    have hleft (n : Nat) : (((p :: ps).map (·.relabel l)).drop n).reverse.map (·.ordinal) =
        ((p :: ps).drop n).reverse.map (·.ordinal) := by
      rw [← List.map_drop, ← List.map_reverse, List.map_map]
      rfl
    simp only [List.map_cons] at hcompare hleft
    simp only [Stage.relabel, perform, List.map_cons, compareWindow, hcompare, hleft,
      Placed.relabel_ordinal]
  | _ => rfl

theorem Stage.problem_relabel (l l' : Labels) (stage : Stage) :
    (stage.relabel l l').problem? = stage.problem? := by
  cases stage with
  | rearrange ps qs =>
    simp only [relabel, problem?, rearrangement_relabel, List.map_map]
    rfl
  | _ => rfl

/-- Relabelled stages are carried out in the same way. -/
theorem perform_all_relabel {stages : List Stage} (d : Draft)
    (hs : ∀ stage ∈ stages, stage.DrawsOn reference target) (h : AllAlike l l' reference target) :
    (stages.map (·.relabel l l')).foldlM Draft.perform d = stages.foldlM Draft.perform d := by
  induction stages generalizing d with
  | nil => rfl
  | cons stage stages ih =>
    rw [List.map_cons, List.foldlM_cons, List.foldlM_cons,
      d.perform_relabel (hs stage List.mem_cons_self) h]
    exact bind_congr fun d' => ih d' fun stage' hs' => hs stage' (List.mem_cons_of_mem _ hs')

/-- The names of parameters, and whether they are synthetic. -/
def labels (params : List Parameter) : Labels := fun i =>
  (params[i]?.bind (·.name), params[i]?.any (·.synthetic))

theorem length_eq_of_types {params params' : List Parameter}
    (h : Parameter.types params' = Parameter.types params) : params'.length = params.length := by
  simpa [Parameter.types] using congrArg List.length h

theorem ofList_relabel {params params' : List Parameter}
    (h : Parameter.types params' = Parameter.types params) :
    Placed.ofList params' = (Placed.ofList params).map (·.relabel (labels params')) := by
  have hlen := length_eq_of_types h
  refine List.ext_getElem (by simp [Placed.ofList, hlen]) fun i hi hi' => ?_
  have hi : i < params'.length := by simpa [Placed.ofList] using hi
  have htype : params'[i].type = params[i].type := by
    simpa [Parameter.types, hi, hlen ▸ hi] using congrArg (·[i]?) h
  simp [Placed.ofList, Placed.relabel, labels, hi, ← htype]

namespace Placed

/-- What is read off a reference parameter and a target parameter of one type: whether their names
agree, whether both or none of them are synthetic, and whether they are the same altogether. -/
def contrast (p q : Placed) : Bool × Bool × Bool :=
  (p.sameName q, p.synthetic = q.synthetic, p = q)

end Placed

/-- Reference and target parameters of one type compare as their counterparts do. -/
def SameContrasts (reference reference' target target' : List Parameter) : Prop :=
  ∀ p ∈ (Placed.ofList reference).zip (Placed.ofList reference'),
    ∀ q ∈ (Placed.ofList target).zip (Placed.ofList target'),
      p.1.type = q.1.type → p.2.contrast q.2 = p.1.contrast q.1

theorem SameContrasts.alike {reference reference' target target' : List Parameter}
    (h : SameContrasts reference reference' target target')
    (hr : Parameter.types reference' = Parameter.types reference)
    (ht : Parameter.types target' = Parameter.types target) :
    AllAlike (labels reference') (labels target') (Placed.ofList reference)
      (Placed.ofList target) := by
  intro p hp q hq htype
  have hcontrast := h (p, p.relabel (labels reference'))
    (by rw [ofList_relabel hr, ← List.map_prod_left_eq_zip]; exact List.mem_map_of_mem hp)
    (q, q.relabel (labels target'))
    (by rw [ofList_relabel ht, ← List.map_prod_left_eq_zip]; exact List.mem_map_of_mem hq) htype
  simp only [Placed.contrast, Prod.mk.injEq, decide_eq_decide] at hcontrast
  exact hcontrast

variable {names names' : NameTieBreak} {reference reference' target target' : List Parameter}

theorem stages_relabel (hr : Parameter.types reference' = Parameter.types reference)
    (ht : Parameter.types target' = Parameter.types target)
    (hn : names'.resolve reference' target' = names.resolve reference target)
    (h : SameContrasts reference reference' target target') :
    stages names' reference' target' =
      (stages names reference target).map (·.relabel (labels reference') (labels target')) := by
  simp only [stages, hn, length_eq_of_types hr, length_eq_of_types ht, ofList_relabel hr,
    ofList_relabel ht]
  exact plan_relabel (h.alike hr ht)

theorem diffReported_congr (hr : Parameter.types reference' = Parameter.types reference)
    (ht : Parameter.types target' = Parameter.types target)
    (hn : names'.resolve reference' target' = names.resolve reference target)
    (h : SameContrasts reference reference' target target') :
    diffReported names' reference' target' = diffReported names reference target := by
  have hverify (d : Draft) : verify d reference' target' = verify d reference target := by
    simp only [verify, hr, ht, length_eq_of_types ht]
  have hperform (d : Draft) :
      ((stages names reference target).map
        (·.relabel (labels reference') (labels target'))).foldlM Draft.perform d =
        (stages names reference target).foldlM Draft.perform d :=
    perform_all_relabel d drawsOn_plan (h.alike hr ht)
  simp only [diffReported, stages_relabel hr ht hn h, length_eq_of_types hr, hverify, hperform,
    List.filterMap_map, Function.comp_def, Stage.problem_relabel]

/-- Parameters of one type compare like bare types if both or none of them are synthetic, and if
those at one place have one name. -/
def BareContrasts (reference target : List Parameter) : Prop :=
  ∀ p ∈ Placed.ofList reference, ∀ q ∈ Placed.ofList target,
    p.type = q.type → p.synthetic = q.synthetic ∧ (p.ordinal = q.ordinal → p.name = q.name)

theorem contrast_unnamed {p q : Placed} (htype : p.type = q.type)
    (hflag : p.synthetic = q.synthetic) (hname : p.ordinal = q.ordinal → p.name = q.name) :
    Placed.contrast ⟨.unnamed p.type, p.ordinal⟩ ⟨.unnamed q.type, q.ordinal⟩ = p.contrast q := by
  have hsame : p = q ↔ p.ordinal = q.ordinal := by
    refine ⟨congrArg Placed.ordinal, fun hordinal => ?_⟩
    obtain ⟨⟨t, name, flag⟩, ordinal⟩ := p
    simp_all
  simp [Placed.contrast, Placed.sameName, Parameter.unnamed, htype, hflag, hsame]

theorem BareContrasts.same (h : BareContrasts reference target) :
    SameContrasts reference ((Parameter.types reference).map .unnamed) target
      ((Parameter.types target).map .unnamed) := by
  have hbare (params : List Parameter) :
      Placed.ofList ((Parameter.types params).map .unnamed) =
        (Placed.ofList params).map fun p => ⟨.unnamed p.type, p.ordinal⟩ := by
    refine List.ext_getElem (by simp [Placed.ofList, Parameter.types]) fun i hi hi' => ?_
    simp [Placed.ofList, Parameter.types]
  intro p hp q hq htype
  rw [hbare, ← List.map_prod_left_eq_zip] at hp hq
  obtain ⟨p', hp', rfl⟩ := List.mem_map.1 hp
  obtain ⟨q', hq', rfl⟩ := List.mem_map.1 hq
  obtain ⟨hflag, hname⟩ := h p' hp' q' hq' htype
  exact contrast_unnamed htype hflag hname

/-- While names are not compared, lists with the same types give the same result if what is
synthetic, and what is the same altogether, stays so between parameters of one type. What is made of
named parameters is then what is made of their types, if those of one type cannot be told apart by
anything else. -/
theorem diffReported_ignores_labels (names names' : NameTieBreak)
    (reference reference' target target' : List Parameter)
    (hr : Parameter.types reference' = Parameter.types reference)
    (ht : Parameter.types target' = Parameter.types target)
    (hn : names.resolve reference target = false)
    (hn' : names'.resolve reference' target' = false) :
    (SameContrasts reference reference' target target' →
      diffReported names' reference' target' = diffReported names reference target) ∧
    (BareContrasts reference target →
      diff names reference target =
        diffTypes (Parameter.types reference) (Parameter.types target)) := by
  refine ⟨fun h => diffReported_congr hr ht (hn'.trans hn.symm) h, fun h => ?_⟩
  have hbare : diffReported .never ((Parameter.types reference).map .unnamed)
      ((Parameter.types target).map .unnamed) = diffReported names reference target :=
    diffReported_congr (types_unnamed _) (types_unnamed _) hn.symm h.same
  rw [diffTypes, diff, diff, hbare]

theorem diffReported_ignores_labels_on_swap :
    diffReported .auto [⟨.long, some "b", false⟩, ⟨.int, none, false⟩]
        [⟨.int, some "c", false⟩, ⟨.long, some "d", false⟩] =
      diffReported .never [⟨.long, some "a", false⟩, ⟨.int, none, false⟩]
        [⟨.int, none, false⟩, ⟨.long, none, false⟩] ∧
    diff .never [⟨.long, some "a", false⟩, ⟨.int, none, false⟩]
        [⟨.int, none, false⟩, ⟨.long, none, false⟩] =
      diffTypes [.long, .int] [.int, .long] := by
  have h := diffReported_ignores_labels .never .auto
    [⟨.long, some "a", false⟩, ⟨.int, none, false⟩] [⟨.long, some "b", false⟩, ⟨.int, none, false⟩]
    [⟨.int, none, false⟩, ⟨.long, none, false⟩]
    [⟨.int, some "c", false⟩, ⟨.long, some "d", false⟩] rfl rfl rfl (by decide)
  exact ⟨h.1 (by unfold SameContrasts; decide), h.2 (by unfold BareContrasts; decide)⟩

/-- A generated name in the target tells parameters of one type apart although names are not
compared. -/
theorem diffReported_heeds_generated :
    NameTieBreak.resolve [⟨.boolean, none, false⟩, ⟨.long, some "x", false⟩, ⟨.int, none, false⟩]
        [⟨.long, some "y", true⟩, ⟨.int, none, false⟩, ⟨.double, none, false⟩] .never = false ∧
      diff .never [⟨.boolean, none, false⟩, ⟨.long, some "x", false⟩, ⟨.int, none, false⟩]
          [⟨.long, some "y", true⟩, ⟨.int, none, false⟩, ⟨.double, none, false⟩] =
        .ok [.replace 0 .long, .replace 1 .int, .replace 2 .double] ∧
      diffTypes [.boolean, .long, .int] [.long, .int, .double] =
        .ok [.remove 0, .insert 2 .double] := by
  decide +kernel

end Reparam
