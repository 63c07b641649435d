import Mathlib.Data.List.InsertIdx
import Reparam.Proofs.Diff.Rounds

/-! Plans for lists whose parameters get other names. A plan looks at names and at what is synthetic
only where it compares a reference parameter with a target parameter of its type, so other names
that compare alike lead to the same plan. -/
namespace Reparam

/-- Other names for parameters, and whether they are synthetic, by ordinal. -/
abbrev Labels := Nat → Option String × Bool

variable {l l' : Labels} {cfg : Setting} {p q p₁ q₁ : Placed}
  {ps qs rest reference target : List Placed}
  {t : ValueType} {index : Nat} {round : Round}

namespace Placed

def relabel (l : Labels) (p : Placed) : Placed :=
  { p with name := (l p.ordinal).1, synthetic := (l p.ordinal).2 }

@[simp] theorem relabel_type (l : Labels) (p : Placed) : (p.relabel l).type = p.type := rfl

@[simp] theorem relabel_ordinal (l : Labels) (p : Placed) : (p.relabel l).ordinal = p.ordinal := rfl

@[simp] theorem sameType_relabel : (p.relabel l).sameType (q.relabel l') = p.sameType q := rfl

/-- Under their new names two parameters of one type compare as they did before. -/
def Alike (l l' : Labels) (p q : Placed) : Prop :=
  p.type = q.type → (p.relabel l).sameName (q.relabel l') = p.sameName q ∧
    ((p.relabel l).synthetic = (q.relabel l').synthetic ↔ p.synthetic = q.synthetic) ∧
    (p.relabel l = q.relabel l' ↔ p = q)

theorem Alike.agrees (h : Alike l l' p q) :
    (p.relabel l).agrees (q.relabel l') = p.agrees q := by
  rw [Placed.agrees, Placed.agrees, sameType_relabel]
  cases hsame : p.sameType q with
  | false => rfl
  | true => rw [(h (Round.sameType_iff.1 hsame)).1]

theorem Alike.eq_iff (h : Alike l l' p q) : p.relabel l = q.relabel l' ↔ p = q := by
  constructor
  · intro he
    exact ((h (congrArg (·.type) he)).2.2).1 he
  · intro he
    exact ((h (congrArg (·.type) he)).2.2).2 he

end Placed

/-- All pairs of a reference parameter and a target parameter compare alike. -/
def AllAlike (l l' : Labels) (reference target : List Placed) : Prop :=
  ∀ p ∈ reference, ∀ q ∈ target, p.Alike l l' q

theorem AllAlike.mono {reference' target' : List Placed} (h : AllAlike l l' reference target)
    (hr : reference' ⊆ reference) (ht : target' ⊆ target) : AllAlike l l' reference' target' :=
  fun p hp q hq => h p (hr hp) q (ht hq)

def Stage.relabel (l l' : Labels) : Stage → Stage
  | .rearrange reference target =>
    .rearrange (reference.map (·.relabel l)) (target.map (·.relabel l'))
  | .window reference target => .window (reference.map (·.relabel l)) (target.map (·.relabel l'))
  | stage => stage

namespace Round

def relabel (l l' : Labels) (round : Round) : Round where
  stages := round.stages.map (·.relabel l l')
  reference := round.reference.map (·.relabel l)
  target := round.target.map (·.relabel l')

@[simp] theorem countType_relabel (l : Labels) (t : ValueType) (list : List Placed) :
    Rearrangement.countType t (list.map (·.relabel l)) = Rearrangement.countType t list := by
  simp only [Rearrangement.countType, List.countP_map]
  rfl

theorem keepSameSize_relabel (h : AllAlike l l' (p :: ps) (q :: qs)) :
    keepSameSize cfg (p.relabel l) (ps.map (·.relabel l)) (q.relabel l') (qs.map (·.relabel l')) =
      (keepSameSize cfg p ps q qs).map (relabel l l') := by
  have hnames : p.sameType q → (p.relabel l).sameName (q.relabel l') = p.sameName q := fun hsame =>
    (h p List.mem_cons_self q List.mem_cons_self (sameType_iff.1 hsame)).1
  unfold keepSameSize
  rw [Placed.sameType_relabel]
  by_cases hsame : p.sameType q
  · rw [if_pos hsame, if_pos hsame, hnames hsame]
    split <;> rfl
  · rw [if_neg hsame, if_neg hsame]
    obtain _ | ⟨p₁, _ | ⟨p₂, ps⟩⟩ := ps
    · rfl
    · rfl
    obtain _ | ⟨q₁, _ | ⟨q₂, qs⟩⟩ := qs
    · rfl
    · rfl
    have hfirst : (p₁.relabel l).agrees (q.relabel l') = p₁.agrees q :=
      (h p₁ (by simp) q (by simp)).agrees
    have hsecond : (p₂.relabel l).agrees (q₁.relabel l') = p₂.agrees q₁ :=
      (h p₂ (by simp) q₁ (by simp)).agrees
    simp only [List.map_cons, hfirst, hsecond]
    split <;> rfl

theorem find_relabel (l l' : Labels) (p : Placed) (target : List Placed) :
    (target.map (·.relabel l')).find? (·.sameType (p.relabel l)) =
      (target.find? (·.sameType p)).map (·.relabel l') := by
  rw [List.find?_map]
  rfl

theorem eraseP_relabel (l l' : Labels) (p : Placed) (target : List Placed) :
    (target.map (·.relabel l')).eraseP (·.sameType (p.relabel l)) =
      (target.eraseP (·.sameType p)).map (·.relabel l') := by
  rw [List.eraseP_map]
  rfl

theorem findIdx_relabel (l l' : Labels) (p : Placed) (target : List Placed) :
    (target.map (·.relabel l')).findIdx? (·.sameType (p.relabel l)) =
      target.findIdx? (·.sameType p) := by
  rw [List.findIdx?_map]
  rfl

theorem keepMoved_relabel :
    keepMoved (p₁.relabel l) (q₁.relabel l') (rest.map (·.relabel l))
        (reference.map (·.relabel l)) (target.map (·.relabel l')) =
      (keepMoved p₁ q₁ rest reference target).map (relabel l l') := by
  simp only [keepMoved, Placed.relabel_type, countType_relabel, List.length_map, find_relabel,
    eraseP_relabel]
  split
  · cases target.find? (·.sameType p₁) with
    | none => rfl
    | some dest => simp [relabel, Stage.relabel]
  · rfl

theorem keepOtherSize_relabel (h : AllAlike l l' (p :: ps) (q :: qs)) :
    keepOtherSize cfg (p.relabel l) (ps.map (·.relabel l)) (q.relabel l') (qs.map (·.relabel l')) =
      (keepOtherSize cfg p ps q qs).map (relabel l l') := by
  obtain _ | ⟨p₁, ps⟩ := ps
  · rfl
  obtain _ | ⟨q₁, qs⟩ := qs
  · rfl
  have hnext : (p₁.relabel l).agrees (q₁.relabel l') = p₁.agrees q₁ :=
    (h p₁ (by simp) q₁ (by simp)).agrees
  have hmoved := @keepMoved_relabel l l' p₁ q₁ ps (p :: p₁ :: ps) (q :: q₁ :: qs)
  simp only [List.map_cons] at hmoved
  simp only [keepOtherSize, List.map_cons, Placed.sameType_relabel, hnext, hmoved]
  split
  · rfl
  · split
    · rfl
    · split
      · obtain _ | ⟨q₂, qs⟩ := qs
        · rfl
        have hbehind : (p₁.relabel l).agrees (q₂.relabel l') = p₁.agrees q₂ :=
          (h p₁ (by simp) q₂ (by simp)).agrees
        simp only [List.map_cons, hbehind]
        split <;> rfl
      · rfl

theorem keep_relabel (h : AllAlike l l' (p :: ps) target) :
    keep? cfg (p.relabel l) (ps.map (·.relabel l)) (target.map (·.relabel l')) =
      (keep? cfg p ps target).map (relabel l l') := by
  obtain _ | ⟨q, qs⟩ := target
  · rfl
  simp only [keep?, List.map_cons, keepSameSize_relabel h, keepOtherSize_relabel h]
  split <;> rfl

theorem differFrom_relabel (h : AllAlike l l' reference target) (index : Nat) :
    differFrom index (reference.map (·.relabel l)) (target.map (·.relabel l')) =
      differFrom index reference target := by
  rw [differFrom, differFrom, List.zip_map, ← List.map_drop, List.any_map, Bool.eq_iff_iff,
    List.any_eq_true, List.any_eq_true]
  refine exists_congr fun ⟨p, q⟩ => and_congr_right fun hmem => ?_
  obtain ⟨hp, hq⟩ := List.of_mem_zip (List.mem_of_mem_drop hmem)
  have hsame := (h p hp q hq).eq_iff
  simp only [Function.comp_apply, Prod.map_apply, decide_eq_true_eq]
  exact not_congr hsame

theorem replaceAt_relabel (h : AllAlike l l' reference target) (index : Nat) :
    replaceAt? index (reference.map (·.relabel l)) (target.map (·.relabel l')) =
      (replaceAt? index reference target).map (relabel l l') := by
  have hnext (p : Placed) : ((target.map (·.relabel l'))[index + 1]?.any (p.relabel l).sameType) =
      target[index + 1]?.any p.sameType := by
    rw [List.getElem?_map, Option.any_map]
    rfl
  unfold replaceAt?
  rw [List.getElem?_map, List.getElem?_map]
  cases hp : reference[index]? with
  | none => rfl
  | some p =>
    cases hq : target[index]? with
    | none => rfl
    | some q =>
      simp only [Option.map_some, List.length_map, hnext, differFrom_relabel h,
        Placed.sameType_relabel]
      split
      · rfl
      · simp only [Option.map_some, relabel, List.map_cons, List.map_nil, Stage.relabel,
          Placed.relabel_ordinal, Placed.relabel_type, List.eraseIdx_map]

theorem replace_relabel (h : AllAlike l l' reference target) :
    replace? (reference.map (·.relabel l)) (target.map (·.relabel l')) =
      (replace? reference target).map (relabel l l') := by
  unfold replace?
  rw [replaceAt_relabel h, Option.map_or]
  congr 1
  obtain _ | ⟨p, _ | ⟨p₁, _ | ⟨p₂, ps⟩⟩⟩ := reference
  · rfl
  · rfl
  · obtain _ | ⟨q, _ | ⟨q₁, _ | ⟨q₂, qs⟩⟩⟩ := target
    · rfl
    · rfl
    · have hsecond := replaceAt_relabel h 1
      simp only [List.map_cons, List.map_nil] at hsecond
      simp only [List.map_cons, List.map_nil, Placed.sameType_relabel, hsecond]
      split <;> rfl
    · rfl
  · rfl

theorem trimFront_relabel (l l' : Labels) (ps qs : List Placed) :
    trimFront (ps.map (·.relabel l)) (qs.map (·.relabel l')) =
      ((trimFront ps qs).1.map (·.relabel l), (trimFront ps qs).2.map (·.relabel l')) := by
  induction ps generalizing qs with
  | nil => rfl
  | cons p ps ih =>
    cases qs with
    | nil => rfl
    | cons q qs =>
      simp only [List.map_cons, trimFront, Placed.sameType_relabel, ih]
      split <;> rfl

theorem trim_relabel (l l' : Labels) (ps qs : List Placed) :
    trim (ps.map (·.relabel l)) (qs.map (·.relabel l')) =
      ((trim ps qs).1.map (·.relabel l), (trim ps qs).2.map (·.relabel l')) := by
  simp only [trim, trimFront_relabel, ← List.map_reverse]

def Peeled.relabel (l l' : Labels) (peeled : Peeled) : Peeled where
  removed := peeled.removed.map (·.relabel l)
  kept := peeled.kept.map (·.relabel l)
  inserted := peeled.inserted.map (·.relabel l')
  wanted := peeled.wanted.map (·.relabel l')

theorem peel_relabel (l l' : Labels) (list other : List Placed) :
    peel (list.map (·.relabel l)) (other.map (·.relabel l')) =
      ((peel list other).1.map (·.relabel l), (peel list other).2.map (·.relabel l)) := by
  simp only [peel, List.partition_eq_filter_filter, List.filter_map, countType_relabel,
    Function.comp_def, Placed.relabel_type]
  rfl

theorem any_missing_relabel (l l' : Labels) (list other : List Placed) :
    ((list.map (·.relabel l)).any fun p =>
        Rearrangement.countType p.type (other.map (·.relabel l')) = 0) =
      list.any fun p => Rearrangement.countType p.type other = 0 := by
  simp only [List.any_map, countType_relabel]
  rfl

theorem peelBoth_relabel (l l' : Labels) (reference target : List Placed) :
    peelBoth (reference.map (·.relabel l)) (target.map (·.relabel l')) =
      (peelBoth reference target).relabel l l' := by
  simp only [peelBoth, any_missing_relabel, peel_relabel]
  generalize (reference.any fun p => Rearrangement.countType p.type target = 0) = onlyReference
  generalize (target.any fun q => Rearrangement.countType q.type reference = 0) = onlyTarget
  cases onlyReference <;> cases onlyTarget <;> rfl

theorem stages_relabel (l l' : Labels) (peeled : Peeled) :
    (peeled.relabel l l').stages = peeled.stages.map (·.relabel l l') := by
  simp only [Peeled.stages, Peeled.relabel, trim_relabel, List.isEmpty_map, List.map_append,
    List.map_map, ← List.map_reverse]
  congr 2
  split <;> rfl

theorem rearrange_relabel (l l' : Labels) (reference target : List Placed) :
    rearrange? (reference.map (·.relabel l)) (target.map (·.relabel l')) =
      (rearrange? reference target).map (relabel l l') := by
  simp only [rearrange?, peelBoth_relabel, stages_relabel]
  simp only [Peeled.relabel, List.map_map, Function.comp_def, Placed.relabel_type]
  split <;> rfl

theorem ahead_relabel (l l' : Labels) (ps target : List Placed) :
    ahead? (ps.map (·.relabel l)) (target.map (·.relabel l')) = ahead? ps target := by
  obtain _ | ⟨p₁, ps⟩ := ps
  · simp only [ahead?, List.map_nil, List.isEmpty_map, List.length_map]
  · exact findIdx_relabel l l' p₁ target

theorem closest_relabel (l l' : Labels) (reference target : List Placed) :
    closest? (reference.map (·.relabel l)) (target.map (·.relabel l')) =
      closest? reference target := by
  simp only [closest?, List.findSome?_map, Function.comp_def, findIdx_relabel]

theorem cut_relabel (l l' : Labels) (m n : Nat) (reference target : List Placed) :
    cut m n (reference.map (·.relabel l)) (target.map (·.relabel l')) =
      (cut m n reference target).relabel l l' := by
  simp only [cut, relabel, List.map_cons, List.map_nil, Stage.relabel, List.map_take,
    List.map_drop]

theorem secondNamesAgree_relabel (h : AllAlike l l' ps target) :
    secondNamesAgree cfg (ps.map (·.relabel l)) (target.map (·.relabel l')) =
      secondNamesAgree cfg ps target := by
  obtain _ | ⟨p₁, ps⟩ := ps
  · rfl
  obtain _ | ⟨q, _ | ⟨q₁, qs⟩⟩ := target
  · rfl
  · rfl
  have hsecond : (p₁.relabel l).agrees (q₁.relabel l') = p₁.agrees q₁ :=
    (h p₁ (by simp) q₁ (by simp)).agrees
  simp only [secondNamesAgree, List.map_cons, hsecond]

/-- What is done when no window can be cut off by the second reference parameter. -/
def widen (p : Placed) (ps target : List Placed) : Round :=
  let closest :=
    if ps.length + 1 = target.length then (closest? (p :: ps) target).filter (1 < ·) else none
  match closest, ps with
  | some n, _ => cut n n (p :: ps) target
  | none, p₁ :: rest => ⟨[.remove p₁.ordinal], p :: rest, target⟩
  | none, [] => ⟨[.stuck p.ordinal p.type target.length], [], []⟩

theorem widen_relabel (l l' : Labels) (p : Placed) (ps target : List Placed) :
    widen (p.relabel l) (ps.map (·.relabel l)) (target.map (·.relabel l')) =
      (widen p ps target).relabel l l' := by
  have hclosest := closest_relabel l l' (p :: ps) target
  have hcut (n : Nat) := cut_relabel l l' n n (p :: ps) target
  simp only [List.map_cons] at hclosest hcut
  simp only [widen, hclosest, List.length_map]
  generalize (if ps.length + 1 = target.length then
    (closest? (p :: ps) target).filter (1 < ·) else none) = closest
  cases closest with
  | some n => exact hcut n
  | none =>
    cases ps with
    | nil => rfl
    | cons p₁ rest => rfl

theorem narrow_relabel (h : AllAlike l l' (p :: ps) target) :
    narrow cfg (p.relabel l) (ps.map (·.relabel l)) (target.map (·.relabel l')) =
      (narrow cfg p ps target).relabel l l' := by
  have hnames := @secondNamesAgree_relabel l l' cfg ps target
    (h.mono (List.subset_cons_self p ps) (List.Subset.refl _))
  have hwiden := widen_relabel l l' p ps target
  have hcut (m n : Nat) := cut_relabel l l' m n (p :: ps) target
  have hahead := ahead_relabel l l' ps target
  obtain _ | ⟨q, qs⟩ := target
  · unfold narrow
    rw [hahead]
    cases ahead? ps [] <;> exact hwiden
  · simp only [List.map_cons] at hnames hwiden hcut hahead ⊢
    unfold narrow
    rw [hahead]
    cases ahead? ps (q :: qs) with
    | none => exact hwiden
    | some ahead =>
      simp only [hnames, Placed.sameType_relabel]
      exact hcut _ _

end Round

theorem nextRound_relabel (h : AllAlike l l' (p :: ps) target) :
    nextRound cfg (p.relabel l) (ps.map (·.relabel l)) (target.map (·.relabel l')) =
      (nextRound cfg p ps target).relabel l l' := by
  have hreplace := Round.replace_relabel h
  have hrearrange := Round.rearrange_relabel l l' (p :: ps) target
  simp only [List.map_cons] at hreplace hrearrange
  unfold nextRound
  rw [Round.keep_relabel h, hreplace, hrearrange, Round.narrow_relabel h]
  cases Round.keep? cfg p ps target with
  | some round => rfl
  | none =>
    cases Round.replace? (p :: ps) target with
    | some round => rfl
    | none => cases Round.rearrange? (p :: ps) target <;> rfl

/-- A window is cut from the lists. -/
def Stage.DrawsOn (reference target : List Placed) : Stage → Prop
  | .window ps qs => ps ⊆ reference ∧ qs ⊆ target
  | _ => True

theorem Stage.DrawsOn.mono {reference' target' : List Placed} {stage : Stage}
    (h : stage.DrawsOn reference target) (hr : reference ⊆ reference') (ht : target ⊆ target') :
    stage.DrawsOn reference' target' := by
  cases stage with
  | window ps qs => exact ⟨List.Subset.trans h.1 hr, List.Subset.trans h.2 ht⟩
  | _ => trivial

namespace Round

theorem drawsOn_peeled (peeled : Peeled) :
    ∀ stage ∈ peeled.stages, stage.DrawsOn reference target := by
  intro stage hs
  obtain ⟨_, rfl⟩ | ⟨_, _, rfl⟩ | ⟨_, _, rfl⟩ := peeled.mem_stages hs <;> trivial

/-- What a round leaves was there before, and so were the parameters of a window that it cuts
off. -/
theorem Shape.subset (h : round.Shape cfg reference target) :
    round.reference ⊆ reference ∧ round.target ⊆ target ∧
      ∀ stage ∈ round.stages, stage.DrawsOn reference target := by
  cases h with
  | rearrange => exact ⟨List.nil_subset _, List.nil_subset _, drawsOn_peeled _⟩
  | window p ps target m n =>
    refine ⟨List.drop_subset _ _, List.drop_subset _ _, fun stage hs => ?_⟩
    rw [List.mem_singleton.1 hs]
    exact ⟨List.take_subset _ _, List.take_subset _ _⟩
  | move =>
    refine ⟨by simp, List.Subset.trans (List.drop_subset _ _) List.eraseP_subset,
      fun stage hs => ?_⟩
    rw [List.mem_singleton.1 hs]
    trivial
  | keep => exact ⟨by simp, by simp, by simp⟩
  | insertBehind =>
    refine ⟨by simp, fun q hq => by simp [hq], fun stage hs => ?_⟩
    rw [List.mem_singleton.1 hs]
    trivial
  | dropFirst | replace | replaceSecond | swap | dropSecond =>
    refine ⟨by simp, by simp, fun stage hs => ?_⟩
    rw [List.mem_singleton.1 hs]
    trivial

end Round

theorem drawsOn_plan : ∀ stage ∈ plan cfg reference target, stage.DrawsOn reference target := by
  fun_induction plan cfg reference target with
  | case1 target =>
    intro stage hs
    obtain ⟨q, -, rfl⟩ := List.mem_map.1 hs
    trivial
  | case2 target p ps round ih =>
    obtain ⟨hr, ht, hstages⟩ := (@nextRound_shape cfg p ps target).subset
    intro stage hs
    rcases List.mem_append.1 hs with hs | hs
    · exact hstages stage hs
    · exact (ih stage hs).mono hr ht

/-- The plan under other names that compare alike is the same one. -/
theorem plan_relabel (h : AllAlike l l' reference target) :
    plan cfg (reference.map (·.relabel l)) (target.map (·.relabel l')) =
      (plan cfg reference target).map (·.relabel l l') := by
  fun_induction plan cfg reference target with
  | case1 target =>
    simp only [List.map_nil, plan, List.map_map]
    rfl
  | case2 target p ps round ih =>
    obtain ⟨hr, ht, -⟩ := (@nextRound_shape cfg p ps target).subset
    rw [List.map_cons, plan, nextRound_relabel h, List.map_append, ← ih (h.mono hr ht)]
    rfl

end Reparam
