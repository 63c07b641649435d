import Reparam.Proofs.Flatten.StandIns

/-! A flat script does to a list of types what the script does that it was flattened from. Each of
its phases takes the arrangement before it to the one after it. -/
namespace Reparam

variable {α : Type} {fresh : ValueType → α} {retype : ValueType → α → α} {labels : List α}
  {n : Nat} {s : Script} {tr : Tracking} {f : FlatScript} {tokens : List Token}
  {types : List ValueType} {pairs : List (Nat × Nat)}

namespace Token

/-- The type that a token comes into the list with. -/
def firstTypeIn (types : List ValueType) : Token → ValueType
  | reference ordinal _ => types.getD ordinal default
  | inserted _ t => t

/-- What a token comes into a list with, whatever the kind of the list. -/
def firstLabelIn (fresh : ValueType → α) (labels : List α) : Token → α
  | reference ordinal _ => labels.getD ordinal (fresh default)
  | inserted _ t => fresh t

def insertedType? : Token → Option ValueType
  | inserted _ t => some t
  | reference .. => none

def retypedType? : Token → Option ValueType
  | reference _ r => r
  | inserted .. => none

end Token

namespace Tracking

theorem placesOf_removed : ((tr.placesOf n fun | .removed => some () | _ => none).map (·.1)) =
    ((located (tr.fated removedFate) 0 (tr.beforeRemovals n)).map (·.1)).reverse := by
  rw [← List.map_reverse]
  rfl

theorem toFlat_eq_ok (h : tr.toFlat n = .ok f) :
    ∃ pairs, tr.substitutions n = .ok pairs ∧ f = {
      insertions := located Token.insertedType? 0 (tr.afterInsertions n)
      replacements := located Token.retypedType? 0 (tr.afterInsertions n)
      substitutions := pairs
      reorders := tr.reorders n
      removals := ((located (tr.fated removedFate) 0 (tr.beforeRemovals n)).map (·.1)).reverse
      inlines := (located (tr.fated inlinedFate) 0 (tr.beforeRemovals n)).reverse.map fun p =>
        (currentIndex p.1
          ((located (tr.fated removedFate) 0 (tr.beforeRemovals n)).map (·.1)).reverse, p.2) } := by
  unfold toFlat at h
  cases hp : tr.substitutions n with
  | error err =>
    rw [hp] at h
    cases h
  | ok pairs =>
    rw [hp] at h
    cases h
    refine ⟨pairs, rfl, FlatScript.mk.injEq .. ▸ ⟨?_, ?_, rfl, rfl, placesOf_removed, ?_⟩⟩
    · refine List.filterMap_congr fun p _ => ?_
      obtain ⟨t, i⟩ := p
      cases t <;> rfl
    · refine List.filterMap_congr fun p _ => ?_
      obtain ⟨⟨o, r⟩ | ⟨k, t⟩, i⟩ := p
      · cases r <;> rfl
      · rfl
    · exact congrArg (fun gone => (tr.placesOf n inlinedFate).map fun p =>
        (currentIndex p.1 gone, p.2)) placesOf_removed

theorem toFlat_error_iff {err : ScriptError} :
    tr.toFlat n = .error err ↔ tr.substitutions n = .error err := by
  unfold toFlat
  cases tr.substitutions n with
  | error err' =>
    constructor <;> intro h <;> cases h <;> rfl
  | ok pairs =>
    constructor <;> intro h <;> cases h

/-! The phases. -/

/-- What is not inserted is a reference parameter, and a function that goes by the ordinal of one
can be read off the ordinals. -/
theorem map_passedOver_insertedType {f : Token → α} {g : Nat → α}
    (h : ∀ ordinal r, f (.reference ordinal r) = g ordinal) (tokens : List Token) :
    (passedOver Token.insertedType? tokens).map f = (ordinals tokens).map g := by
  induction tokens with
  | nil => rfl
  | cons t tokens ih =>
    cases t with
    | inserted k t =>
      have hpick : Token.insertedType? (.inserted k t) = some t := rfl
      rw [passedOver_cons_some hpick, ih, ordinals_inserted]
    | reference i r =>
      have hpick : Token.insertedType? (.reference i r) = none := rfl
      rw [passedOver_cons_none hpick, List.map_cons, ih, ordinals_reference, List.map_cons, h]

theorem passedOver_insertedType (fresh : ValueType → α) (labels : List α) (tokens : List Token) :
    (passedOver Token.insertedType? tokens).map (Token.firstLabelIn fresh labels) =
      (ordinals tokens).map (labels.getD · (fresh default)) :=
  map_passedOver_insertedType (fun _ _ => rfl) tokens

theorem length_passedOver_insertedType (tokens : List Token) :
    (passedOver Token.insertedType? tokens).length = (ordinals tokens).length := by
  have hunits : (passedOver Token.insertedType? tokens).map (fun _ => ()) =
      (ordinals tokens).map fun _ => () := map_passedOver_insertedType (fun _ _ => rfl) tokens
  simpa using congrArg List.length hunits

theorem range_map_getD {d : α} : (List.range labels.length).map (labels.getD · d) = labels := by
  refine List.ext_getElem (by simp) fun i hi hi' => ?_
  simp [hi']

theorem run_insertions (h : ordinals tokens = List.range labels.length) :
    Script.run fresh retype
      ((located Token.insertedType? 0 tokens).map fun (i, t) => .insert i t) labels =
        .ok (tokens.map (Token.firstLabelIn fresh labels)) := by
  have hfirst : ∀ x t, Token.insertedType? x = some t → x.firstLabelIn fresh labels = fresh t := by
    intro x t hx
    cases x <;> cases hx
    rfl
  have run := @run_located_insert _ _ tokens fresh retype _ _ hfirst []
  rwa [List.nil_append, passedOver_insertedType, h, range_map_getD] at run

theorem run_replacements (fresh : ValueType → α) (retype : ValueType → α → α) (labels : List α)
    (tokens : List Token) : Script.run fresh retype
      ((located Token.retypedType? 0 tokens).map fun (i, t) => .replace i t)
      (tokens.map (Token.firstLabelIn fresh labels)) =
        .ok (tokens.map (Token.labelIn fresh retype labels)) := by
  refine run_located_replace Token.retypedType? (fun x => ?_) []
  cases x with
  | inserted => rfl
  | reference i r => cases r <;> rfl

/-- Reorders name the places that hold a reference parameter by ordinal. Such a name resolves to
where the place is once the insertions and the substitutions are through. -/
theorem settleable (h : tr.Sound n s.length)
    (hp : pairs.map (·.1) =
      (located tr.standIn 0 (tr.afterInsertions n)).reverse.map (·.1)) :
    Settleable
      (fun i => pulledForward
        (pushedBack i (located Token.insertedType? 0 (tr.afterInsertions n))) pairs)
      0 (tr.beforeRemovals n) (tr.beforeReorders n)
      ((tr.beforeReorders n).map fun t => t.ordinal?.getD maxIndex) where
  perm := beforeReorders_perm
  places i w c hw hc hne := refill_places deals_beforeReorders i w c hw hc hne
  named i c hc hr := by
    rw [← passedOver_afterInsertions h] at hc
    obtain ⟨pre, post, hsplit, hkept, rfl⟩ := exists_append_of_passedOver hc
    obtain ⟨ordinal, hordinal⟩ := Option.isSome_iff_exists.1 hr
    have hpre : ordinal = (ordinals pre).length := by
      have hrange := ordinals_afterInsertions h
      rw [hsplit, ordinals, List.filterMap_append, List.filterMap_cons_some hordinal] at hrange
      have hplace : (List.range n)[(ordinals pre).length]? = some ordinal := by
        rw [← hrange, ordinals, List.getElem?_append_right (Nat.le_refl _), Nat.sub_self]
        rfl
      simpa using (List.getElem?_eq_some_iff.1 hplace).2.symm
    refine ⟨ordinal, ?_, ?_⟩
    · rw [← passedOver_afterInsertions h, List.getElem?_map, hc]
      simp [hordinal]
    · have hpick : Token.insertedType? c = none := by
        cases c with
        | inserted => cases hordinal
        | reference => rfl
      have hpushed := @pushedBack_located _ _ Token.insertedType? 0 c pre post hpick
      have hpulled := @pulledForward_located _ _ tr.standIn 0 c pre post hkept
      rw [length_passedOver_insertedType, ← hpre, Nat.zero_add, Nat.zero_add] at hpushed
      rw [Nat.zero_add, Nat.zero_add, ← hsplit] at hpulled
      rw [hsplit, hpushed, pulledForward_congr hp, hpulled, Nat.zero_add]
  length := by simp

theorem run_reorders {fresh : ValueType → Token} {retype : ValueType → Token → Token}
    (h : tr.Sound n s.length) (hf : f.reorders = tr.reorders n)
    (hi : f.insertions = located Token.insertedType? 0 (tr.afterInsertions n))
    (hp : f.substitutions.map (·.1) =
      (located tr.standIn 0 (tr.afterInsertions n)).reverse.map (·.1)) :
    Script.run fresh retype (f.settledReorders.map (·.toEdit)) (tr.beforeReorders n) =
      .ok (tr.beforeRemovals n) := by
  have htargets : (f.substitutions.map (·.1)).Pairwise fun i j => j < i := by
    rw [hp]
    exact List.pairwise_map.2 located_reverse_pairwise
  have hdescending := descendingByFirst_eq (List.pairwise_map.1 htargets)
  have hascending : ascendingByFirst f.insertions = f.insertions := by
    rw [hi]
    exact ascendingByFirst_eq located_pairwise
  rw [f.settledReorders_eq, hdescending, hascending, hf, hi, List.map_map]
  exact run_settle [] (settleable h hp)

theorem run_removals (g : Token → α) (pick : Token → Option Unit) (tokens : List Token) :
    Script.run fresh retype
      ((descending ((located pick 0 tokens).map (·.1)).reverse).map .remove) (tokens.map g) =
        .ok ((passedOver pick tokens).map g) := by
  have hdescending : descending ((located pick 0 tokens).map (·.1)).reverse =
      (located pick 0 tokens).reverse.map (·.1) := by
    rw [← List.map_reverse]
    exact descending_eq (List.pairwise_map.2 located_reverse_pairwise)
  rw [hdescending, List.map_map]
  exact run_located_drop (fun p => .remove p.1) (fun p ys hp => .remove hp) []

/-- Inlinings are placed among the elements that removals leave. -/
theorem inlines_eq (tr : Tracking) (places : List Token) :
    (located (tr.fated inlinedFate) 0 places).reverse.map (fun p =>
      (currentIndex p.1 ((located (tr.fated removedFate) 0 places).map (·.1)).reverse, p.2)) =
    (located (tr.fated inlinedFate) 0 (passedOver (tr.fated removedFate) places)).reverse := by
  rw [← located_passedOver (tr.fated removedFate), List.map_reverse]
  · refine congrArg List.reverse (List.map_congr_left fun p _ => ?_)
    rw [currentIndex_perm (List.reverse_perm _)]
  · intro t ht
    simp only [fated, Option.bind_eq_none_iff, ne_eq, not_forall] at ht ⊢
    obtain ⟨how, hhow, hi⟩ := ht
    intro how' hhow'
    rw [hhow] at hhow'
    cases hhow'
    cases how <;> simp_all [inlinedFate, removedFate]

theorem run_inlines (g : Token → α) (pick : Token → Option Nat) (tokens : List Token) :
    Script.run fresh retype
      ((descendingByFirst (located pick 0 tokens).reverse).map fun (i, g) => .inline i g)
      (tokens.map g) = .ok ((passedOver pick tokens).map g) := by
  rw [descendingByFirst_eq located_reverse_pairwise]
  exact run_located_drop (fun p => .inline p.1 p.2) (fun p ys hp => .inline _ hp) []

theorem Reached.descending_substitutions (h : Reached s n tr) (hp : tr.substitutions n = .ok pairs) :
    descendingByFirst pairs = pairs := by
  have htargets : (pairs.map (·.1)).Pairwise fun i j => j < i := by
    rw [targets_eq (h.substitutions_ok hp)]
    exact List.pairwise_map.2 located_reverse_pairwise
  exact descendingByFirst_eq (List.pairwise_map.1 htargets)

theorem run_substitutions (h : Reached s n tr) (hp : tr.substitutions n = .ok pairs)
    (g : Token → α) :
    FlatScript.substituteAll (descendingByFirst pairs) [] ((tr.afterInsertions n).map g) =
      .ok ((tr.beforeReorders n).map g) := by
  rw [h.descending_substitutions hp, ← passedOver_afterInsertions h.sound]
  have hkept : List.Forall₂ (fun p y => y.1 = p.1 ∧ y.1 ≠ y.2 ∧
      ∃ c, (tr.afterInsertions n)[y.2]? = some c ∧ tr.standIn c = none)
      (located tr.standIn 0 (tr.afterInsertions n)).reverse pairs := by
    refine (h.substitutions_ok hp).imp fun p y hy => ?_
    obtain ⟨hsame, hne, c, hc, hstand, -⟩ := hy
    exact ⟨hsame, hne, c, hc, hstand⟩
  simpa using substituteAll_located g [] (by simp) hkept

/-- The reorders of a flat script, by then renumbered, take the tokens to where they stand before
removals. -/
theorem Reached.run_settledReorders {fresh : ValueType → Token} {retype : ValueType → Token → Token}
    (h : Reached s n tr) (hf : tr.toFlat n = .ok f) :
    Script.run fresh retype (f.settledReorders.map (·.toEdit)) (tr.beforeReorders n) =
      .ok (tr.beforeRemovals n) := by
  obtain ⟨pairs, hpairs, hfields⟩ := toFlat_eq_ok hf
  refine run_reorders h.sound (by rw [hfields]) (by rw [hfields]) ?_
  rw [hfields]
  exact targets_eq (h.substitutions_ok hpairs)

/-- What a flat script makes of a list is what the tokens were followed to. -/
theorem Reached.run_toFlat (hforgetful : Forgetful fresh retype) (h : Reached s labels.length tr)
    (hf : tr.toFlat labels.length = .ok f) :
    f.run fresh retype labels = .ok (tr.tokens.map (Token.labelIn fresh retype labels)) := by
  obtain ⟨pairs, hpairs, hfields⟩ := toFlat_eq_ok hf
  have hinsertions := @run_insertions _ fresh retype labels _ (ordinals_afterInsertions h.sound)
  have hreplacements := run_replacements fresh retype labels (tr.afterInsertions labels.length)
  have hsubstitutions := run_substitutions h hpairs (Token.labelIn fresh retype labels)
  have hreorders : Script.run fresh retype (f.settledReorders.map (·.toEdit))
      ((tr.beforeReorders labels.length).map (Token.labelIn fresh retype labels)) =
        .ok ((tr.beforeRemovals labels.length).map (Token.labelIn fresh retype labels)) := by
    have natural := @Script.run_map _ _ (Token.labelIn fresh retype labels) (.inserted 0)
      Token.retype fresh retype (fun _ => rfl) hforgetful.labelIn_retype
      (f.settledReorders.map (·.toEdit)) (tr.beforeReorders labels.length)
    rw [natural, h.run_settledReorders hf]
    rfl
  have hremovals := @run_removals _ fresh retype (Token.labelIn fresh retype labels)
    (tr.fated removedFate) (tr.beforeRemovals labels.length)
  have hinlines := @run_inlines _ fresh retype (Token.labelIn fresh retype labels)
    (tr.fated inlinedFate) (passedOver (tr.fated removedFate) (tr.beforeRemovals labels.length))
  rw [passedOver_beforeRemovals h.sound] at hinlines
  have hins := @ascendingByFirst_eq _ _ (@located_pairwise _ _ Token.insertedType? 0
    (tr.afterInsertions labels.length))
  have hin := inlines_eq tr (tr.beforeRemovals labels.length)
  generalize hreord : f.settledReorders = reorders at hreorders
  unfold FlatScript.run
  rw [hreord]
  subst hfields
  simp only [hins, hin, hinsertions, hreplacements, hsubstitutions, hreorders, hremovals,
    hinlines, bind, Except.bind]

/-- What a flat script makes of the types is what the tokens were followed to. -/
theorem Reached.replay_toFlat (h : Reached s types.length tr)
    (hf : tr.toFlat types.length = .ok f) :
    f.replay types = .ok (tr.tokens.map (Token.typeIn types)) := by
  rw [Token.typeIn_eq_labelIn]
  exact h.run_toFlat forgetful_types hf

theorem flatten_eq_ok (h : s.flatten n = .ok f) :
    ∃ tr, follow 0 s (initial n) = .ok tr ∧ tr.toFlat n = .ok f := by
  unfold Script.flatten at h
  split at h
  · rename_i tr hfollow
    exact ⟨tr, hfollow, h⟩
  · cases h

end Tracking

open Tracking

theorem flatten_remove_zero : Script.flatten [.remove 0] 1 = .ok { removals := [0] } := by
  let tr : Tracking := ⟨[], [(0, .removed)]⟩
  have hfollow : follow 0 [.remove 0] (.initial 1) = .ok tr := rfl
  have hreorders : tr.beforeReorders 1 = [.reference 0 none] :=
    congrArg (refill _) (List.mergeSort_singleton ..)
  simp only [Script.flatten, hfollow, toFlat, reorders, afterInsertions, hreorders]
  rfl

theorem replay_eq_follow (s : Script) (types : List ValueType) : s.replay types =
    (follow 0 s (.initial types.length)).map fun tr => tr.tokens.map (Token.typeIn types) := by
  rw [Token.typeIn_eq_labelIn, follow_run forgetful_types, initial_labels]
  rfl

theorem not_dangles_of_no_substitute (h : ∀ e ∈ s, e.kind ≠ .substitute) : ¬ s.Dangles n := by
  rintro ⟨_, _, _, _, ⟨pre, target, place, rest, _, rfl, -⟩, -⟩
  exact h (.substitute target place) (by simp) rfl

/-- The layered script and the flat one agree: flattening fails as replaying does, and otherwise
gives a script with the same replay, unless the sources of a substituted reference parameter end
in an inserted one that is dropped again. -/
theorem flatten_agrees (s : Script) (types : List ValueType) :
    match s.replay types with
    | .error err => s.flatten types.length = .error err
    | .ok out =>
      ((∃ f, s.flatten types.length = .ok f ∧ f.replay types = .ok out) ∨
        ∃ target, s.flatten types.length = .error (.danglingSource target)) ∧
      ((∃ target, s.flatten types.length = .error (.danglingSource target)) ↔
        s.Dangles types.length) ∧
      ((∀ e ∈ s, e.kind ≠ .substitute) → ∃ f, s.flatten types.length = .ok f) := by
  rw [replay_eq_follow, Script.flatten]
  cases hfollow : follow 0 s (.initial types.length) with
  | error err => rfl
  | ok tr =>
    have h := reached_of_follow hfollow
    have hdangles : (∃ target, tr.toFlat types.length = .error (.danglingSource target)) ↔
        s.Dangles types.length := by
      rw [← h.substitutions_error_iff]
      constructor
      · rintro ⟨target, he⟩
        exact ⟨_, toFlat_error_iff.1 he⟩
      · rintro ⟨err, he⟩
        obtain ⟨target, rfl⟩ := h.substitutions_error he
        exact ⟨target, toFlat_error_iff.2 he⟩
    refine ⟨?_, hdangles, fun hs => ?_⟩
    · cases hflat : tr.toFlat types.length with
      | ok f => exact .inl ⟨f, hflat, h.replay_toFlat hflat⟩
      | error err =>
        obtain ⟨target, rfl⟩ := h.substitutions_error (toFlat_error_iff.1 hflat)
        exact .inr ⟨target, hflat⟩
    · cases hflat : tr.toFlat types.length with
      | ok f => exact ⟨f, hflat⟩
      | error err =>
        obtain ⟨target, rfl⟩ := h.substitutions_error (toFlat_error_iff.1 hflat)
        exact (not_dangles_of_no_substitute hs (hdangles.1 ⟨target, hflat⟩)).elim

/-- The second parameter stands in for the first, and an inserted one for the second. Once the
inserted one is dropped, the chain of the first parameter ends nowhere. -/
theorem flatten_agrees_on_dropped_source :
    let s : Script := [.substitute 0 1, .insert 1 default, .substitute 0 1, .remove 0]
    s.replay [default, default] = .ok [] ∧ s.Dangles 2 ∧
      s.flatten 2 = .error (.danglingSource 1) := by
  have h := flatten_agrees [.substitute 0 1, .insert 1 default, .substitute 0 1, .remove 0]
    [default, default]
  exact ⟨rfl, h.2.1.1 ⟨1, rfl⟩, rfl⟩

end Reparam
