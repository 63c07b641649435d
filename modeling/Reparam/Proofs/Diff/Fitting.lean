import Reparam.Proofs.Diff.Rounds
import Reparam.Proofs.Diff.Windows

/-! Every stage of a plan can be carried out. What a plan needs from round to round is that the
reference parameters still to come are in the working list, in their order, and that its length
fits. -/
namespace Reparam

variable {types : List ValueType} {cfg : Setting} {d : Draft} {items items' pre post : List Item}
  {p q p₁ q₁ : Placed} {ps qs rest reference target : List Placed} {round : Round} {z : Item}
  {n index m k : Nat} {P : Stage → Prop}

/-- What relates the working list to what is left of both lists. -/
abbrev Pending := List Placed → List Placed → List Item → Prop

def Round.Keeps (types : List ValueType) (I : Pending) (reference target : List Placed)
    (round : Round) : Prop :=
  ∀ d items, d.Shows types items → I reference target items →
    ∃ items', Gives types (round.stages.foldlM Draft.perform d) items' ∧
      I round.reference round.target items'

/-- The stages that insert what is left of the target. -/
def insertions (target : List Placed) : List Stage :=
  target.map fun q => .insertAt q.ordinal q.type

theorem plan_keeps {I : Pending}
    (hround : ∀ p ps target, (∀ stage ∈ (nextRound cfg p ps target).stages, P stage) →
      (nextRound cfg p ps target).Keeps types I (p :: ps) target)
    (hend : ∀ target, Round.Keeps types I [] target ⟨insertions target, [], []⟩)
    (hp : ∀ stage ∈ plan cfg reference target, P stage) (h : d.Shows types items)
    (hi : I reference target items) :
    ∃ items', Gives types ((plan cfg reference target).foldlM Draft.perform d) items' ∧
      I [] [] items' := by
  fun_induction plan cfg reference target generalizing d items with
  | case1 target => exact hend target d items h hi
  | case2 target p ps round =>
    rename_i ih
    obtain ⟨items₁, ⟨d₁, hd₁, h₁⟩, hi₁⟩ :=
      hround p ps target (fun stage hs => hp stage (List.mem_append_left _ hs)) d items h hi
    obtain ⟨items₂, hgives, hi₂⟩ :=
      ih (fun stage hs => hp stage (List.mem_append_right _ hs)) h₁ hi₁
    refine ⟨items₂, ?_, hi₂⟩
    rw [List.foldlM_append, hd₁]
    exact hgives

/-- The reference parameters to come are there in order, and with the target parameters to come the
list gets the length that it is to have. -/
structure Fits (n : Nat) (reference target : List Placed) (items : List Item) : Prop where
  within : Within reference items
  length : items.length + target.length = n + reference.length

theorem Draft.Shows.insert_all (h : d.Shows types items) (target : List Placed) :
    ∃ items', Gives types ((insertions target).foldlM Draft.perform d) items' ∧
      items'.length = items.length + target.length ∧ present items' = present items := by
  induction target generalizing d items with
  | nil => exact ⟨items, ⟨d, rfl, h⟩, rfl, rfl⟩
  | cons q target ih =>
    obtain ⟨d₁, hd₁, h₁⟩ := h.insertAt q.ordinal q.type
    obtain ⟨items₂, hgives, hlen, hpresent⟩ := ih h₁
    refine ⟨items₂, ?_, ?_, ?_⟩
    · rw [insertions, List.map_cons, List.foldlM_cons, Draft.perform, hd₁]
      exact hgives
    · rw [hlen, List.length_insertIdx_of_le_length (Nat.min_le_right ..), List.length_cons]
      omega
    · rw [hpresent, present_insert]

theorem Fits.insertions (target : List Placed) :
    Round.Keeps types (Fits n) [] target ⟨insertions target, [], []⟩ := by
  intro d items hd hi
  obtain ⟨items', hgives, hlen, -⟩ := hd.insert_all target
  refine ⟨items', hgives, List.nil_sublist _, ?_⟩
  have hfits := hi.length
  simp only [List.length_nil] at hfits ⊢
  omega

theorem foldlM_single (f : Draft → Stage → Except DiffError Draft) (stage : Stage) (d : Draft) :
    [stage].foldlM f d = f d stage := by
  rw [List.foldlM_cons]
  cases f d stage <;> rfl

/-- The first parameter to come stands before the others. -/
theorem Within.split (h : Within (p :: ps) items) : ∃ pre z post, items = pre ++ z :: post ∧
    z.ordinal? = some p.ordinal ∧ Within (p :: ps) (z :: post) := by
  induction items with
  | nil => exact absurd h.length_le (by simp)
  | cons z items ih =>
    by_cases hz : z.ordinal? = some p.ordinal
    · exact ⟨[], z, items, rfl, hz, h⟩
    · have htail : Within (p :: ps) items := by
        cases ho : z.ordinal? with
        | none =>
          rwa [Within, present, List.filterMap_cons_none ho] at h
        | some ordinal =>
          have hne : p.ordinal ≠ ordinal := fun he => hz (he ▸ ho)
          rw [Within, present_cons ho] at h
          rcases List.sublist_cons_iff.1 h with h | ⟨r, hr, -⟩
          · exact h
          · simp [hne] at hr
      obtain ⟨pre, z', post, rfl, hz', hw⟩ := ih htail
      exact ⟨z :: pre, z', post, rfl, hz', hw⟩

namespace Draft.Shows

/-- Moving a parameter early leaves those behind it in order. -/
theorem reorder_keeps (h : d.Shows types (pre ++ z :: post))
    (hz : z.ordinal? = some p.ordinal) (hw : Within rest (pre ++ post)) (dest : Nat) :
    ∃ items', Gives types (d.perform (.moveTo p.ordinal dest)) items' ∧ Within rest items' ∧
      items'.length = (pre ++ z :: post).length := by
  have hlt : pre.length < (pre ++ z :: post).length := by simp
  have hgives := h.reorder hlt dest
  have hdest : min dest ((pre ++ z :: post).length - 1) < (pre ++ z :: post).length := by omega
  generalize min dest ((pre ++ z :: post).length - 1) = dest' at hgives hdest
  refine ⟨_, ?_, ?_, relocate_length hlt hdest⟩
  · simp only [Draft.perform, h.position hz]
    exact hgives
  · have hsub : (pre ++ post).Sublist (relocate (pre ++ z :: post) pre.length dest') := by
      have herase : (pre ++ z :: post).eraseIdx pre.length = pre ++ post := by
        rw [List.eraseIdx_append_of_length_le (Nat.le_refl _), Nat.sub_self]
        rfl
      simp only [relocate, List.getElem?_eq_getElem hlt, herase]
      exact List.sublist_insertIdx ..
    exact List.Sublist.trans hw (present_sublist hsub)

end Draft.Shows

/-- The stage that brings the kept parameters into the wanted order, if there is any to do. -/
def ordering (kept wanted : List Placed) : List Stage :=
  if (Round.trim kept wanted).1.isEmpty then []
  else [.rearrange (Round.trim kept wanted).1 (Round.trim kept wanted).2]

theorem Round.Peeled.stages_eq (l : Round.Peeled) :
    l.stages = l.removed.reverse.map (fun p => .remove p.ordinal) ++ ordering l.kept l.wanted ++
      insertions l.inserted := rfl

theorem foldlM_peeled {l : Round.Peeled} {d₁ d₂ : Draft}
    (h₁ : (l.removed.reverse.map (·.ordinal)).foldlM Draft.remove d = .ok d₁)
    (h₂ : (ordering l.kept l.wanted).foldlM Draft.perform d₁ = .ok d₂) :
    l.stages.foldlM Draft.perform d = (insertions l.inserted).foldlM Draft.perform d₂ := by
  have hremoved : (l.removed.reverse.map fun p => Stage.remove p.ordinal).foldlM
      Draft.perform d = .ok d₁ := by
    rw [← h₁, List.foldlM_map, List.foldlM_map]
    rfl
  rw [l.stages_eq, List.foldlM_append, List.foldlM_append, hremoved]
  change ((ordering l.kept l.wanted).foldlM Draft.perform d₁ >>= _) = _
  rw [h₂]
  rfl

theorem Draft.Shows.order (h : d.Shows types items)
    (hp : (ps.map (·.type)).Perm (qs.map (·.type))) (hm : ∀ p ∈ ps, p.ordinal ∈ present items) :
    ∃ items', Gives types ((ordering ps qs).foldlM Draft.perform d) items' ∧
      items'.Perm items := by
  unfold ordering
  split
  · exact ⟨items, ⟨d, rfl, h⟩, .refl _⟩
  · rw [foldlM_single]
    refine h.rearrange_present (Round.trim_perm hp) fun p hpm => ?_
    exact hm p ((Round.trim_sublist ps qs).1.subset hpm)

namespace Round

theorem peeled_fit (h : d.Shows types items) (hw : Within reference items)
    (hp : ((peelBoth reference target).kept.map (·.type)).Perm
      ((peelBoth reference target).wanted.map (·.type))) :
    ∃ items', Gives types ((peelBoth reference target).stages.foldlM Draft.perform d) items' ∧
      items'.length + reference.length = items.length + target.length := by
  obtain ⟨f, g, hpeel⟩ := peelBoth_eq reference target
  rw [hpeel] at hp ⊢
  have hreference := List.length_eq_length_filter_add (l := reference) f
  have htarget := List.length_eq_length_filter_add (l := target) g
  have hlen : (reference.filter fun p => !f p).length = (target.filter fun q => !g q).length := by
    simpa using hp.length_eq
  have hnodup := hw.nodup h.distinct
  have hremoved : ((reference.filter f).reverse.map (·.ordinal)).Nodup := by
    rw [List.map_reverse]
    exact List.nodup_reverse.2 (hnodup.sublist (List.filter_sublist.map _))
  have hthere : ∀ o ∈ (reference.filter f).reverse.map (·.ordinal), o ∈ present items := by
    intro o ho
    rw [List.map_reverse, List.mem_reverse] at ho
    exact hw.mem o ((List.filter_sublist.map _).subset ho)
  have hkept : ∀ p ∈ reference.filter (fun p => !f p), p.ordinal ∈
      present (without ((reference.filter f).reverse.map (·.ordinal)) items) := by
    intro p hpm
    obtain ⟨href, hf⟩ := List.mem_filter.1 hpm
    rw [present_without, List.mem_filter]
    refine ⟨hw.mem _ (List.mem_map_of_mem href), ?_⟩
    simp only [List.map_reverse, List.mem_reverse, decide_eq_true_eq, List.mem_map,
      List.mem_filter, not_exists, not_and]
    rintro p' ⟨href', hf'⟩ he
    obtain rfl := List.inj_on_of_nodup_map hnodup href' href he
    simp [hf'] at hf
  obtain ⟨d₁, hd₁, h₁⟩ := h.remove_all hremoved hthere
  obtain ⟨items₂, ⟨d₂, hd₂, h₂⟩, hperm⟩ := h₁.order hp hkept
  obtain ⟨items₃, hgives, hlen₃, -⟩ := h₂.insert_all (target.filter g)
  refine ⟨items₃, ?_, ?_⟩
  · rw [foldlM_peeled hd₁ hd₂]
    exact hgives
  · have hcount := length_without hremoved h.distinct hthere
    have hlen₂ := hperm.length_eq
    rw [List.length_map, List.length_reverse] at hcount
    omega

/-- Every round can be carried out, whatever it does. -/
theorem Shape.fits (h : round.Shape cfg reference target) :
    round.Keeps types (Fits n) reference target := by
  intro d items hd hi
  have hfits := hi.length
  have hpresent (p : Placed) (hp : p ∈ reference) : p.ordinal ∈ present items :=
    hi.within.mem _ (List.mem_map_of_mem hp)
  cases h with
  | keep htype =>
    refine ⟨items, ⟨d, rfl, hd⟩, hi.within.sublist (List.sublist_cons_self ..), ?_⟩
    simp only [List.length_cons] at hfits ⊢
    omega
  | @dropFirst p p₁ q ps qs htype =>
    obtain ⟨pre, z, post, rfl, hz⟩ := exists_append_of_mem_present (hpresent p List.mem_cons_self)
    have hrest : Within (p₁ :: ps) (pre ++ post) := hi.within.drop_one [] hd.distinct hz
    refine ⟨_, by rw [foldlM_single]; exact hd.remove hz, ?_, ?_⟩
    · exact hrest.sublist (List.sublist_cons_self ..)
    · simp only [List.length_cons, List.length_append] at hfits ⊢
      omega
  | @insertBehind p p₁ q q₁ q₂ ps qs htype htype₁ =>
    obtain ⟨pre, z, post, rfl, hz⟩ := exists_append_of_mem_present (hpresent p List.mem_cons_self)
    refine ⟨_, by rw [foldlM_single]; exact hd.insertBehind hz q₁.type, ?_, ?_⟩
    · have hsub : ps.Sublist (p :: p₁ :: ps) := (List.sublist_cons_self ..).cons _
      refine List.Sublist.trans (hi.within.sublist hsub) (present_sublist ?_)
      exact (List.Sublist.refl pre).append ((List.sublist_cons_self ..).cons_cons z)
    · simp only [List.length_cons, List.length_append] at hfits ⊢
      omega
  | @move p p₁ q q₁ dest ps qs hsize hnames hdest =>
    obtain ⟨pre, z, post, rfl, hz⟩ :=
      exists_append_of_mem_present (hpresent p₁ (List.mem_cons_of_mem _ List.mem_cons_self))
    have hrest : Within (p :: ps) (pre ++ post) := hi.within.drop_one [p] hd.distinct hz
    obtain ⟨items', hgives, hw, hlen⟩ :=
      hd.reorder_keeps hz (hrest.sublist (List.sublist_cons_self ..)) dest.ordinal
    refine ⟨items', by rw [foldlM_single]; exact hgives, hw, ?_⟩
    have herase : ((q :: q₁ :: qs).eraseP (·.sameType p₁)).length = qs.length + 1 := by
      rw [List.length_eraseP_of_mem (List.mem_of_find?_eq_some hdest) (List.find?_some hdest)]
      rfl
    simp only [List.length_drop, List.length_cons] at hfits ⊢
    omega
  | replace p q ps qs =>
    obtain ⟨pre, z, post, rfl, hz⟩ := exists_append_of_mem_present (hpresent p List.mem_cons_self)
    refine ⟨_, by rw [foldlM_single]; exact hd.replace hz q.type, ?_, ?_⟩
    · have hrest := hi.within.sublist (List.sublist_cons_self p ps)
      rwa [Within, ← present_retype q.type] at hrest
    · simp only [List.length_cons, List.length_append] at hfits ⊢
      omega
  | replaceSecond p p₁ q q₁ =>
    obtain ⟨pre, z, post, rfl, hz⟩ :=
      exists_append_of_mem_present (hpresent p₁ (List.mem_cons_of_mem _ List.mem_cons_self))
    refine ⟨_, by rw [foldlM_single]; exact hd.replace hz q₁.type, ?_, ?_⟩
    · have hrest : Within [p] _ := hi.within.sublist ((List.nil_sublist _).cons_cons p)
      rwa [Within, ← present_retype q₁.type] at hrest
    · simp only [List.length_cons, List.length_append] at hfits ⊢
      omega
  | @swap p p₁ q q₁ htype htype₁ =>
    obtain ⟨front, x, back, hx, hxo⟩ :=
      exists_append_of_mem_present (hpresent p List.mem_cons_self)
    obtain ⟨front', y, back', hy, hyo⟩ :=
      exists_append_of_mem_present (hpresent p₁ (List.mem_cons_of_mem _ List.mem_cons_self))
    have hgives := hd.swap (i := front.length) (j := front'.length) (by simp [hx]) (by simp [hy])
      hxo hyo
    refine ⟨_, by rw [foldlM_single]; exact hgives, List.nil_sublist _, ?_⟩
    simp only [exchange_length, List.length_cons, List.length_nil] at hfits ⊢
    omega
  | rearrange hp =>
    obtain ⟨items', hgives, hlen⟩ := peeled_fit hd hi.within hp
    refine ⟨items', hgives, List.nil_sublist _, ?_⟩
    simp only [List.length_nil]
    omega
  | window p ps target m k =>
    obtain ⟨pre, z, post, rfl, hz, hw⟩ := hi.within.split
    have hwhole : Within (p :: ps.take m ++ ps.drop m) (z :: post) := by
      rwa [List.cons_append, List.take_append_drop]
    obtain ⟨settled, rest, hgives, hlen, hrest, hcount, -⟩ :=
      hd.window (target.take k) hz hwhole
    refine ⟨_, by rw [cut, foldlM_single]; exact hgives, ?_, ?_⟩
    · refine List.Sublist.trans hrest (present_sublist ?_)
      exact List.sublist_append_right ..
    · simp only [cut, List.length_append, List.length_cons, List.length_drop, List.length_take]
        at hfits hlen hcount ⊢
      omega
  | dropSecond p p₁ ps target =>
    obtain ⟨pre, z, post, rfl, hz⟩ :=
      exists_append_of_mem_present (hpresent p₁ (List.mem_cons_of_mem _ List.mem_cons_self))
    refine ⟨_, by rw [foldlM_single]; exact hd.remove hz,
      hi.within.drop_one [p] hd.distinct hz, ?_⟩
    simp only [List.length_cons, List.length_append] at hfits ⊢
    omega

end Round
end Reparam
