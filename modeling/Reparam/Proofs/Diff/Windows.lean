import Mathlib.Data.List.Nodup
import Reparam.Proofs.Diff.Rearranging
import Reparam.Proofs.Diff.SinglePassRun

/-! A window is settled by the script of a single pass, carried out from where its first parameter
stands. The parameters behind need not stand next to each other: the script takes as many elements
as it consumed, whatever they are, and the parameters that it did not come to are still there. -/
namespace Reparam

variable {types : List ValueType} {d : Draft} {items pre post : List Item} {z : Item}
  {gone : List Nat} {first : Placed} {params more later target : List Placed} {n ordinal : Nat}

/-- Parameters that are all there and in order. -/
def Within (params : List Placed) (items : List Item) : Prop :=
  (params.map (·.ordinal)).Sublist (present items)

theorem present_drop (n : Nat) (items : List Item) :
    ((present items).drop n).Sublist (present (items.drop n)) := by
  have hsplit : present items = present (items.take n) ++ present (items.drop n) := by
    rw [← present_append, List.take_append_drop]
  have hlen : (present (items.take n)).length ≤ n :=
    Nat.le_trans (List.length_filterMap_le ..) (List.length_take_le ..)
  rw [hsplit, List.drop_append, List.drop_eq_nil_of_le hlen, List.nil_append]
  exact List.drop_sublist ..

theorem Within.drop (h : Within params items) (n : Nat) : Within (params.drop n) (items.drop n) := by
  rw [Within, List.map_drop]
  exact (List.Sublist.drop h n).trans (present_drop n items)

theorem Within.length_le (h : Within params items) : params.length ≤ items.length := by
  have hle := List.Sublist.length_le h
  have hpresent : (present items).length ≤ items.length := List.length_filterMap_le ..
  rw [List.length_map] at hle
  omega

theorem Within.mem (h : Within params items) :
    ∀ o ∈ params.map (·.ordinal), o ∈ present items := fun _ ho => h.subset ho

theorem Within.nodup (h : Within params items) (hd : (present items).Nodup) :
    (params.map (·.ordinal)).Nodup := hd.sublist h

theorem within_items (params : List Placed) (post : List Item) :
    Within params (params.map Placed.item ++ post) := by
  rw [Within, present_append, present_items]
  exact List.sublist_append_left ..

theorem present_without (gone : List Nat) (items : List Item) :
    present (without gone items) = (present items).filter (· ∉ gone) := by
  induction items with
  | nil => rfl
  | cons z items ih =>
    obtain ⟨ordinal | _, t⟩ := z
    · by_cases hm : ordinal ∈ gone <;> simp_all [without, Item.ordinal?]
    · simp_all [without, Item.ordinal?]

theorem Within.sublist (h : Within params items) (hs : later.Sublist params) :
    Within later items :=
  (hs.map _).trans h

theorem Within.kept (h : Within params items) (gone : List Nat) :
    Within (params.filter (·.ordinal ∉ gone)) (without gone items) := by
  have hfilter := List.Sublist.filter (· ∉ gone) h
  rw [← present_without, List.filter_map] at hfilter
  exact hfilter

/-- What stays in order behind some parameters that are taken away. -/
theorem Within.without_front (h : Within (params ++ later) items) (hd : (present items).Nodup) :
    Within later (without (params.map (·.ordinal)) items) := by
  have hkept := h.kept (params.map (·.ordinal))
  refine hkept.sublist ?_
  have hnodup := h.nodup hd
  rw [List.map_append] at hnodup
  have hlater : later.filter (·.ordinal ∉ params.map (·.ordinal)) = later := by
    refine List.filter_eq_self.2 fun p hp => ?_
    simp only [decide_eq_true_eq]
    intro hm
    exact (List.nodup_append.1 hnodup).2.2 _ hm _ (List.mem_map_of_mem hp) rfl
  rw [List.filter_append, hlater]
  exact List.sublist_append_right ..

theorem Within.drop_one (params : List Placed)
    (h : Within (params ++ first :: later) (pre ++ z :: post))
    (hd : (present (pre ++ z :: post)).Nodup) (hz : z.ordinal? = some first.ordinal) :
    Within (params ++ later) (pre ++ post) := by
  have hkept := h.kept [first.ordinal]
  rw [without_single hd hz] at hkept
  have hnodup := h.nodup hd
  rw [List.map_append, List.map_cons, List.nodup_append, List.nodup_cons] at hnodup
  have hne : ∀ p ∈ params ++ later, p.ordinal ∉ [first.ordinal] := by
    intro p hp hm
    rw [List.mem_singleton] at hm
    rcases List.mem_append.1 hp with hp | hp
    · exact hnodup.2.2 _ (List.mem_map_of_mem hp) _ List.mem_cons_self hm
    · exact hnodup.2.1.1 (hm ▸ List.mem_map_of_mem hp)
  have hfilter : (params ++ first :: later).filter (·.ordinal ∉ [first.ordinal]) =
      params ++ later := by
    have hall := List.filter_eq_self.2 fun p hp => decide_eq_true (hne p hp)
    rw [List.filter_append] at hall ⊢
    rw [List.filter_cons_of_neg (by simp)]
    exact hall
  rwa [hfilter] at hkept

theorem length_without (hn : gone.Nodup) (hd : (present items).Nodup)
    (hp : ∀ o ∈ gone, o ∈ present items) :
    (without gone items).length + gone.length = items.length := by
  induction gone generalizing items with
  | nil => simp [without_eq_self]
  | cons ordinal gone ih =>
    obtain ⟨front, z, back, rfl, hz⟩ := exists_append_of_mem_present (hp ordinal List.mem_cons_self)
    have hone := without_single hd hz
    have hsub : (front ++ back).Sublist (front ++ z :: back) :=
      (List.Sublist.refl front).append (List.sublist_cons_self ..)
    have hrest := @ih (front ++ back) hn.of_cons (hd.sublist (present_sublist hsub)) ?_
    · rw [without_cons, hone, List.length_cons]
      simp only [List.length_append, List.length_cons] at hrest ⊢
      omega
    · intro o ho
      have hne : o ≠ ordinal := by
        rintro rfl
        exact (List.nodup_cons.1 hn).1 ho
      have hmem := hp o (List.mem_cons_of_mem _ ho)
      rw [present_append, present_cons hz] at hmem
      rw [present_append]
      simpa [hne] using hmem

theorem without_items (params : List Placed) :
    without (params.map (·.ordinal)) (params.map Placed.item) = [] := by
  refine List.filter_eq_nil_iff.2 fun z hz => ?_
  obtain ⟨p, hp, rfl⟩ := List.mem_map.1 hz
  simpa using ⟨p, hp, rfl⟩

/-- A window is settled with as many parameters as its target has. If it covers all that stands at
its place, those have the target's types. -/
theorem Draft.Shows.window (target : List Placed) (h : d.Shows types (pre ++ z :: items))
    (hz : z.ordinal? = some first.ordinal)
    (hw : Within (first :: more ++ later) (z :: items)) :
    ∃ settled rest, Gives types (d.perform (.window (first :: more) target))
        (pre ++ settled ++ rest) ∧ settled.length = target.length ∧ Within later rest ∧
      rest.length + (first :: more).length = (z :: items).length ∧
      ∀ post, z :: items = (first :: more).map Placed.item ++ post →
        rest = post ∧ settled.map (·.2) = target.map (·.type) := by
  obtain ⟨f, hcompare, hle, hrun⟩ := SinglePass.compareMarks_run
    ((first :: more).map fun p => ⟨p.type, p.synthetic⟩) (target.map fun p => ⟨p.type, p.synthetic⟩)
  rw [List.length_map] at hle
  have hlong : (first :: more).length ≤ (z :: items).length := by
    have hall := hw.length_le
    rw [List.length_append] at hall
    omega
  generalize hgone : (first :: more).drop f.consumed = left
  obtain ⟨settled, hsettled, hlen, htypes⟩ := hrun Item Item.fresh Item.retype (·.2)
    ((z :: items).take f.consumed) (fun _ => rfl) (fun _ _ => rfl)
    (by rw [List.length_take]; omega)
  have hframe := Script.run_frame pre ((z :: items).drop f.consumed) hsettled
  rw [List.append_assoc, List.take_append_drop] at hframe
  obtain ⟨d₁, hd₁, hshows⟩ := h.emit_all hframe
  have hwithin : Within (left ++ later) ((z :: items).drop f.consumed) := by
    have hdrop := hw.drop f.consumed
    rwa [List.drop_append_of_le_length hle, hgone] at hdrop
  have hdistinct := hshows.distinct
  rw [present_append] at hdistinct
  have hrest := (List.nodup_append.1 hdistinct).2.1
  have hdisjoint := (List.nodup_append.1 hdistinct).2.2
  have hleft : ∀ o ∈ left.map (·.ordinal), o ∈ present ((z :: items).drop f.consumed) := by
    intro o ho
    refine hwithin.mem o ?_
    rw [List.map_append]
    exact List.mem_append_left _ ho
  have hnodup : (left.map (·.ordinal)).Nodup := by
    have hnodup := hwithin.nodup hrest
    rw [List.map_append] at hnodup
    exact (List.nodup_append.1 hnodup).1
  have hreverse : (left.reverse.map (·.ordinal)).Nodup := by
    rw [List.map_reverse]
    exact List.nodup_reverse.2 hnodup
  have hremoved := hshows.remove_all hreverse fun o ho => by
    rw [present_append]
    rw [List.map_reverse, List.mem_reverse] at ho
    exact List.mem_append_right _ (hleft o ho)
  have hsame (items : List Item) : without (left.reverse.map (·.ordinal)) items =
      without (left.map (·.ordinal)) items := by
    simp [without]
  have hkept : without (left.map (·.ordinal)) (pre ++ settled) = pre ++ settled := by
    refine without_eq_self fun o ho hm => ?_
    exact hdisjoint o hm o (hleft o ho) rfl
  rw [hsame, without_append, hkept] at hremoved
  refine ⟨settled, without (left.map (·.ordinal)) ((z :: items).drop f.consumed), ?_, ?_, ?_, ?_, ?_⟩
  · have hperform : d.perform (.window (first :: more) target) =
        (left.reverse.map (·.ordinal)).foldlM Draft.remove d₁ := by
      simp only [Draft.perform, Draft.compareWindow, h.position hz, SinglePass.compare, hcompare,
        bind, Except.bind, hd₁, hgone]
    rw [hperform]
    exact hremoved
  · simpa using hlen
  · exact hwithin.without_front hrest
  · have hlength := length_without hnodup hrest hleft
    have hcount : left.length = (first :: more).length - f.consumed := by simp [← hgone]
    rw [List.length_map, List.length_drop] at hlength
    omega
  · intro post hpost
    have hdrop : (z :: items).drop f.consumed = left.map Placed.item ++ post := by
      rw [hpost, List.drop_append_of_le_length (by simpa using hle), ← List.map_drop, hgone]
    have htake : (z :: items).take f.consumed = ((first :: more).take f.consumed).map Placed.item := by
      rw [hpost, List.take_append_of_le_length (by simpa using hle), ← List.map_take]
    rw [hdrop, present_append, present_items] at hrest
    have hpost' : without (left.map (·.ordinal)) post = post := by
      refine without_eq_self fun o ho hm => ?_
      exact (List.nodup_append.1 hrest).2.2 o ho o hm rfl
    refine ⟨?_, ?_⟩
    · rw [hdrop, without_append, without_items, hpost', List.nil_append]
    · rw [htake] at htypes
      simp only [List.map_map] at htypes
      refine htypes ?_
      simp only [Function.comp_def, Placed.item, List.map_take]
      exact List.take_prefix ..

end Reparam
