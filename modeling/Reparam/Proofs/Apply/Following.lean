import Reparam.Proofs.Apply.Running

/-! An application and the flat script go together: what each change to the body keeps in line with
an edit of a list, the whole application keeps in line with the whole script. -/
namespace Reparam

variable {α : Type} {fresh : ValueType → α} {retype : ValueType → α → α} {xs ys : List α}
  {a : Applier} {I : List α → Progress → Prop} {p p' : Progress} {order order' : List Nat}
  {reorders : List Reorder} {index target source generator d : Nat} {t : ValueType}

/-- Every change to a body does to a list what the edit does that it belongs to. -/
structure Carries (a : Applier) (fresh : ValueType → α) (retype : ValueType → α → α)
    (I : List α → Progress → Prop) : Prop where
  length_params : ∀ {xs p}, I xs p → p.body.signature.params.length = xs.length
  length_entries : ∀ {xs p}, I xs p → p.table.entries.length = xs.length
  of_code : ∀ {xs p p'} {code : Code}, I xs p → p'.body = { p.body with code } →
    p'.table = p.table → I xs p'
  insert : ∀ {xs p p' index t}, I xs p → index ≤ xs.length → a.insert p index t = .ok p' →
    I (xs.insertIdx index (fresh t)) p'
  replace : ∀ {xs p p' index t}, I xs p → index < xs.length → a.replace p index t = .ok p' →
    I (xs.modify index (retype t)) p'
  drop : ∀ {xs p p' index d}, I xs p → index < xs.length →
    p.dropParameter a.widths index d = .ok p' → I (xs.eraseIdx index) p'
  permute : ∀ {xs ys p p' order}, I xs p → order.Perm (List.range xs.length) →
    order.map (xs[·]?) = ys.map some → a.permute order p = .ok p' → I ys p'

/-- The order that reorders lead to is what they do to a list, read off the list before. -/
theorem Applier.orderOf_run (h : orderOf xs.length reorders order = .ok order')
    (hperm : order.Perm (List.range xs.length)) (horder : order.map (xs[·]?) = ys.map some) :
    ∃ zs, Script.run fresh retype (reorders.map (·.toEdit)) ys = .ok zs ∧
      order'.Perm (List.range xs.length) ∧ order'.map (xs[·]?) = zs.map some := by
  have hlength : ys.length = xs.length := by
    have := congrArg List.length horder
    simpa [hperm.length_eq] using this.symm
  induction reorders generalizing order ys with
  | nil =>
    cases h
    exact ⟨ys, rfl, hperm, horder⟩
  | cons r reorders ih =>
    cases r with
    | swap i j =>
      simp only [orderOf] at h
      split at h
      · rename_i hmax
        have hstep : (Edit.swap i j).Step fresh retype ys (exchange ys i j) :=
          .swap (by omega) (by omega)
        rw [List.map_cons, Reorder.toEdit, Script.run_cons hstep]
        refine ih h (exchange_perm.trans hperm) ?_ ((exchange_length ys i j).trans hlength)
        rw [← exchange_map, ← exchange_map, horder]
      · cases h
    | move source dest =>
      simp only [orderOf] at h
      split at h
      · rename_i hmax
        have hstep : (Edit.move source dest).Step fresh retype ys (relocate ys source dest) :=
          .move (by omega) (by omega)
        have horderLength : dest < order.length := by
          rw [hperm.length_eq, List.length_range]
          omega
        rw [List.map_cons, Reorder.toEdit, Script.run_cons hstep]
        refine ih h ((relocate_perm horderLength).trans hperm) ?_
          ((relocate_length (by omega) (by omega)).trans hlength)
        rw [← relocate_map, ← relocate_map, horder]
      · cases h

theorem map_range_getElem (xs : List α) : (List.range xs.length).map (xs[·]?) = xs.map some := by
  refine List.ext_getElem (by simp) fun i hi hi' => ?_
  simp at hi ⊢

theorem Applier.le_of_insert (h : a.insert p index t = .ok p') :
    index ≤ p.body.signature.params.length := by
  by_cases hindex : index ≤ p.body.signature.params.length
  · exact hindex
  · simp only [insert, if_neg hindex] at h
    cases h

theorem pairwise_descendingByFirst {β : Type} (pairs : List (Nat × β)) :
    (descendingByFirst pairs).Pairwise fun p q => q.1 ≤ p.1 :=
  pairwise_mergeSort_descending Prod.fst pairs

/-- A phase whose steps go with one edit each goes with all of them. -/
theorem foldlM_run {β : Type} {step : Progress → β → Except Stopped Progress} {edit : β → Edit}
    {edits : List β} (hstep : ∀ {xs p p' e}, I xs p → step p e = .ok p' →
      ∃ ys, (edit e).Step fresh retype xs ys ∧ I ys p')
    (h : I xs p) (hp : edits.foldlM step p = .ok p') :
    ∃ ys, Script.run fresh retype (edits.map edit) xs = .ok ys ∧ I ys p' := by
  induction edits generalizing xs p with
  | nil =>
    cases hp
    exact ⟨xs, rfl, h⟩
  | cons e edits ih =>
    rw [List.foldlM_cons] at hp
    obtain ⟨q, hq, hp⟩ := exists_of_bind hp
    obtain ⟨ys, hys, hI⟩ := hstep h hq
    obtain ⟨zs, hzs, hI⟩ := ih hI hp
    exact ⟨zs, (Script.run_cons hys).trans hzs, hI⟩

/-- The order of ordinals that there is leads to the same list. -/
theorem eq_of_order_range (hperm : order.Perm (List.range xs.length))
    (horder : order.map (xs[·]?) = ys.map some) (hrange : order = List.range order.length) :
    ys = xs := by
  have hlength := hperm.length_eq
  rw [List.length_range] at hlength
  rw [← filterMap_getElem_of_map horder, hrange, hlength]
  exact filterMap_getElem_of_map (map_range_getElem xs)

namespace Carries

theorem lt_of_entry (hc : Carries a fresh retype I) (h : I xs p) {entry : SlotEntry}
    (he : p.table.entries[index]? = some entry) : index < xs.length :=
  hc.length_entries h ▸ (List.getElem?_eq_some_iff.1 he).1

theorem dropParameter (hc : Carries a fresh retype I) (h : I xs p)
    (hp : p.dropParameter a.widths index d = .ok p') :
    index < xs.length ∧ I (xs.eraseIdx index) p' := by
  obtain ⟨entry, -, -, hentry, -⟩ := Progress.dropParameter_eq_ok hp
  have hlt := hc.lt_of_entry h hentry
  exact ⟨hlt, hc.drop h hlt hp⟩

theorem insert_step (hc : Carries a fresh retype I) (h : I xs p)
    (hp : a.insert p index t = .ok p') :
    ∃ ys, (Edit.insert index t).Step fresh retype xs ys ∧ I ys p' := by
  have hindex := Applier.le_of_insert hp
  rw [hc.length_params h] at hindex
  exact ⟨_, .insert t hindex, hc.insert h hindex hp⟩

theorem replace_step (hc : Carries a fresh retype I) (h : I xs p)
    (hp : a.replace p index t = .ok p') :
    ∃ ys, (Edit.replace index t).Step fresh retype xs ys ∧ I ys p' := by
  obtain ⟨entry, -, -, hentry, -⟩ := Applier.replace_eq_ok hp
  have hindex := hc.lt_of_entry h hentry
  exact ⟨_, .replace t hindex, hc.replace h hindex hp⟩

theorem remove_step (hc : Carries a fresh retype I) (h : I xs p) (hp : a.remove p index = .ok p') :
    ∃ ys, (Edit.remove index).Step fresh retype xs ys ∧ I ys p' := by
  obtain ⟨hindex, hI⟩ := hc.dropParameter h (Applier.remove_eq_ok hp)
  exact ⟨_, .remove hindex, hI⟩

theorem inline_step (hc : Carries a fresh retype I) (h : I xs p)
    (hp : a.inline p index generator = .ok p') :
    ∃ ys, (Edit.inline index generator).Step fresh retype xs ys ∧ I ys p' := by
  obtain ⟨entry, q, replacement, -, -, hq, rfl⟩ := Applier.inline_eq_ok hp
  obtain ⟨hindex, hI⟩ := hc.dropParameter h hq
  exact ⟨_, .inline generator hindex,
    hc.of_code hI (Progress.tally_body ..) (Progress.tally_table ..)⟩

theorem insertAll (hc : Carries a fresh retype I) {edits : List (Nat × ValueType)} (h : I xs p)
    (hp : a.insertAll edits p = .ok p') : ∃ ys, Script.run fresh retype
      ((ascendingByFirst edits).map fun (i, t) => .insert i t) xs = .ok ys ∧ I ys p' :=
  foldlM_run (fun h hq => hc.insert_step h hq) h hp

theorem replaceAll (hc : Carries a fresh retype I) {edits : List (Nat × ValueType)} (h : I xs p)
    (hp : a.replaceAll edits p = .ok p') : ∃ ys, Script.run fresh retype
      (edits.map fun (i, t) => .replace i t) xs = .ok ys ∧ I ys p' :=
  foldlM_run (fun h hq => hc.replace_step h hq) h hp

theorem substitute (hc : Carries a fresh retype I) (h : I xs p)
    (hp : a.substitute p target source = .ok p') :
    target ≠ source ∧ target < xs.length ∧ source < xs.length ∧ I (xs.eraseIdx target) p' := by
  obtain ⟨hne, q, entry, hq, hentry, rfl⟩ := Applier.substitute_eq_ok hp
  obtain ⟨htarget, hI⟩ := hc.dropParameter h hq
  have hsource := hc.lt_of_entry hI hentry
  rw [List.length_eraseIdx_of_lt htarget] at hsource
  refine ⟨hne, htarget, ?_, ?_⟩
  · split at hsource <;> omega
  · exact hc.of_code hI (Progress.tally_body ..) (Progress.tally_table ..)

/-- Targets go in descending order, so a parameter that is to stand for itself is still at its own
place when its turn comes. -/
theorem substituteAll (hc : Carries a fresh retype I) {edits : List (Nat × Nat)} {gone : List Nat}
    (hsorted : edits.Pairwise fun p q => q.1 ≤ p.1) (hgone : ∀ g ∈ gone, ∀ e ∈ edits, e.1 ≤ g)
    (h : I xs p) (hp : a.substituteAll edits gone p = .ok p') :
    ∃ ys, FlatScript.substituteAll edits gone xs = .ok ys ∧ I ys p' := by
  induction edits generalizing xs p gone with
  | nil =>
    cases hp
    exact ⟨xs, rfl, h⟩
  | cons e edits ih =>
    obtain ⟨target, source⟩ := e
    obtain ⟨hlast, hsorted⟩ := List.pairwise_cons.1 hsorted
    obtain ⟨place, q, hplace, hq, hp⟩ := Applier.substituteAll_cons_ok hp
    obtain ⟨hne, htarget, hsource, hI⟩ := hc.substitute h hq
    have hself : target ≠ source := by
      rintro rfl
      have hstays : currentIndex? target gone = some target :=
        currentIndex?_of_le fun g hg => hgone g hg _ List.mem_cons_self
      exact hne (Option.some_inj.1 (hstays.symm.trans hplace))
    have hgone' : ∀ g ∈ target :: gone, ∀ e ∈ edits, e.1 ≤ g := by
      intro g hg e he
      rcases List.mem_cons.1 hg with rfl | hg
      · exact hlast e he
      · exact hgone g hg e (List.mem_cons_of_mem _ he)
    obtain ⟨ys, hys, hI⟩ := ih hsorted hgone' hI hp
    refine ⟨ys, ?_, hI⟩
    rw [FlatScript.substituteAll_cons hplace hself htarget hsource, hys]

theorem reorderAll (hc : Carries a fresh retype I) (h : I xs p)
    (hp : a.reorderAll reorders p = .ok p') :
    ∃ ys, Script.run fresh retype (reorders.map (·.toEdit)) xs = .ok ys ∧ I ys p' := by
  obtain ⟨order, horder, hp⟩ := Applier.reorderAll_eq_ok hp
  rw [hc.length_params h] at horder
  obtain ⟨ys, hys, hperm, hplaces⟩ :=
    Applier.orderOf_run horder (.refl _) (map_range_getElem xs)
  exact ⟨ys, hys, hc.permute h hperm hplaces hp⟩

theorem removeAll (hc : Carries a fresh retype I) {indices : List Nat} (h : I xs p)
    (hp : a.removeAll indices p = .ok p') :
    ∃ ys, Script.run fresh retype ((descending indices).map .remove) xs = .ok ys ∧ I ys p' :=
  foldlM_run (fun h hq => hc.remove_step h hq) h hp

theorem inlineAll (hc : Carries a fresh retype I) {edits : List (Nat × Nat)} (h : I xs p)
    (hp : a.inlineAll edits p = .ok p') : ∃ ys, Script.run fresh retype
      ((descendingByFirst edits).map fun (i, g) => .inline i g) xs = .ok ys ∧ I ys p' :=
  foldlM_run (fun h hq => hc.inline_step h hq) h hp

/-- An application that goes well follows the flat script. -/
theorem run (hc : Carries a fresh retype I) {f : FlatScript} {b : Body}
    (h : ∀ before, SlotTable.ofSignature a.widths b.signature = .ok before →
      I xs { body := b, table := before }) (hp : a.run f b = .ok p') :
    ∃ ys, f.run fresh retype xs = .ok ys ∧ I ys p' := by
  obtain ⟨before, p1, p2, p3, p4, p5, p6, hbefore, h1, h2, h3, h4, h5, h6, hbody, htable⟩ :=
    Applier.run_eq_ok hp
  obtain ⟨xs1, hxs1, hI1⟩ := hc.insertAll (h before hbefore) h1
  obtain ⟨xs2, hxs2, hI2⟩ := hc.replaceAll hI1 h2
  obtain ⟨xs3, hxs3, hI3⟩ := hc.substituteAll (pairwise_descendingByFirst _) (by simp) hI2 h3
  obtain ⟨xs4, hxs4, hI4⟩ := hc.reorderAll hI3 h4
  obtain ⟨xs5, hxs5, hI5⟩ := hc.removeAll hI4 h5
  obtain ⟨ys, hys, hI6⟩ := hc.inlineAll hI5 h6
  refine ⟨ys, ?_, @Carries.of_code _ _ _ _ _ hc _ _ _ p6.body.code hI6 hbody htable⟩
  simp only [FlatScript.run, hxs1, hxs2, hxs3, hxs4, hxs5, hys, bind, Except.bind]

end Carries

end Reparam
