import Mathlib.Data.List.Sort
import Reparam.Proofs.Edit.Lifting
import Reparam.Proofs.Edit.Substitution

/-! Two flat scripts side by side, one for the front of a list and one for what stands behind it.
Each kind of edit of the second one is moved back by what stands in front of it when that kind has
its turn, so that the two never get in each other's way. -/
namespace Reparam

variable {α β : Type} {fresh : ValueType → α} {retype : ValueType → α → α} {xs ys : List α}
  {delta n : Nat} {r : Reorder} {f g : FlatScript}

namespace Reorder

/-- Both indices of a reorder have a property. -/
def All (P : Nat → Prop) : Reorder → Prop
  | swap a b => P a ∧ P b
  | move source dest => P source ∧ P dest

theorem All.imp {P Q : Nat → Prop} (h : ∀ i, P i → Q i) (hr : r.All P) : r.All Q := by
  cases r <;> exact hr.imp (h _) (h _)

theorem all_mapIndices {P : Nat → Prop} {m : Nat → Nat} :
    (r.mapIndices m).All P ↔ r.All fun i => P (m i) := by
  cases r <;> rfl

theorem All.mapIndices_congr {m m' : Nat → Nat} (hr : r.All fun i => m i = m' i) :
    r.mapIndices m = r.mapIndices m' := by
  cases r <;> simp only [mapIndices, hr.1, hr.2]

theorem toEdit_offset (delta : Nat) (r : Reorder) :
    (r.offset delta).toEdit = r.toEdit.offset delta := by
  cases r <;> rfl

end Reorder

/-! What a phase of a flat script that goes through says about its places. -/

/-- Insertions fit into the list that they lead to, and push back whatever lies behind it. -/
theorem run_inserts_ok {ps : List (Nat × ValueType)}
    (h : Script.run fresh retype (ps.map fun (i, t) => .insert i t) xs = .ok ys) :
    ys.length = xs.length + ps.length ∧ (∀ p ∈ ps, p.1 < xs.length + ps.length) ∧
      ∀ i, xs.length ≤ i → pushedBack i ps = i + ps.length := by
  induction ps generalizing xs with
  | nil =>
    cases h
    exact ⟨rfl, by simp, fun i _ => rfl⟩
  | cons p ps ih =>
    obtain ⟨zs, hstep, hrest⟩ := Script.run_cons_ok h
    cases hstep with
    | insert t hi =>
      have hi : p.1 ≤ xs.length := hi
      have hlength := List.length_insertIdx_of_le_length hi (fresh p.2)
      obtain ⟨hys, hbound, hpushed⟩ := ih hrest
      rw [hlength] at hys hbound hpushed
      refine ⟨by rw [hys, List.length_cons]; omega, ?_, fun i hle => ?_⟩
      · rw [List.length_cons, List.forall_mem_cons]
        refine ⟨by omega, fun q hq => ?_⟩
        have := hbound q hq
        omega
      · rw [pushedBack_cons, if_pos (by omega), hpushed (i + 1) (by omega), List.length_cons]
        omega

/-- Every dropped place is in the list. -/
theorem run_drops_ok {drop : β → Edit} {place : β → Nat} {ps : List β}
    (hdrop : ∀ p xs ys, (drop p).Step fresh retype xs ys →
      place p < xs.length ∧ ys = xs.eraseIdx (place p))
    (h : Script.run fresh retype (ps.map drop) xs = .ok ys) :
    ys.length + ps.length = xs.length ∧ ∀ p ∈ ps, place p < xs.length := by
  induction ps generalizing xs with
  | nil =>
    cases h
    exact ⟨rfl, by simp⟩
  | cons p ps ih =>
    obtain ⟨zs, hstep, hrest⟩ := Script.run_cons_ok h
    obtain ⟨hp, rfl⟩ := hdrop p xs zs hstep
    obtain ⟨hys, hbound⟩ := ih hrest
    rw [List.length_eraseIdx_of_lt hp] at hys hbound
    refine ⟨by rw [List.length_cons]; omega, List.forall_mem_cons.2 ⟨hp, fun q hq => ?_⟩⟩
    have := hbound q hq
    omega

theorem run_removes_ok {ps : List Nat} (h : Script.run fresh retype (ps.map .remove) xs = .ok ys) :
    ys.length + ps.length = xs.length ∧ ∀ i ∈ ps, i < xs.length := by
  refine run_drops_ok (fun p xs ys hstep => ?_) h
  cases hstep with
  | remove hp => exact ⟨hp, rfl⟩

theorem run_inlines_ok {ps : List (Nat × Nat)}
    (h : Script.run fresh retype (ps.map fun (i, g) => .inline i g) xs = .ok ys) :
    ys.length + ps.length = xs.length ∧ ∀ p ∈ ps, p.1 < xs.length := by
  have hdrop (p : Nat × Nat) (xs ys : List α)
      (hstep : (Edit.inline p.1 p.2).Step fresh retype xs ys) :
      Prod.fst p < xs.length ∧ ys = xs.eraseIdx (Prod.fst p) := by
    cases hstep with
    | inline _ hp => exact ⟨hp, rfl⟩
  exact run_drops_ok hdrop h

theorem run_replaces_ok {ps : List (Nat × ValueType)}
    (h : Script.run fresh retype (ps.map fun (i, t) => .replace i t) xs = .ok ys) :
    ys.length = xs.length ∧ ∀ p ∈ ps, p.1 < xs.length := by
  induction ps generalizing xs with
  | nil =>
    cases h
    exact ⟨rfl, by simp⟩
  | cons p ps ih =>
    obtain ⟨zs, hstep, hrest⟩ := Script.run_cons_ok h
    cases hstep with
    | replace t hi =>
      have hrest := ih hrest
      rw [List.length_modify] at hrest
      exact ⟨hrest.1, List.forall_mem_cons.2 ⟨hi, hrest.2⟩⟩

theorem run_reorders_ok {rs : List Reorder}
    (h : Script.run fresh retype (rs.map (·.toEdit)) xs = .ok ys) :
    ys.length = xs.length ∧ ∀ r ∈ rs, r.All (· < xs.length) := by
  induction rs generalizing xs with
  | nil =>
    cases h
    exact ⟨rfl, by simp⟩
  | cons r rs ih =>
    obtain ⟨zs, hstep, hrest⟩ := Script.run_cons_ok h
    obtain ⟨hlength, hr⟩ : zs.length = xs.length ∧ r.All (· < xs.length) := by
      cases r with
      | swap a b =>
        cases hstep with
        | swap ha hb => exact ⟨exchange_length .., ha, hb⟩
      | move source dest =>
        cases hstep with
        | move hs hd => exact ⟨relocate_length hs hd, hs, hd⟩
    have hrest := ih hrest
    rw [hlength] at hrest
    exact ⟨hrest.1, List.forall_mem_cons.2 ⟨hr, hrest.2⟩⟩

namespace FlatScript

variable {ps qs : List (Nat × Nat)} {gone far : List Nat}

/-- Targets and sources are in the list that the substitutions start from, and what lies behind it
is pulled forward by all of them. -/
theorem substituteAll_ok (h : substituteAll ps gone xs = .ok ys) :
    ys.length + ps.length = xs.length ∧
      (∀ p ∈ ps, p.1 < xs.length ∧ p.2 < xs.length + gone.length) ∧
      ∀ i, xs.length ≤ i → pulledForward i ps = i - ps.length := by
  induction ps generalizing gone xs with
  | nil =>
    cases h
    exact ⟨rfl, by simp, fun i _ => rfl⟩
  | cons p ps ih =>
    obtain ⟨place, hplace, -, ht, hs, hrest⟩ := substituteAll_cons_ok h
    have hlength := List.length_eraseIdx_of_lt ht
    obtain ⟨hys, hbound, hpulled⟩ := ih hrest
    rw [hlength] at hys hbound hpulled
    refine ⟨by rw [List.length_cons]; omega, List.forall_mem_cons.2 ⟨⟨ht, ?_⟩, fun q hq => ?_⟩,
      fun i hle => ?_⟩
    · have hcount := List.countP_le_length (p := (· < p.2)) (l := gone)
      have := currentIndex?_eq_some.1 hplace
      omega
    · have := hbound q hq
      rw [List.length_cons] at this
      omega
    · rw [pulledForward_cons, if_pos (by omega), hpulled (i - 1) (by omega), List.length_cons]
      omega

/-- Substitutions work in the same way behind another list. -/
theorem substituteAll_frame (front : List α) (h : substituteAll ps gone xs = .ok ys) :
    substituteAll (ps.map fun p => (p.1 + front.length, p.2 + front.length))
      (gone.map (· + front.length)) (front ++ xs) = .ok (front ++ ys) := by
  induction ps generalizing gone xs with
  | nil =>
    cases h
    rfl
  | cons p ps ih =>
    obtain ⟨target, source⟩ := p
    obtain ⟨place, hplace, hne, ht, hs, hrest⟩ : ∃ place, _ ∧ _ ∧ target < xs.length ∧ _ :=
      substituteAll_cons_ok h
    have hrest := ih hrest
    change substituteAll ((target + front.length, source + front.length) :: _) _ _ = _
    rw [substituteAll_cons (currentIndex?_offset front.length hplace) (by simpa using hne),
      List.eraseIdx_append_of_length_le (by simp), Nat.add_sub_cancel]
    · exact hrest
    · rw [List.length_append]
      omega
    · rw [List.length_append]
      omega

/-- Nor does it matter what stands behind the list, or what is gone from there. -/
theorem substituteAll_behind (back : List α) (hfar : ∀ p ∈ ps, ∀ i ∈ far, p.2 ≤ i)
    (h : substituteAll ps gone xs = .ok ys) :
    substituteAll ps (gone ++ far) (xs ++ back) = .ok (ys ++ back) := by
  induction ps generalizing gone xs with
  | nil =>
    cases h
    rfl
  | cons p ps ih =>
    obtain ⟨place, hplace, hne, ht, hs, hrest⟩ := substituteAll_cons_ok h
    obtain ⟨hp, hfar⟩ := List.forall_mem_cons.1 hfar
    rw [substituteAll_cons ((currentIndex?_append_of_le gone hp).trans hplace) hne,
      List.eraseIdx_append_of_lt_length ht]
    · exact ih hfar hrest
    · rw [List.length_append]
      omega
    · rw [List.length_append]
      omega

/-- The kinds of edits, each in the order in which it is run and at most one of a kind at a place. -/
structure Ordered (f : FlatScript) : Prop where
  insertions : f.insertions.Pairwise (·.1 < ·.1)
  substitutions : f.substitutions.Pairwise fun p q => q.1 < p.1
  removals : f.removals.Pairwise fun i j => j < i
  inlines : f.inlines.Pairwise fun p q => q.1 < p.1

/-- How many elements there are after the insertions, the substitutions and the removals. -/
def lengthInserted (f : FlatScript) (n : Nat) : Nat := n + f.insertions.length

def lengthSubstituted (f : FlatScript) (n : Nat) : Nat :=
  f.lengthInserted n - f.substitutions.length

def lengthRemoved (f : FlatScript) (n : Nat) : Nat := f.lengthSubstituted n - f.removals.length

/-- One script for the first elements, as many as are given, and another one for those behind. -/
def beside (f g : FlatScript) (n : Nat) : FlatScript where
  insertions := ascendingByFirst
    (f.insertions ++ g.insertions.map fun p => (p.1 + f.lengthInserted n, p.2))
  replacements := f.replacements ++ g.replacements.map fun p => (p.1 + f.lengthInserted n, p.2)
  substitutions := f.substitutions ++
    g.substitutions.map fun p => (p.1 + f.lengthInserted n, p.2 + f.lengthInserted n)
  reorders := f.reorders ++ g.reorders.map (·.offset n)
  removals := f.removals ++ g.removals.map (· + f.lengthSubstituted n)
  inlines := f.inlines ++ g.inlines.map fun p => (p.1 + f.lengthRemoved n, p.2)

/-- The phases of a run one by one. -/
theorem run_eq_ok_iff : f.run fresh retype xs = .ok ys ↔
    ∃ inserted replaced substituted reordered removed,
      Script.run fresh retype ((ascendingByFirst f.insertions).map fun (i, t) => .insert i t) xs =
        .ok inserted ∧
      Script.run fresh retype (f.replacements.map fun (i, t) => .replace i t) inserted =
        .ok replaced ∧
      substituteAll (descendingByFirst f.substitutions) [] replaced = .ok substituted ∧
      Script.run fresh retype (f.settledReorders.map (·.toEdit)) substituted = .ok reordered ∧
      Script.run fresh retype ((descending f.removals).map .remove) reordered = .ok removed ∧
      Script.run fresh retype ((descendingByFirst f.inlines).map fun (i, g) => .inline i g) removed =
        .ok ys := by
  constructor
  · intro h
    obtain ⟨inserted, h1, h⟩ := exists_of_bind h
    obtain ⟨replaced, h2, h⟩ := exists_of_bind h
    obtain ⟨substituted, h3, h⟩ := exists_of_bind h
    obtain ⟨reordered, h4, h⟩ := exists_of_bind h
    obtain ⟨removed, h5, h6⟩ := exists_of_bind h
    exact ⟨inserted, replaced, substituted, reordered, removed, h1, h2, h3, h4, h5, h6⟩
  · rintro ⟨inserted, replaced, substituted, reordered, removed, h1, h2, h3, h4, h5, h6⟩
    simp only [run, h1, h2, h3, h4, h5, h6, bind, Except.bind]

/-- Two lists that descend, the second one from above the first one, are sorted by trading places. -/
theorem mergeSort_append_swap {key : β → Nat} {ps qs : List β}
    (hp : ps.Pairwise fun p q => key q < key p) (hq : qs.Pairwise fun p q => key q < key p)
    (hpq : ∀ p ∈ ps, ∀ q ∈ qs, key p < key q) :
    (ps ++ qs).mergeSort (fun p q => key q ≤ key p) = qs ++ ps := by
  have hstrict : (qs ++ ps).Pairwise fun p q => key q < key p :=
    List.pairwise_append.2 ⟨hq, hp, fun q hq p hp => hpq p hp q hq⟩
  have hkeys : ((qs ++ ps).map key).Nodup :=
    List.pairwise_map.2 (hstrict.imp fun h => Nat.ne_of_gt h)
  have hsorted := pairwise_mergeSort_descending key (ps ++ qs)
  have hperm := (List.mergeSort_perm (ps ++ qs) fun p q => key q ≤ key p).trans List.perm_append_comm
  refine hperm.eq_of_pairwise (fun p q hp hq hle hge => ?_) hsorted
    (hstrict.imp fun h => Nat.le_of_lt h)
  exact List.inj_on_of_nodup_map hkeys (hperm.subset hp) hq (Nat.le_antisymm hge hle)

/-- So are two of which the second one was moved back behind the first one. -/
theorem mergeSort_append_moved {key : β → Nat} {m : β → β} {ps qs : List β}
    (hm : ∀ p, key (m p) = key p + delta) (hp : ps.Pairwise fun p q => key q < key p)
    (hq : qs.Pairwise fun p q => key q < key p) (hbound : ∀ p ∈ ps, key p < delta) :
    (ps ++ qs.map m).mergeSort (fun p q => key q ≤ key p) = qs.map m ++ ps := by
  refine mergeSort_append_swap hp ?_ fun p hp q hq => ?_
  · rw [List.pairwise_map]
    simp only [hm]
    exact hq.imp fun h => Nat.add_lt_add_right h delta
  · obtain ⟨q, -, rfl⟩ := List.mem_map.1 hq
    have := hbound p hp
    rw [hm]
    omega

end FlatScript

/-! The phases of two scripts side by side. -/

namespace Script

variable {edit : β → Edit} {m : β → β} {ps qs : List β} {xs' ys' : List α}

/-- The edits of the front first, then those of what stands behind what they left. -/
theorem run_front_first (hm : ∀ p, edit (m p) = (edit p).offset ys.length)
    (h : Script.run fresh retype (ps.map edit) xs = .ok ys)
    (h' : Script.run fresh retype (qs.map edit) xs' = .ok ys') :
    Script.run fresh retype ((ps ++ qs.map m).map edit) (xs ++ xs') = .ok (ys ++ ys') := by
  have hback := run_frame ys [] h'
  rw [List.map_map, List.append_nil, List.append_nil] at hback
  rw [List.map_append, List.map_map, run_append (run_behind h xs'), ← hback]
  exact congrArg (Script.run fresh retype · _) (List.map_congr_left fun p _ => hm p)

/-- The edits of the back first, while the front is as it was. -/
theorem run_back_first (hm : ∀ p, edit (m p) = (edit p).offset xs.length)
    (h : Script.run fresh retype (ps.map edit) xs = .ok ys)
    (h' : Script.run fresh retype (qs.map edit) xs' = .ok ys') :
    Script.run fresh retype ((qs.map m ++ ps).map edit) (xs ++ xs') = .ok (ys ++ ys') := by
  have hback := run_frame xs [] h'
  rw [List.map_map, List.append_nil, List.append_nil] at hback
  have hmoved : (qs.map m).map edit = qs.map ((·.offset xs.length) ∘ edit) := by
    rw [List.map_map]
    exact List.map_congr_left fun p _ => hm p
  rw [List.map_append, hmoved, run_append hback]
  exact run_behind h ys'

end Script

namespace FlatScript

variable {xs' ys' a a' b b' : List α}

theorem insertions_beside (hf : f.Ordered) (hg : g.Ordered)
    (hbound : ∀ p ∈ f.insertions, p.1 < f.lengthInserted n) :
    (f.beside g n).insertions =
      f.insertions ++ g.insertions.map fun p => (p.1 + f.lengthInserted n, p.2) := by
  refine ascendingByFirst_eq (List.pairwise_append.2 ⟨hf.insertions, ?_, ?_⟩)
  · rw [List.pairwise_map]
    exact hg.insertions.imp fun h => Nat.add_lt_add_right h _
  · intro p hp q hq
    obtain ⟨q, -, rfl⟩ := List.mem_map.1 hq
    have := hbound p hp
    omega

/-- The insertions of two scripts side by side are sorted as they are put together. -/
theorem ascendingByFirst_beside (f g : FlatScript) (n : Nat) :
    ascendingByFirst (f.beside g n).insertions = (f.beside g n).insertions := by
  refine List.mergeSort_of_pairwise ((pairwise_mergeSort_key Prod.fst _).imp ?_)
  exact fun h => decide_eq_true h

theorem substitutions_beside (hf : f.Ordered) (hg : g.Ordered)
    (hbound : ∀ p ∈ f.substitutions, p.1 < f.lengthInserted n) :
    descendingByFirst (f.beside g n).substitutions =
      (g.substitutions.map fun p => (p.1 + f.lengthInserted n, p.2 + f.lengthInserted n)) ++
        f.substitutions :=
  mergeSort_append_moved (fun _ => rfl) hf.substitutions hg.substitutions hbound

theorem substituteAll_beside (hg : substituteAll g.substitutions [] a' = .ok b')
    (hf : substituteAll f.substitutions [] a = .ok b) (hn : a.length = f.lengthInserted n) :
    substituteAll ((g.substitutions.map fun p =>
        (p.1 + f.lengthInserted n, p.2 + f.lengthInserted n)) ++ f.substitutions) [] (a ++ a') =
      .ok (b ++ b') := by
  have hback := substituteAll_frame a hg
  rw [hn, List.map_nil] at hback
  rw [substituteAll_append, hback, List.append_nil, ← List.nil_append (List.reverse _)]
  refine substituteAll_behind b' (fun p hp i hi => ?_) hf
  obtain ⟨-, hsource⟩ := (substituteAll_ok hf).2.1 p hp
  rw [List.mem_reverse, List.map_map] at hi
  obtain ⟨q, -, rfl⟩ := List.mem_map.1 hi
  rw [Function.comp_apply]
  rw [List.length_nil] at hsource
  omega

theorem settledReorders_eq_of_ordered (hf : f.Ordered) : f.settledReorders =
    f.reorders.map (·.mapIndices fun i =>
      pulledForward (pushedBack i f.insertions) f.substitutions) := by
  rw [settledReorders_eq, ascendingByFirst_eq hf.insertions, descendingByFirst_eq hf.substitutions]

/-- A reorder that goes through names an element that was there before any edit. -/
theorem reorders_lt (hf : f.Ordered)
    (hinsert : Script.run fresh retype (f.insertions.map fun (i, t) => .insert i t) xs = .ok a)
    (hreplaced : a'.length = a.length) (hsubstitute : substituteAll f.substitutions [] a' = .ok b)
    (hreorder : ∀ r ∈ f.settledReorders, r.All (· < b.length)) :
    ∀ r ∈ f.reorders, r.All (· < xs.length) := by
  intro r hr
  obtain ⟨ha, -, hpushed⟩ := run_inserts_ok hinsert
  obtain ⟨hb, -, hpulled⟩ := substituteAll_ok hsubstitute
  rw [settledReorders_eq_of_ordered hf] at hreorder
  refine (Reorder.all_mapIndices.1 (hreorder _ (List.mem_map_of_mem hr))).imp fun i hi => ?_
  by_contra hle
  rw [hpushed i (by omega), hpulled _ (by omega)] at hi
  omega

/-- Once insertions and substitutions are through, the reorders of the second script are behind all
that the first one leaves. -/
theorem settledReorders_beside (hf : f.Ordered) (hg : g.Ordered)
    (hinsert : Script.run fresh retype (f.insertions.map fun (i, t) => .insert i t) xs = .ok a)
    (hreplaced : a'.length = a.length) (hsubstitute : substituteAll f.substitutions [] a' = .ok b)
    (hreorder : ∀ r ∈ f.reorders, r.All (· < xs.length)) :
    (f.beside g xs.length).settledReorders =
      f.settledReorders ++ g.settledReorders.map (·.offset b.length) := by
  obtain ⟨ha, hbound, hpushed⟩ := run_inserts_ok hinsert
  obtain ⟨hb, htargets, hpulled⟩ := substituteAll_ok hsubstitute
  have hlength : f.lengthInserted xs.length = a'.length := by
    rw [lengthInserted]
    omega
  have hins := insertions_beside hf hg hbound
  have hsubs := @substitutions_beside xs.length f g hf hg fun p hp => by
    rw [hlength]
    exact (htargets p hp).1
  rw [settledReorders_eq, ascendingByFirst_beside, hins, hsubs,
    settledReorders_eq_of_ordered hf, settledReorders_eq_of_ordered hg, hlength]
  change List.map _ (f.reorders ++ _) = _
  rw [List.map_append, List.map_map, List.map_map]
  congr 1
  · refine List.map_congr_left fun r hr => Reorder.All.mapIndices_congr ?_
    refine (hreorder r hr).imp fun i hi => ?_
    have hle := pushedBack_le i f.insertions
    have hpushed : pushedBack (pushedBack i f.insertions)
        (g.insertions.map fun p => (p.1 + a'.length, p.2)) = pushedBack i f.insertions := by
      refine pushedBack_of_lt fun p hp => ?_
      obtain ⟨q, -, rfl⟩ := List.mem_map.1 hp
      simp only
      omega
    have hpulled : pulledForward (pushedBack i f.insertions)
        (g.substitutions.map fun p => (p.1 + a'.length, p.2 + a'.length)) =
          pushedBack i f.insertions := by
      refine pulledForward_of_le fun p hp => ?_
      obtain ⟨q, -, rfl⟩ := List.mem_map.1 hp
      simp only
      omega
    rw [pushedBack_append, pulledForward_append, hpushed, hpulled]
  · refine List.map_congr_left fun r _ => ?_
    have hindex (i : Nat) : pulledForward (pushedBack (i + xs.length) (f.insertions ++
          g.insertions.map fun p => (p.1 + a'.length, p.2)))
        ((g.substitutions.map fun p => (p.1 + a'.length, p.2 + a'.length)) ++ f.substitutions) =
          pulledForward (pushedBack i g.insertions) g.substitutions + b.length := by
      have hmoved : i + xs.length + f.insertions.length = i + a'.length := by omega
      rw [pushedBack_append, pulledForward_append, hpushed _ (by omega), hmoved, pushedBack_offset,
        pulledForward_offset, hpulled _ (by omega)]
      omega
    simp only [Function.comp_apply, Reorder.offset, Reorder.mapIndices_mapIndices, hindex]

theorem removals_beside (hf : f.Ordered) (hg : g.Ordered)
    (hbound : ∀ i ∈ f.removals, i < f.lengthSubstituted n) :
    descending (f.beside g n).removals =
      g.removals.map (· + f.lengthSubstituted n) ++ f.removals :=
  @mergeSort_append_moved _ _ id _ _ _ (fun _ => rfl) hf.removals hg.removals hbound

theorem inlines_beside (hf : f.Ordered) (hg : g.Ordered)
    (hbound : ∀ p ∈ f.inlines, p.1 < f.lengthRemoved n) :
    descendingByFirst (f.beside g n).inlines =
      (g.inlines.map fun p => (p.1 + f.lengthRemoved n, p.2)) ++ f.inlines :=
  mergeSort_append_moved (fun _ => rfl) hf.inlines hg.inlines hbound

/-- The phases of a run of a script whose lists are in order. -/
theorem exists_phases (hf : f.Ordered) (h : f.run fresh retype xs = .ok ys) :
    ∃ inserted replaced substituted reordered removed,
      Script.run fresh retype (f.insertions.map fun (i, t) => .insert i t) xs = .ok inserted ∧
      Script.run fresh retype (f.replacements.map fun (i, t) => .replace i t) inserted =
        .ok replaced ∧
      substituteAll f.substitutions [] replaced = .ok substituted ∧
      Script.run fresh retype (f.settledReorders.map (·.toEdit)) substituted = .ok reordered ∧
      Script.run fresh retype (f.removals.map .remove) reordered = .ok removed ∧
      Script.run fresh retype (f.inlines.map fun (i, g) => .inline i g) removed = .ok ys := by
  have hphases := run_eq_ok_iff.1 h
  rwa [ascendingByFirst_eq hf.insertions, descendingByFirst_eq hf.substitutions,
    descending_eq hf.removals, descendingByFirst_eq hf.inlines] at hphases

theorem phase_lengths {c d e : List α}
    (h1 : Script.run fresh retype (f.insertions.map fun (i, t) => .insert i t) xs = .ok a)
    (h2 : Script.run fresh retype (f.replacements.map fun (i, t) => .replace i t) a = .ok b)
    (h3 : substituteAll f.substitutions [] b = .ok c)
    (h4 : Script.run fresh retype (f.settledReorders.map (·.toEdit)) c = .ok d)
    (h5 : Script.run fresh retype (f.removals.map .remove) d = .ok e) :
    a.length = f.lengthInserted xs.length ∧ b.length = a.length ∧
      c.length = f.lengthSubstituted xs.length ∧ d.length = c.length ∧
        e.length = f.lengthRemoved xs.length := by
  have ha : a.length = f.lengthInserted xs.length := (run_inserts_ok h1).1
  have hb := (run_replaces_ok h2).1
  have hc := (substituteAll_ok h3).1
  have hd := (run_reorders_ok h4).1
  have he := (run_removes_ok h5).1
  have hsubstituted : c.length = f.lengthSubstituted xs.length := by
    rw [lengthSubstituted]
    omega
  refine ⟨ha, hb, hsubstituted, hd, ?_⟩
  rw [lengthRemoved]
  omega

/-- Every index of a script lies in the list that is there when it has its turn, from a list of one
length to a list of another one. -/
structure Fits (f : FlatScript) (n left : Nat) : Prop where
  insertions : ∀ p ∈ f.insertions, p.1 < f.lengthInserted n
  replacements : ∀ p ∈ f.replacements, p.1 < f.lengthInserted n
  substitutions : ∀ p ∈ f.substitutions, p.1 < f.lengthInserted n
  reorders : ∀ r ∈ f.reorders, r.All (· < n)
  removals : ∀ i ∈ f.removals, i < f.lengthSubstituted n
  inlines : ∀ p ∈ f.inlines, p.1 < f.lengthRemoved n
  left : left + f.inlines.length + f.removals.length + f.substitutions.length = f.lengthInserted n

theorem fits_of_run (hf : f.Ordered) (h : f.run fresh retype xs = .ok ys) :
    f.Fits xs.length ys.length := by
  obtain ⟨a, b, c, d, e, h1, h2, h3, h4, h5, h6⟩ := exists_phases hf h
  obtain ⟨ha, hb, hc, hd, he⟩ := phase_lengths h1 h2 h3 h4 h5
  obtain ⟨-, hins, -⟩ := run_inserts_ok h1
  obtain ⟨-, hreps⟩ := run_replaces_ok h2
  obtain ⟨hsubstituted, hsubs, -⟩ := substituteAll_ok h3
  obtain ⟨-, hreorders⟩ := run_reorders_ok h4
  obtain ⟨hremoved, hrems⟩ := run_removes_ok h5
  obtain ⟨hinlined, hinls⟩ := run_inlines_ok h6
  exact {
    insertions := hins
    replacements := ha ▸ hreps
    substitutions := fun p hp => ha ▸ hb ▸ (hsubs p hp).1
    reorders := reorders_lt hf h1 hb h3 hreorders
    removals := hc ▸ hd ▸ hrems
    inlines := he ▸ hinls
    left := by omega }

/-- Where each of two scripts goes through on its own list, the two side by side go through on the
one list behind the other. -/
theorem run_beside (hf : f.Ordered) (hg : g.Ordered) (h : f.run fresh retype xs = .ok ys)
    (h' : g.run fresh retype xs' = .ok ys') :
    (f.beside g xs.length).run fresh retype (xs ++ xs') = .ok (ys ++ ys') := by
  have hfits := fits_of_run hf h
  obtain ⟨a, b, c, d, e, h1, h2, h3, h4, h5, h6⟩ := exists_phases hf h
  obtain ⟨a', b', c', d', e', h1', h2', h3', h4', h5', h6'⟩ := exists_phases hg h'
  obtain ⟨ha, hb, hc, hd, he⟩ := phase_lengths h1 h2 h3 h4 h5
  refine run_eq_ok_iff.2 ⟨a ++ a', b ++ b', c ++ c', d ++ d', e ++ e', ?_, ?_, ?_, ?_, ?_, ?_⟩
  · rw [ascendingByFirst_beside, insertions_beside hf hg hfits.insertions, ← ha]
    exact Script.run_front_first (fun _ => rfl) h1 h1'
  · change Script.run fresh retype (List.map _ (f.replacements ++ List.map _ _)) _ = _
    rw [← ha, ← hb]
    exact Script.run_front_first (fun _ => rfl) h2 h2'
  · rw [substitutions_beside hf hg hfits.substitutions]
    exact substituteAll_beside h3' h3 (by omega)
  · rw [settledReorders_beside hf hg h1 hb h3 hfits.reorders, ← hd]
    exact Script.run_front_first (Reorder.toEdit_offset _) h4 h4'
  · rw [removals_beside hf hg hfits.removals, ← hc, ← hd]
    exact Script.run_back_first (fun _ => rfl) h5 h5'
  · rw [inlines_beside hf hg hfits.inlines, ← he]
    exact Script.run_back_first (fun _ => rfl) h6 h6'

end FlatScript
end Reparam
