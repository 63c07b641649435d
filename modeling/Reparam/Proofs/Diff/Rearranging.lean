import Mathlib.Data.List.Perm.Basic
import Reparam.Proofs.Diff.Drafting

/-! A rearrangement always finds its moves when both spans have the same types, and the moves bring
the one span into the order of the other. -/
namespace Reparam

open Rearrangement

variable {types : List ValueType} {d : Draft} {items : List Item} {pre post : List Item}
  {reference target span span' before behind : List Placed} {shifts more : List Shift}
  {moves : List (Placed × Nat)} {p q : Placed}

/-- The moves take one span to another one, each by what it finds at the places it names. -/
inductive Leads : List Shift → List Placed → List Placed → Prop where
  | nil (span : List Placed) : Leads [] span span
  | cons {source dest : Nat} {span span' : List Placed} {moved place : Placed}
    {shifts : List Shift} (hs : span[source]? = some moved) (hd : span[dest]? = some place)
    (h : Leads shifts (relocate span source dest) span') :
    Leads (⟨moved.ordinal, place.ordinal⟩ :: shifts) span span'

namespace Leads

theorem perm (h : Leads shifts span span') : span'.Perm span := by
  induction h with
  | nil => exact .refl _
  | cons hs hd _ ih => exact ih.trans (relocate_perm (List.getElem?_eq_some_iff.1 hd).1)

theorem append (h : Leads shifts span span') (h' : Leads more span' reference) :
    Leads (shifts ++ more) span reference := by
  induction h with
  | nil => exact h'
  | cons hs hd _ ih => exact .cons hs hd (ih h')

theorem frame (before : List Placed) (h : Leads shifts span span') :
    Leads shifts (before ++ span) (before ++ span') := by
  induction h with
  | nil span => exact .nil _
  | @cons source dest span span' moved place shifts hs hd _ ih =>
    have hsource := (List.getElem?_eq_some_iff.1 hs).1
    have hdest := (List.getElem?_eq_some_iff.1 hd).1
    have hrelocate := relocate_frame before [] hsource hdest
    have hs' := getElem?_frame before [] hsource
    have hd' := getElem?_frame before [] hdest
    rw [List.append_nil] at hrelocate hs' hd'
    refine .cons (hs'.trans hs) (hd'.trans hd) ?_
    rw [hrelocate, List.append_nil]
    exact ih

/-- The moves name parameters of the span only. -/
theorem named (h : Leads shifts span span') :
    ∀ s ∈ shifts, s.moved ∈ span.map (·.ordinal) ∧ s.place ∈ span.map (·.ordinal) := by
  induction h with
  | nil =>
    intro s hs
    cases hs
  | @cons source dest span _ _ _ _ hs hd _ ih =>
    intro s hmem
    rcases List.mem_cons.1 hmem with rfl | hmem
    · exact ⟨List.mem_map_of_mem (List.mem_of_getElem? hs),
        List.mem_map_of_mem (List.mem_of_getElem? hd)⟩
    · have hlt := (List.getElem?_eq_some_iff.1 hd).1
      have hperm := (@relocate_perm _ span source dest hlt).map (·.ordinal)
      exact ⟨hperm.subset (ih s hmem).1, hperm.subset (ih s hmem).2⟩

end Leads

theorem relocate_to_front (before behind : List Placed) (p : Placed) :
    relocate (before ++ p :: behind) before.length 0 = p :: (before ++ behind) := by
  simp [relocate, List.eraseIdx_append_of_length_le]

theorem placeUnique_leads (hm : ∀ m ∈ moves, m.2 < span.length) :
    ∃ shifts span', placeUnique target moves span = .ok (shifts, span') ∧
      Leads shifts span span' := by
  induction moves generalizing span with
  | nil => exact ⟨[], span, rfl, .nil span⟩
  | cons m moves ih =>
    obtain ⟨p, dest⟩ := m
    have hdest : dest < span.length := hm _ List.mem_cons_self
    have hm' : ∀ m ∈ moves, m.2 < span.length := fun m h => hm m (List.mem_cons_of_mem _ h)
    rw [placeUnique]
    by_cases haligned : aligned span target
    · rw [if_pos haligned]
      exact ⟨[], span, rfl, .nil span⟩
    · rw [if_neg haligned]
      cases hfind : span.findIdx? (·.ordinal = p.ordinal) with
      | none => exact ih hm'
      | some source =>
        have hsource := (List.findIdx?_eq_some_iff_getElem.1 hfind).1
        by_cases heq : source = dest
        · simp only [if_pos heq]
          exact ih hm'
        · have hlen := relocate_length hsource hdest
          obtain ⟨shifts, span', hplace, hleads⟩ := @ih (relocate span source dest)
            (fun m h => by rw [hlen]; exact hm' m h)
          refine ⟨⟨span[source].ordinal, span[dest].ordinal⟩ :: shifts, span', ?_, ?_⟩
          · simp only [if_neg heq, List.getElem?_eq_getElem hsource,
              List.getElem?_eq_getElem hdest, hplace]
          · exact .cons (List.getElem?_eq_getElem hsource) (List.getElem?_eq_getElem hdest) hleads

theorem settle_leads (h : (span.map (·.type)).Perm (target.map (·.type))) :
    ∃ shifts span', settle span target = .ok shifts ∧ Leads shifts span span' ∧
      span'.map (·.type) = target.map (·.type) := by
  induction target generalizing span with
  | nil =>
    obtain rfl : span = [] := by simpa using h.length_eq
    exact ⟨[], [], rfl, .nil [], rfl⟩
  | cons wanted target ih =>
    obtain _ | ⟨p, span⟩ := span
    · exact absurd h.length_eq (by simp)
    by_cases hsame : p.sameType wanted
    · have htype : p.type = wanted.type := by simpa [Placed.sameType] using hsame
      rw [List.map_cons, List.map_cons, htype] at h
      obtain ⟨shifts, span', hsettle, hleads, htypes⟩ := ih ((List.perm_cons _).1 h)
      refine ⟨shifts, p :: span', ?_, hleads.frame [p], by simp [htype, htypes]⟩
      rw [settle, if_pos hsame, hsettle]
    · have hne : p.type ≠ wanted.type := by simpa [Placed.sameType] using hsame
      have hmem : wanted.type ∈ span.map (·.type) := by
        have hmem := h.symm.subset List.mem_cons_self
        exact (List.mem_cons.1 hmem).resolve_left (Ne.symm hne)
      obtain ⟨q, hq, hqt⟩ := List.mem_map.1 hmem
      obtain ⟨moved, before, behind, hbefore, hmoved, hspan, herase⟩ :=
        List.exists_of_eraseP hq (p := (·.sameType wanted)) (by simp [Placed.sameType, hqt])
      have hfind : span.find? (·.sameType wanted) = some moved := by
        rw [List.find?_eq_some_iff_append]
        refine ⟨hmoved, before, behind, hspan, fun q hq => ?_⟩
        simpa using hbefore q hq
      have htype : moved.type = wanted.type := by simpa [Placed.sameType] using hmoved
      have hperm : ((p :: span.eraseP (·.sameType wanted)).map (·.type)).Perm
          (target.map (·.type)) := by
        refine (List.perm_cons wanted.type).1 (.trans ?_ h)
        rw [herase, hspan]
        simp only [List.map_cons, List.map_append, htype]
        exact (List.Perm.swap ..).trans (List.perm_middle.symm.cons _)
      obtain ⟨shifts, span', hsettle, hleads, htypes⟩ := ih hperm
      refine ⟨⟨moved.ordinal, p.ordinal⟩ :: shifts, moved :: span', ?_, ?_, by simp [htype, htypes]⟩
      · rw [settle, if_neg hsame, hfind]
        simp only [hsettle]
      · have hsplit : p :: span = (p :: before) ++ moved :: behind := by rw [hspan]; rfl
        refine @Leads.cons (p :: before).length 0 _ _ _ _ _ ?_ rfl ?_
        · rw [hsplit, List.getElem?_append_right (Nat.le_refl _), Nat.sub_self]
          rfl
        · rw [hsplit, relocate_to_front]
          rw [herase] at hleads
          exact hleads.frame [moved]

theorem types_eq_of_aligned (h : aligned span target) (hl : span.length = target.length) :
    span.map (·.type) = target.map (·.type) := by
  induction span generalizing target with
  | nil =>
    obtain rfl : target = [] := List.length_eq_zero_iff.1 hl.symm
    rfl
  | cons p span ih =>
    obtain _ | ⟨q, target⟩ := target
    · cases hl
    have hboth : p.sameType q ∧ aligned span target := by
      simpa [aligned] using h
    have htype : p.type = q.type := by simpa [Placed.sameType] using hboth.1
    rw [List.map_cons, List.map_cons, htype, ih hboth.2 (Nat.succ.inj hl)]

theorem uniqueMoves_lt : ∀ m ∈ uniqueMoves reference target, m.2 < target.length := by
  intro m hm
  obtain ⟨p, -, hp⟩ := List.mem_filterMap.1 ((List.mergeSort_perm ..).subset hm)
  obtain ⟨index, hindex, rfl⟩ := Option.map_eq_some_iff.1 hp
  exact (List.findIdx?_eq_some_iff_getElem.1 hindex).1

/-- Spans with the same types can be rearranged. -/
theorem rearrangement_leads (h : (reference.map (·.type)).Perm (target.map (·.type))) :
    ∃ r span, rearrangement reference target = .ok r ∧ Leads r.shifts reference span ∧
      span.map (·.type) = target.map (·.type) := by
  have hlen : reference.length = target.length := by simpa using h.length_eq
  obtain ⟨shifts, span, hplace, hleads⟩ := @placeUnique_leads target reference
    (uniqueMoves reference target) (fun m hm => by rw [hlen]; exact uniqueMoves_lt m hm)
  by_cases haligned : aligned span target
  · refine ⟨⟨shifts, false⟩, span, ?_, hleads, ?_⟩
    · simp only [rearrangement, hplace, if_pos haligned]
    · exact types_eq_of_aligned haligned (hleads.perm.length_eq.trans hlen)
  · obtain ⟨more, span', hsettle, hmore, htypes⟩ := settle_leads ((hleads.perm.map _).trans h)
    refine ⟨⟨shifts ++ more, true⟩, span', ?_, hleads.append hmore, htypes⟩
    simp only [rearrangement, hplace, if_neg haligned, hsettle]

namespace Draft.Shows

theorem shift (h : d.Shows types items) {s : Shift} (hs : s.moved ∈ present items)
    (hd : s.place ∈ present items) :
    ∃ items', Gives types (d.shift s) items' ∧ items'.Perm items := by
  obtain ⟨front, z, back, rfl, hz⟩ := exists_append_of_mem_present hs
  have hsource := h.position hz
  obtain ⟨front', z', back', hsplit, hz'⟩ := exists_append_of_mem_present hd
  have hshows := h
  rw [hsplit] at hshows
  have hdest := hshows.position hz'
  have hlt : front'.length < (front ++ z :: back).length := by simp [hsplit]
  refine ⟨_, ?_, @relocate_perm _ _ front.length _ hlt⟩
  simp only [Draft.shift, hsource, hdest]
  exact h.reorder_within (by simp) hlt

/-- Moves of parameters that are there only change the order. -/
theorem shift_all (h : d.Shows types items)
    (hs : ∀ s ∈ shifts, s.moved ∈ present items ∧ s.place ∈ present items) :
    ∃ items', Gives types (shifts.foldlM Draft.shift d) items' ∧ items'.Perm items := by
  induction shifts generalizing d items with
  | nil => exact ⟨items, ⟨d, rfl, h⟩, .refl _⟩
  | cons s shifts ih =>
    have hhead := hs s List.mem_cons_self
    obtain ⟨items₁, ⟨d₁, hd₁, hshows⟩, hperm⟩ := h.shift hhead.1 hhead.2
    have hpresent := (present_perm hperm).symm
    obtain ⟨items₂, hgives, hperm₂⟩ := ih hshows fun s hmem =>
      ⟨hpresent.subset (hs s (List.mem_cons_of_mem _ hmem)).1,
        hpresent.subset (hs s (List.mem_cons_of_mem _ hmem)).2⟩
    refine ⟨items₂, ?_, hperm₂.trans hperm⟩
    rw [List.foldlM_cons, hd₁]
    exact hgives

theorem shift_leads (h : d.Shows types (pre ++ span.map Placed.item ++ post))
    (hl : Leads shifts span span') :
    Gives types (shifts.foldlM Draft.shift d) (pre ++ span'.map Placed.item ++ post) := by
  induction hl generalizing d with
  | nil => exact ⟨d, rfl, h⟩
  | @cons source dest span span' moved place shifts hs hd _ ih =>
    have hsource := (List.getElem?_eq_some_iff.1 hs).1
    have hdest := (List.getElem?_eq_some_iff.1 hd).1
    have hlt : source < (span.map Placed.item).length := by simpa
    have hlt' : dest < (span.map Placed.item).length := by simpa
    have hposition : d.position moved.ordinal = .ok (source + pre.length) := by
      refine h.position_of_getElem? (z := moved.item) ?_ rfl
      rw [getElem?_frame pre post hlt, List.getElem?_map, hs]
      rfl
    have hposition' : d.position place.ordinal = .ok (dest + pre.length) := by
      refine h.position_of_getElem? (z := place.item) ?_ rfl
      rw [getElem?_frame pre post hlt', List.getElem?_map, hd]
      rfl
    have hgives : Gives types (d.reorder (source + pre.length) (dest + pre.length)) _ :=
      h.reorder_within (by simp; omega) (by simp; omega)
    rw [relocate_frame pre post hlt hlt', relocate_map] at hgives
    rw [List.foldlM_cons]
    refine Gives.bind ?_ fun d hd => ih hd
    simp only [Draft.shift, hposition, hposition']
    exact hgives

theorem rearrange (h : d.Shows types (pre ++ reference.map Placed.item ++ post))
    (hp : (reference.map (·.type)).Perm (target.map (·.type))) :
    ∃ span : List Placed, Gives types (d.perform (.rearrange reference target))
      (pre ++ span.map Placed.item ++ post) ∧ span.map (·.type) = target.map (·.type) := by
  obtain ⟨r, span, hr, hleads, htypes⟩ := rearrangement_leads hp
  refine ⟨span, ?_, htypes⟩
  simp only [Draft.perform, Draft.rearrange, hr]
  exact h.shift_leads hleads

/-- Parameters are rearranged wherever they are. -/
theorem rearrange_present (h : d.Shows types items)
    (hp : (reference.map (·.type)).Perm (target.map (·.type)))
    (hm : ∀ p ∈ reference, p.ordinal ∈ present items) :
    ∃ items', Gives types (d.perform (.rearrange reference target)) items' ∧
      items'.Perm items := by
  obtain ⟨r, span, hr, hleads, -⟩ := rearrangement_leads hp
  have hordinal : ∀ o ∈ reference.map (·.ordinal), o ∈ present items := by
    intro o ho
    obtain ⟨p, hpm, rfl⟩ := List.mem_map.1 ho
    exact hm p hpm
  simp only [Draft.perform, Draft.rearrange, hr]
  exact h.shift_all fun s hs => ⟨hordinal _ (hleads.named s hs).1, hordinal _ (hleads.named s hs).2⟩

end Draft.Shows
end Reparam
