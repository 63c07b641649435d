import Reparam.Proofs.Diff.Peeling

/-! Rearranging rounds between lists that are the same but for types that one side has alone. What is
peeled off is then all that there is to do. -/
namespace Reparam.Round

variable {reference target ps qs front back list other : List Placed} {x : Placed} {l : Peeled}

/-- Every type of the one list occurs in the other one. -/
def Known (list other : List Placed) : Prop := ∀ p ∈ list, p.type ∈ other.map (·.type)

instance (list other : List Placed) : Decidable (Known list other) :=
  inferInstanceAs (Decidable (∀ p ∈ list, p.type ∈ other.map (·.type)))

theorem known_of_types (h : ps.map (·.type) = qs.map (·.type)) : Known ps qs := by
  intro p hp
  rw [← h]
  exact List.mem_map_of_mem hp

theorem countType_eq_zero_iff {t : ValueType} :
    Rearrangement.countType t list = 0 ↔ t ∉ list.map (·.type) := by
  simp [Rearrangement.countType, List.countP_eq_zero]

theorem any_missing_iff :
    (list.any fun p => Rearrangement.countType p.type other = 0) = true ↔ ¬ Known list other := by
  simp [Known, countType_eq_zero_iff]

/-- Something is peeled off the list that knows the other one but is not known to it. -/
theorem peelBoth_eq_ite (reference target : List Placed) :
    peelBoth reference target =
      if Known reference target then
        if Known target reference then ⟨[], reference, [], target⟩
        else ⟨[], reference, (peel target reference).1, (peel target reference).2⟩
      else if Known target reference then
        ⟨(peel reference target).1, (peel reference target).2, [], target⟩
      else ⟨[], reference, [], target⟩ := by
  have hreference := @any_missing_iff reference target
  have htarget := @any_missing_iff target reference
  unfold peelBoth
  generalize (reference.any fun p => Rearrangement.countType p.type target = 0) = onlyReference
    at hreference
  generalize (target.any fun q => Rearrangement.countType q.type reference = 0) = onlyTarget
    at htarget
  by_cases hr : Known reference target <;> by_cases ht : Known target reference <;>
    cases onlyReference <;> cases onlyTarget <;> simp_all

/-- Of a list with one type of its own, the parameter of that type is peeled off. -/
theorem peel_stranger (hx : x.type ∉ (front ++ back).map (·.type))
    (hother : x.type ∉ other.map (·.type)) (h : Known (front ++ back) other) :
    peel (front ++ x :: back) other = ([x], front ++ back) := by
  have halone : Rearrangement.countType x.type (front ++ x :: back) = 1 := by
    have hnone := countType_eq_zero_iff.2 hx
    simp only [Rearrangement.countType, List.countP_append, List.countP_cons] at hnone ⊢
    simp only [decide_true, if_true]
    omega
  have hzero := countType_eq_zero_iff.2 hother
  rw [peel, List.partition_eq_filter_filter]
  generalize hf : (fun p : Placed => (Rearrangement.countType p.type (front ++ x :: back) = 1 &&
    Rearrangement.countType p.type other = 0 : Bool)) = f
  have hknown : ∀ p ∈ front ++ back, f p = false := by
    intro p hp
    have hsome := mt countType_eq_zero_iff.1 (not_not_intro (h p hp))
    simp [← hf, hsome]
  have hpeeled : f x = true := by simp [← hf, halone, hzero]
  have hrest : (front ++ back).filter (fun p => !f p) = front ++ back :=
    List.filter_eq_self.2 fun p hp => by rw [hknown p hp, Bool.not_false]
  have hnone : (front ++ back).filter f = [] :=
    List.filter_eq_nil_iff.2 fun p hp => by simp [hknown p hp]
  rw [List.filter_append, List.append_eq_nil_iff] at hnone
  rw [List.filter_append] at hrest
  simp [List.filter_append, Function.comp_def, hpeeled, hnone, hrest]

/-- Beginnings with the same types are trimmed off. -/
theorem trimFront_append {front front' : List Placed}
    (h : front.map (·.type) = front'.map (·.type)) (ps qs : List Placed) :
    trimFront (front ++ ps) (front' ++ qs) = trimFront ps qs := by
  induction front generalizing front' with
  | nil =>
    obtain rfl : front' = [] := List.map_eq_nil_iff.1 h.symm
    rfl
  | cons p front ih =>
    obtain _ | ⟨q, front'⟩ := front'
    · cases h
    obtain ⟨htype, hrest⟩ := List.cons.inj h
    have hsame : p.sameType q := by simpa [Placed.sameType] using htype
    rw [List.cons_append, List.cons_append, trimFront, if_pos hsame]
    exact ih hrest

theorem trimFront_of_types (h : ps.map (·.type) = qs.map (·.type)) :
    trimFront ps qs = ([], []) := by
  have htrim := trimFront_append h [] []
  rwa [List.append_nil, List.append_nil] at htrim

theorem trim_of_types (h : ps.map (·.type) = qs.map (·.type)) : trim ps qs = ([], []) := by
  simp only [trim, trimFront_of_types h]
  rfl

/-- If what is kept has the wanted types already, nothing is moved. -/
theorem rearrange_of_types (hl : peelBoth reference target = l)
    (h : l.kept.map (·.type) = l.wanted.map (·.type)) :
    rearrange? reference target = some ⟨l.removed.reverse.map (fun p => .remove p.ordinal) ++
      l.inserted.map fun q => .insertAt q.ordinal q.type, [], []⟩ := by
  have hperm : (l.kept.map (·.type)).isPerm (l.wanted.map (·.type)) := by
    rw [h]
    exact List.isPerm_iff.2 (.refl _)
  have hstages : l.stages = l.removed.reverse.map (fun p => .remove p.ordinal) ++
      l.inserted.map fun q => .insertAt q.ordinal q.type := by
    simp [Peeled.stages, trim_of_types h]
  simp only [rearrange?, hl, if_pos hperm, hstages]

theorem rearrange_same (h : ps.map (·.type) = qs.map (·.type)) :
    rearrange? ps qs = some ⟨[], [], []⟩ := by
  refine rearrange_of_types (l := ⟨[], ps, [], qs⟩) ?_ h
  rw [peelBoth_eq_ite, if_pos (known_of_types h), if_pos (known_of_types h.symm)]

section

variable (h : (front ++ back).map (·.type) = ps.map (·.type)) (hx : x.type ∉ ps.map (·.type))

include hx in
theorem not_known_stranger : ¬ Known (front ++ x :: back) ps :=
  fun hk => hx (hk x (by simp))

include h in
theorem known_beside_stranger : Known ps (front ++ x :: back) := by
  intro p hp
  have hmem : p.type ∈ (front ++ back).map (·.type) := h ▸ List.mem_map_of_mem hp
  rw [List.map_append, List.map_cons, List.mem_append, List.mem_cons]
  rw [List.map_append, List.mem_append] at hmem
  exact hmem.imp_right .inr

include h hx

theorem rearrange_insert_stranger :
    rearrange? ps (front ++ x :: back) = some ⟨[.insertAt x.ordinal x.type], [], []⟩ := by
  refine rearrange_of_types (l := ⟨[], ps, [x], front ++ back⟩) ?_ h.symm
  rw [peelBoth_eq_ite, if_pos (known_beside_stranger h), if_neg (not_known_stranger hx),
    peel_stranger (h ▸ hx) hx (known_of_types h)]

theorem rearrange_remove_stranger :
    rearrange? (front ++ x :: back) ps = some ⟨[.remove x.ordinal], [], []⟩ := by
  refine rearrange_of_types (l := ⟨[x], front ++ back, [], ps⟩) ?_ h
  rw [peelBoth_eq_ite, if_neg (not_known_stranger hx), if_pos (known_beside_stranger h),
    peel_stranger (h ▸ hx) hx (known_of_types h)]

end

end Reparam.Round
