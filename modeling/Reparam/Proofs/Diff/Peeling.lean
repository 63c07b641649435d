import Reparam.Diff.Plan

/-! What a rearranging round takes off either list before it looks at the order of the rest. -/
namespace Reparam.Round

variable {reference target ps qs : List Placed}

theorem peel_eq (list other : List Placed) : ∃ f : Placed → Bool,
    peel list other = (list.filter f, list.filter fun p => !f p) := by
  refine ⟨fun p => Rearrangement.countType p.type list = 1 &&
    Rearrangement.countType p.type other = 0, ?_⟩
  rw [peel, List.partition_eq_filter_filter]
  rfl

/-- Each list is divided into what is peeled off and what is kept. -/
theorem peelBoth_eq (reference target : List Placed) : ∃ f g : Placed → Bool,
    peelBoth reference target = ⟨reference.filter f, reference.filter fun p => !f p,
      target.filter g, target.filter fun q => !g q⟩ := by
  have hall (list : List Placed) : list.filter (fun _ => true) = list :=
    List.filter_eq_self.2 fun _ _ => rfl
  obtain ⟨f, hf⟩ := peel_eq reference target
  obtain ⟨g, hg⟩ := peel_eq target reference
  unfold peelBoth
  by_cases hr : (reference.any fun p => Rearrangement.countType p.type target = 0) = true <;>
    by_cases ht : (target.any fun q => Rearrangement.countType q.type reference = 0) = true
  · exact ⟨fun _ => false, fun _ => false, by simp [hr, ht, hall]⟩
  · exact ⟨f, fun _ => false, by simp [hr, ht, hf, hall]⟩
  · exact ⟨fun _ => false, g, by simp [hr, ht, hg, hall]⟩
  · exact ⟨fun _ => false, fun _ => false, by simp [hr, ht, hall]⟩

theorem trimFront_eq (ps qs : List Placed) : ∃ a a' : List Placed,
    ps = a ++ (trimFront ps qs).1 ∧ qs = a' ++ (trimFront ps qs).2 ∧
      a.map (·.type) = a'.map (·.type) := by
  induction ps generalizing qs with
  | nil => exact ⟨[], [], rfl, rfl, rfl⟩
  | cons p ps ih =>
    cases qs with
    | nil => exact ⟨[], [], rfl, rfl, rfl⟩
    | cons q qs =>
      by_cases hsame : p.sameType q
      · obtain ⟨a, a', hps, hqs, htypes⟩ := ih qs
        have htype : p.type = q.type := by simpa [Placed.sameType] using hsame
        refine ⟨p :: a, q :: a', ?_, ?_, by simp [htype, htypes]⟩
        · rw [trimFront, if_pos hsame, List.cons_append, ← hps]
        · rw [trimFront, if_pos hsame, List.cons_append, ← hqs]
      · refine ⟨[], [], ?_, ?_, rfl⟩
        · rw [trimFront, if_neg hsame, List.nil_append]
        · rw [trimFront, if_neg hsame, List.nil_append]

/-- Trimming takes off beginnings and ends with the same types. -/
theorem trim_eq (ps qs : List Placed) : ∃ a a' b b' : List Placed,
    ps = a ++ (trim ps qs).1 ++ b ∧ qs = a' ++ (trim ps qs).2 ++ b' ∧
      a.map (·.type) = a'.map (·.type) ∧ b.map (·.type) = b'.map (·.type) := by
  obtain ⟨a, a', hps, hqs, htypes⟩ := trimFront_eq ps qs
  obtain ⟨b, b', hps', hqs', htypes'⟩ :=
    trimFront_eq (trimFront ps qs).1.reverse (trimFront ps qs).2.reverse
  refine ⟨a, a', b.reverse, b'.reverse, ?_, ?_, htypes, by simp [htypes']⟩
  · have hrest := congrArg List.reverse hps'
    rw [List.reverse_reverse, List.reverse_append] at hrest
    rw [List.append_assoc]
    exact hps.trans (congrArg (a ++ ·) hrest)
  · have hrest := congrArg List.reverse hqs'
    rw [List.reverse_reverse, List.reverse_append] at hrest
    rw [List.append_assoc]
    exact hqs.trans (congrArg (a' ++ ·) hrest)

theorem trim_sublist (ps qs : List Placed) :
    (trim ps qs).1.Sublist ps ∧ (trim ps qs).2.Sublist qs := by
  obtain ⟨a, a', b, b', hps, hqs, -⟩ := trim_eq ps qs
  exact ⟨List.IsInfix.sublist ⟨a, b, hps.symm⟩, List.IsInfix.sublist ⟨a', b', hqs.symm⟩⟩

theorem trim_perm (h : (ps.map (·.type)).Perm (qs.map (·.type))) :
    ((trim ps qs).1.map (·.type)).Perm ((trim ps qs).2.map (·.type)) := by
  obtain ⟨a, a', b, b', hps, hqs, ha, hb⟩ := trim_eq ps qs
  have hp : (ps.map (·.type)) = a.map (·.type) ++ ((trim ps qs).1.map (·.type) ++
      b.map (·.type)) := by
    rw [← List.map_append, ← List.map_append, ← List.append_assoc]
    exact congrArg _ hps
  have hq : (qs.map (·.type)) = a.map (·.type) ++ ((trim ps qs).2.map (·.type) ++
      b.map (·.type)) := by
    rw [ha, hb, ← List.map_append, ← List.map_append, ← List.append_assoc]
    exact congrArg _ hqs
  rw [hp, hq] at h
  exact (List.perm_append_right_iff _).1 ((List.perm_append_left_iff _).1 h)

/-- One parameter and no target can always be settled, so that a plan never gets stuck. -/
theorem rearrange_single (p : Placed) : rearrange? [p] [] ≠ none := by
  have hcount : Rearrangement.countType p.type [p] = 1 := by simp [Rearrangement.countType]
  have hnone : Rearrangement.countType p.type [] = 0 := rfl
  simp [rearrange?, peelBoth, peel, hcount, hnone, List.isPerm]

end Reparam.Round
