import Reparam.Proofs.Apply.Sheltered
import Reparam.Proofs.Method.Control

/-! Removals and control. A parameter that is removed while live removals are refused is neither
read nor written on any path that control can take through the code as it is then. -/
namespace Reparam

variable {a : Applier} {p p' : Progress} {index : Nat} {entry : SlotEntry} {done rest : List Nat}

/-- A removal that goes well takes no parameter that control comes to. -/
theorem Applier.unused_of_remove (hreject : a.rejectLiveRemovals = true)
    (he : p.table.entries[index]? = some entry) (h : a.remove p index = .ok p') {k : Nat}
    {i : Instruction} (hk : p.body.code.Reaches k) (hi : p.body.code[k]? = some i) :
    i.slot? ≠ some entry.slot :=
  Code.not_mem_liveSlots_iff.1 (Applier.not_live_of_remove hreject he h) k i hi (hk.reachable hi)

/-- Removals come one after the other, each at what the ones before it leave. -/
theorem Applier.removeAll_split {indices : List Nat} (h : a.removeAll indices p = .ok p')
    (hsplit : descending indices = done ++ index :: rest) :
    ∃ q q', done.foldlM a.remove p = .ok q ∧ a.remove q index = .ok q' ∧
      rest.foldlM a.remove q' = .ok p' := by
  rw [removeAll, hsplit, List.foldlM_append] at h
  obtain ⟨q, hq, h⟩ := exists_of_bind h
  rw [List.foldlM_cons] at h
  obtain ⟨q', hq', h⟩ := exists_of_bind h
  exact ⟨q, q', hq, hq', h⟩

/-- Every position that control comes to counts as reachable. So when removals of live parameters are
refused and all removals go well, no instruction that control comes to when it is a parameter's turn
addresses the slot of that parameter. -/
theorem control_stays_in_reach :
    (∀ (code : Code) (k : Nat) (i : Instruction), code.Reaches k → code[k]? = some i →
      code.reachable[k]? = some true) ∧
    ∀ (a : Applier) (indices : List Nat) (p p' : Progress), a.rejectLiveRemovals = true →
      a.removeAll indices p = .ok p' →
        ∀ done index rest, descending indices = done ++ index :: rest →
          ∃ q q' entry, done.foldlM a.remove p = .ok q ∧ a.remove q index = .ok q' ∧
            rest.foldlM a.remove q' = .ok p' ∧ q.table.entries[index]? = some entry ∧
            ∀ (k : Nat) (i : Instruction), q.body.code.Reaches k → q.body.code[k]? = some i →
              i.slot? ≠ some entry.slot := by
  refine ⟨fun code k i hk hi => hk.reachable hi, ?_⟩
  intro a indices p p' hreject hp done index rest hsplit
  obtain ⟨q, q', hdone, hremove, hrest⟩ := Applier.removeAll_split hp hsplit
  obtain ⟨entry, -, -, he, -⟩ := Progress.dropParameter_eq_ok (Applier.remove_eq_ok hremove)
  refine ⟨q, q', entry, hdone, hremove, hrest, he, fun k i hk hi => ?_⟩
  exact Applier.unused_of_remove hreject he hremove hk hi

/-- Control skips the load of the parameter that is removed. -/
theorem control_stays_in_reach_on_skip :
    Applier.removeAll {} [0] ⟨skipper.body, ⟨0, [⟨0, 1⟩]⟩, {}⟩ =
        .ok ⟨skipped.body, {}, ⟨true, false, true, true⟩⟩ ∧
      ∀ (k : Nat) (i : Instruction), skipper.body.code.Reaches k →
        skipper.body.code[k]? = some i → i.slot? ≠ some 0 := by
  have hdescending : descending [0] = [0] := List.mergeSort_singleton ..
  have hremove : Applier.removeAll {} [0] ⟨skipper.body, ⟨0, [⟨0, 1⟩]⟩, {}⟩ =
      .ok ⟨skipped.body, {}, ⟨true, false, true, true⟩⟩ := by
    rw [Applier.removeAll_single, remove_skip]
  refine ⟨hremove, ?_⟩
  obtain ⟨q, q', entry, hdone, -, -, he, hunused⟩ :=
    control_stays_in_reach.2 {} [0] _ _ rfl hremove [] 0 [] hdescending
  cases hdone
  cases he
  exact hunused

end Reparam
