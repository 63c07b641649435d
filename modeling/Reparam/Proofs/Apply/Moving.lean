import Reparam.Proofs.Apply.Following
import Reparam.Proofs.Locals.Laid

/-! Where one change to a body takes the slots of its code and of its locals, whatever the body is. A
parameter that comes in or grows pushes slots up by no more than there are slots at all. -/
namespace Reparam

variable {a : Applier} {w : Widths} {p p' q : Progress} {s : Signature} {table : SlotTable}
  {entry : SlotEntry} {index target source generator slot d : Nat} {t : ValueType}
  {order : List Nat} {moves : List (Nat × Nat)}

namespace SlotTable

theorem width_le (h : ofSignature w s = .ok table) (ht : t ∈ s.types) : w t ≤ slotLimit := by
  obtain ⟨front, back, hsplit⟩ := List.append_of_mem ht
  have hlimit := (eq_of_ofSignature h).2
  rw [hsplit, totalWidth_append, totalWidth_cons] at hlimit
  omega

/-- Every parameter ends in reach. -/
theorem slot_add_le (h : ofSignature w s = .ok table) (he : table.entries[index]? = some entry) :
    ∃ t, entry.slot + w t ≤ slotLimit := by
  have hlt : index < s.types.length := entries_length h ▸ (List.getElem?_eq_some_iff.1 he).1
  obtain ⟨front, back, hsplit, rfl⟩ := exists_append_of_getElem? (List.getElem?_eq_getElem hlt)
  rw [entries_at h hsplit, Option.some.injEq] at he
  subst he
  have hlimit := (eq_of_ofSignature h).2
  rw [hsplit, totalWidth_append, totalWidth_cons] at hlimit
  refine ⟨s.types[front.length], ?_⟩
  dsimp only
  omega

end SlotTable

namespace Applier

/-- An insertion moves up what starts at the slot of the new parameter or behind it. -/
theorem insert_moves (h : a.insert p index t = .ok p') :
    ∃ new : Declaration, new.slot = p.table.insertionSlot index ∧ new.width = a.widths t ∧
      p'.body.code = p.body.code.remap (Snapshot.settled fun x => Snapshot.moveUp x new) ∧
      p'.body.places.Perm
        ((new.slot, t) :: p.body.places.map fun q => (Snapshot.moveUp q.1 new, q.2)) := by
  obtain ⟨declared, position, rfl, hslot, hposition, hbody, -⟩ := insert_eq_ok h
  refine ⟨declared.declaration a.widths, hslot, rfl, ?_, ?_⟩
  · rw [hbody]
    exact Snapshot.reconcile_added_code (Snapshot.declarations_insertIdx rfl hposition)
      fun i hi x hx _ => ⟨i, hi, hx⟩
  · rw [hbody]
    exact Snapshot.reconcile_added_places (Snapshot.declarations_insertIdx rfl hposition)

theorem width_of_insert (h : a.insert p index t = .ok p') : a.widths t ≤ slotLimit := by
  obtain ⟨declared, position, -, -, -, -, htable⟩ := insert_eq_ok h
  refine SlotTable.width_le htable ?_
  rw [Signature.types_insertIdx]
  refine (List.mem_insertIdx ?_).2 (.inl rfl)
  simpa [Signature.types, Parameter.types] using le_of_insert h

theorem width_of_replace (h : a.replace p index t = .ok p') : a.widths t ≤ slotLimit := by
  obtain ⟨entry, param, r, -, hparam, -, -, htable⟩ := replace_eq_ok h
  refine SlotTable.width_le htable ?_
  have hlt : index < p.body.signature.types.length := by
    simpa [Signature.types, Parameter.types] using (List.getElem?_eq_some_iff.1 hparam).1
  rw [Signature.types_set]
  exact List.mem_set hlt t

/-- A slot is moved to the start of a parameter, or stays. -/
theorem destination_cases (moves : List (Nat × Nat)) (slot : Nat) :
    destination moves slot = slot ∨ (slot, destination moves slot) ∈ moves := by
  unfold destination
  cases h : moves.reverse.lookup slot with
  | none => exact .inl rfl
  | some dest =>
    obtain ⟨front, back, hsplit, -⟩ := List.lookup_eq_some_iff.1 h
    exact .inr (List.mem_reverse.1 (by simp [hsplit]))

/-- A reordering moves slots to where parameters start, all of which have a place in reach. -/
theorem permute_moves (h : a.permute order p = .ok p') :
    p' = p ∨ ∃ f : Nat → Nat, p'.body.code = p.body.code.remap f ∧
      p'.body.places = p.body.places.map (fun q => (f q.1, q.2)) ∧
      ∀ x, f x = x ∨ ∃ t, f x + a.widths t ≤ slotLimit := by
  rcases permute_eq_ok h with ⟨-, rfl⟩ | ⟨hbody, htable⟩
  · exact .inl rfl
  · refine .inr ⟨destination (movedSlots p.table p'.table order), ?_, ?_, fun x => ?_⟩
    · rw [hbody]
      rfl
    · rw [hbody, Body.remapped_places]
      rfl
    · refine (destination_cases _ x).imp_right fun hmem => ?_
      obtain ⟨-, new, -, -, hdest, -⟩ := mem_movedSlots.1 hmem
      obtain ⟨entry, he, hslot⟩ := Option.map_eq_some_iff.1 hdest
      rw [← hslot]
      exact SlotTable.slot_add_le htable he

/-- Code is put in the place of what referred to an inlined parameter. -/
theorem inline_eq_expand (h : a.inline p index generator = .ok p') :
    ∃ q replacement, p.dropParameter a.widths index placeholderSlot = .ok q ∧
      (replacement = [] ∨ a.generators.generate? generator = some replacement) ∧
      p' = expand placeholderSlot replacement q := by
  unfold inline at h
  obtain ⟨entry, -, h⟩ := exists_of_bind h
  dsimp only at h
  split at h
  · cases h
  · split at h
    · cases h
    · rename_i replacement hreplacement
      obtain ⟨q, hq, h⟩ := exists_of_bind h
      cases h
      refine ⟨q, replacement, hq, ?_, rfl⟩
      split at hreplacement
      · cases hreplacement
        exact .inl rfl
      · exact .inr hreplacement

end Applier

/-- A parameter that is dropped moves down what lies behind it, once it is redirected to a reserved
slot. -/
theorem Progress.dropParameter_moves (hd : isReserved d = true)
    (h : p.dropParameter w index d = .ok p') :
    ∃ entry gone, p.table.entries[index]? = some entry ∧
      p'.body.code = (p.body.code.retarget entry.slot d).remap
        (Snapshot.settled fun x => Snapshot.moveDown x gone) ∧
      (∀ q ∈ p'.body.places, ∃ q' ∈ p.body.places, q.1 = Snapshot.moveDown q'.1 gone) ∧
      SlotTable.ofSignature w p'.body.signature = .ok p'.table := by
  obtain ⟨entry, i, l, hentry, hl, -, hbody, htable⟩ := dropParameter_eq_ok h
  refine ⟨entry, l.declaration w, hentry, ?_, fun q hq => ?_, ?_⟩
  · rw [hbody]
    refine Snapshot.reconcile_removed_code (Snapshot.declarations_eraseIdx rfl hl) fun i hi y hy hreserved => ?_
    obtain ⟨j, hj, x, hx, rfl⟩ := Code.exists_of_mem_remap hi hy
    refine ⟨j, hj, hx.trans (congrArg some ?_)⟩
    unfold Code.redirect at hreserved ⊢
    split at hreserved
    · rw [hd] at hreserved
      cases hreserved
    · rw [if_neg ‹_›]
  · rw [hbody, Snapshot.reconcile_removed_places (Snapshot.declarations_eraseIdx rfl hl)] at hq
    obtain ⟨q', hq', rfl⟩ := List.mem_map.1 hq
    obtain ⟨l', hl', rfl⟩ := List.mem_map.1 hq'
    exact ⟨_, List.mem_map_of_mem (List.mem_of_mem_eraseIdx hl'), rfl⟩
  · rw [hbody]
    exact htable

end Reparam
