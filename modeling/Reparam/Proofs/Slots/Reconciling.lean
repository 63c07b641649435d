import Mathlib.Data.List.InsertIdx
import Mathlib.Data.List.Perm.Basic
import Reparam.Proofs.Edit.Located
import Reparam.Slots.Snapshot

/-! Reconciling a body when one local was taken out of its table or one was put in. Locals that
declare the same are told apart by nothing, so it may be another one of them that counts as new. -/
namespace Reparam

variable {α : Type} {w : Widths} {b b' : Body}

/-- The slot and the type of every local. -/
def Body.places (b : Body) : List (Nat × ValueType) := b.locals.map fun l => (l.slot, l.type)

theorem Code.mem_referencedSlots {code : Code} {slot : Nat} :
    slot ∈ code.referencedSlots ↔ (∃ i ∈ code, i.slot? = some slot) ∧ isReserved slot = false := by
  simp only [referencedSlots, List.mem_mergeSort, List.mem_eraseDups, List.mem_filter,
    List.mem_filterMap, Bool.not_eq_true']

/-- A local with its index, somewhere in a list, may go to the front. -/
theorem perm_cons_eraseIdx {xs : List α} {i : Nat} {x : α} (h : xs[i]? = some x) :
    xs.Perm (x :: xs.eraseIdx i) := by
  obtain ⟨hlt, rfl⟩ := List.getElem?_eq_some_iff.1 h
  exact (List.getElem_cons_eraseIdx_perm hlt).symm

/-- The declaration at another slot. -/
def Declaration.moved (f : Nat → Nat) (d : Declaration) : Declaration := { d with slot := f d.slot }

namespace Snapshot

variable {key : α → Declaration} {xs : List α} {extra missing pending : List Declaration}

theorem unmatched_sublist (key : α → Declaration) (xs : List α) (pending : List Declaration) :
    (unmatched key xs pending).Sublist xs := by
  induction xs generalizing pending with
  | nil => exact .slnil
  | cons x xs ih =>
    simp only [unmatched]
    split
    · exact (ih _).cons _
    · exact (ih _).cons_cons _

/-- What a list has beyond another one stays unmatched. -/
theorem unmatched_perm (h : (xs.map key).Perm (extra ++ pending)) :
    ((unmatched key xs pending).map key).Perm extra := by
  induction xs generalizing extra pending with
  | nil =>
    have hnil := h.symm.eq_nil
    rw [List.append_eq_nil_iff] at hnil
    rw [hnil.1]
    rfl
  | cons x xs ih =>
    simp only [unmatched]
    by_cases hx : key x ∈ pending
    · rw [if_pos hx]
      refine ih ((List.perm_cons (key x)).1 (h.trans ?_))
      exact ((List.perm_cons_erase hx).append_left extra).trans List.perm_middle
    · rw [if_neg hx, List.map_cons]
      have hextra : key x ∈ extra :=
        (List.mem_append.1 (h.subset List.mem_cons_self)).resolve_right hx
      have hsplit := List.perm_cons_erase hextra
      refine ((ih ?_).cons (key x)).trans hsplit.symm
      exact (List.perm_cons (key x)).1 (h.trans (hsplit.append_right pending))

theorem unmatched_eq_nil (h : (missing ++ xs.map key).Perm pending) :
    unmatched key xs pending = [] := by
  induction xs generalizing pending with
  | nil => rfl
  | cons x xs ih =>
    have hmid := List.perm_middle.symm.trans h
    have hx : key x ∈ pending := hmid.subset List.mem_cons_self
    rw [unmatched, if_pos hx]
    exact ih ((List.perm_cons (key x)).1 (hmid.trans (List.perm_cons_erase hx)))

def declarations (w : Widths) (b : Body) : List Declaration := b.locals.map (·.declaration w)

theorem declarations_insertIdx {l : Local} {i : Nat} (h : b'.locals = b.locals.insertIdx i l)
    (hi : i ≤ b.locals.length) :
    (declarations w b').Perm (l.declaration w :: declarations w b) := by
  rw [declarations, h]
  exact (List.perm_insertIdx l b.locals hi).map _

theorem declarations_eraseIdx {l : Local} {i : Nat} (h : b'.locals = b.locals.eraseIdx i)
    (hl : b.locals[i]? = some l) :
    (declarations w b).Perm (l.declaration w :: declarations w b') := by
  rw [declarations, declarations, h]
  exact (perm_cons_eraseIdx hl).map _

theorem take_locals_perm (w : Widths) (b : Body) :
    (take w b).locals.Perm (declarations w b) := List.mergeSort_perm _ _

theorem pairwise_mergeSort_slot (ds : List Declaration) :
    (ds.mergeSort fun d e => d.slot ≤ e.slot).Pairwise fun d e => d.slot ≤ e.slot :=
  pairwise_mergeSort_key (·.slot) ds

/-- Taking locals out removes their declarations, by slot, and adds none. -/
theorem changes_of_dropped {gone : List Declaration}
    (h : (declarations w b).Perm (gone ++ declarations w b')) :
    ∃ removed, (take w b).changes w b' = ⟨removed, []⟩ ∧ removed.Perm gone ∧
      removed.Pairwise fun d e => d.slot ≤ e.slot := by
  have hlocals := (take_locals_perm w b).trans h
  have hremoved := @unmatched_perm _ id (take w b).locals gone (declarations w b')
    (by simpa using hlocals)
  have hadded : unmatched Prod.fst (declarations w b').zipIdx (take w b).locals = [] := by
    refine @unmatched_eq_nil _ _ _ gone _ ?_
    rw [List.zipIdx_map_fst]
    exact hlocals.symm
  refine ⟨unmatched id (take w b).locals (declarations w b'), ?_, by simpa using hremoved,
    (pairwise_mergeSort_slot _).sublist (unmatched_sublist _ _ _)⟩
  rw [changes]
  change Changes.mk _ (List.mergeSort (unmatched Prod.fst (declarations w b').zipIdx _) _) = _
  rw [hadded, List.mergeSort_nil]
  rfl

/-- Taking a local out removes its declaration and adds none. -/
theorem changes_of_removed {gone : Declaration}
    (h : (declarations w b).Perm (gone :: declarations w b')) :
    (take w b).changes w b' = ⟨[gone], []⟩ := by
  obtain ⟨removed, hchanges, hperm, -⟩ := @changes_of_dropped _ _ _ [gone] h
  rw [hchanges, List.perm_singleton.1 hperm]

/-- Putting locals in adds their declarations and removes none. -/
theorem changes_of_put {new : List Declaration}
    (h : (declarations w b').Perm (new ++ declarations w b)) :
    let added := unmatched Prod.fst (declarations w b').zipIdx (take w b).locals
    (take w b).changes w b' = ⟨[], added.mergeSort fun d e => d.1.slot ≤ e.1.slot⟩ ∧
      (added.map Prod.fst).Perm new := by
  have hlocals := take_locals_perm w b
  have hremoved : unmatched id (take w b).locals (declarations w b') = [] := by
    refine @unmatched_eq_nil _ id _ new _ ?_
    rw [List.map_id]
    exact (hlocals.append_left new).trans h.symm
  refine ⟨?_, unmatched_perm (by
    rw [List.zipIdx_map_fst]
    exact h.trans (hlocals.symm.append_left new))⟩
  rw [changes]
  change Changes.mk (unmatched id _ (declarations w b')) _ = _
  rw [hremoved]
  rfl

/-- Putting a local in adds its declaration, at the index of a local that declares the same. -/
theorem changes_of_added {new : Declaration}
    (h : (declarations w b').Perm (new :: declarations w b)) :
    ∃ i, (take w b).changes w b' = ⟨[], [(new, i)]⟩ ∧ (declarations w b')[i]? = some new := by
  obtain ⟨hchanges, hadded⟩ := @changes_of_put _ _ _ [new] h
  obtain ⟨⟨d, i⟩, hone, hd⟩ : ∃ p, unmatched Prod.fst (declarations w b').zipIdx
      (take w b).locals = [p] ∧ p.1 = new := by
    rw [List.perm_singleton, List.map_eq_singleton_iff] at hadded
    exact hadded
  have hmem : (d, i) ∈ (declarations w b').zipIdx :=
    (unmatched_sublist _ _ _).subset (hone ▸ List.mem_singleton_self _)
  cases hd
  refine ⟨i, ?_, List.mem_zipIdx_iff_getElem?.1 hmem⟩
  rw [hchanges, hone, List.mergeSort_singleton]

/-- Where references go: reserved slots stay. -/
def settled (f : Nat → Nat) (slot : Nat) : Nat := if isReserved slot then slot else f slot

theorem remap_congr {f g : Nat → Nat} {code : Code}
    (h : ∀ i ∈ code, ∀ slot, i.slot? = some slot → f slot = g slot) : code.remap f = code.remap g := by
  refine List.map_congr_left fun i hi => ?_
  cases hs : i.slot? with
  | none => simp only [Instruction.mapSlot, hs]
  | some slot => simp only [Instruction.mapSlot, hs, h i hi slot hs]

/-- Every slot in reach that the code refers to was referred to when the snapshot was taken. -/
theorem remap_remapping {c : Changes} {code : Code}
    (h : ∀ i ∈ code, ∀ slot, i.slot? = some slot → isReserved slot = false →
      ∃ j ∈ b.code, j.slot? = some slot) :
    code.remap ((take w b).remapping c) = code.remap (settled (c.shift none)) := by
  refine remap_congr fun i hi slot hslot => ?_
  unfold remapping settled
  by_cases hr : isReserved slot
  · have hnot : slot ∉ (take w b).referenced := by
      intro hm
      simp [(Code.mem_referencedSlots.1 hm).2] at hr
    rw [if_neg hnot, if_pos hr]
  · have hr' : isReserved slot = false := by simpa using hr
    have hmem : slot ∈ (take w b).referenced :=
      Code.mem_referencedSlots.2 ⟨h i hi slot hslot hr', hr'⟩
    rw [if_pos hmem, if_neg hr]

theorem places_eq_declarations (w : Widths) (b : Body) :
    b.places = (declarations w b).map fun d => (d.slot, d.type) := by
  rw [declarations, List.map_map]
  rfl

theorem reconcile_removed_declarations {gone : Declaration}
    (h : (declarations w b).Perm (gone :: declarations w b')) :
    declarations w ((take w b).reconcile w b') =
      (declarations w b').map (·.moved fun slot => moveDown slot gone) := by
  simp only [reconcile, declarations, changes_of_removed h, List.map_map]
  conv_rhs => rw [← List.zipIdx_map_fst 0 b'.locals, List.map_map]
  rfl

theorem reconcile_removed_places {gone : Declaration}
    (h : (declarations w b).Perm (gone :: declarations w b')) :
    ((take w b).reconcile w b').places = b'.places.map fun q => (moveDown q.1 gone, q.2) := by
  rw [places_eq_declarations w, places_eq_declarations w, reconcile_removed_declarations h,
    List.map_map, List.map_map]
  rfl

theorem reconcile_removed_code {gone : Declaration}
    (h : (declarations w b).Perm (gone :: declarations w b'))
    (hc : ∀ i ∈ b'.code, ∀ slot, i.slot? = some slot → isReserved slot = false →
      ∃ j ∈ b.code, j.slot? = some slot) :
    ((take w b).reconcile w b').code = b'.code.remap (settled fun slot => moveDown slot gone) := by
  simp only [reconcile, remap_remapping hc, changes_of_removed h]
  rfl

/-- The new local stays where it was declared. -/
theorem reconcile_added_declarations {new : Declaration}
    (h : (declarations w b').Perm (new :: declarations w b)) :
    (declarations w ((take w b).reconcile w b')).Perm
      (new :: (declarations w b).map (·.moved fun slot => moveUp slot new)) := by
  obtain ⟨i, hc, hi⟩ := changes_of_added h
  simp only [declarations, List.getElem?_map, Option.map_eq_some_iff] at hi
  obtain ⟨l, hl, rfl⟩ := hi
  obtain ⟨pre, post, hsplit, hpre⟩ := exists_append_of_getElem? hl
  -- whichever local counts as new, the others are the ones that were there before
  have hothers : (pre.map (·.declaration w) ++ post.map (·.declaration w)).Perm
      (declarations w b) := by
    rw [declarations, hsplit, List.map_append, List.map_cons] at h
    exact (List.perm_cons _).1 (List.perm_middle.symm.trans h)
  have moved (xs : List Local) (k : Nat) (hk : ∀ j, k ≤ j → j < k + xs.length → i ≠ j) :
      (xs.zipIdx k).map (fun p => (p.1.declaration w).moved
          (((take w b).changes w b').shift (some p.2))) =
        (xs.map (·.declaration w)).map
          (·.moved fun slot => moveUp slot (l.declaration w)) := by
    conv_rhs => rw [← List.zipIdx_map_fst k xs, List.map_map, List.map_map]
    refine List.map_congr_left fun p hp => ?_
    have hbound := List.mem_zipIdx hp
    simp [hc, Changes.shift, Declaration.moved, hk p.2 hbound.1 hbound.2.1]
  have hself : (l.declaration w).moved (((take w b).changes w b').shift (some i)) =
      l.declaration w := by
    simp [hc, Changes.shift, Declaration.moved]
  have hsplit' : declarations w ((take w b).reconcile w b') =
      (pre.map (·.declaration w)).map (·.moved fun slot => moveUp slot (l.declaration w)) ++
        l.declaration w ::
        (post.map (·.declaration w)).map
          (·.moved fun slot => moveUp slot (l.declaration w)) := by
    rw [← moved pre 0 (by omega), ← moved post (i + 1) (by omega)]
    conv_rhs => rw [← hself]
    simp only [reconcile, declarations, List.map_map, hsplit, List.zipIdx_append, List.map_append,
      List.zipIdx_cons, List.map_cons, Nat.zero_add, hpre]
    rfl
  rw [hsplit']
  refine List.perm_middle.trans (.cons _ ?_)
  rw [← List.map_append]
  exact hothers.map _

theorem reconcile_added_places {new : Declaration}
    (h : (declarations w b').Perm (new :: declarations w b)) :
    ((take w b).reconcile w b').places.Perm
      ((new.slot, new.type) :: b.places.map fun q => (moveUp q.1 new, q.2)) := by
  rw [places_eq_declarations w, places_eq_declarations w]
  refine ((reconcile_added_declarations h).map _).trans (.of_eq ?_)
  rw [List.map_cons, List.map_map, List.map_map]
  rfl

theorem reconcile_added_code {new : Declaration}
    (h : (declarations w b').Perm (new :: declarations w b))
    (hc : ∀ i ∈ b'.code, ∀ slot, i.slot? = some slot → isReserved slot = false →
      ∃ j ∈ b.code, j.slot? = some slot) :
    ((take w b).reconcile w b').code = b'.code.remap (settled fun slot => moveUp slot new) := by
  obtain ⟨i, hi, -⟩ := changes_of_added h
  simp only [reconcile, remap_remapping hc, hi]
  rfl

end Snapshot

end Reparam
