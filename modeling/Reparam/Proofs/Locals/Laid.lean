import Mathlib.Algebra.GroupWithZero.Nat
import Reparam.Proofs.Apply.Row
import Reparam.Proofs.Slots.Reconciling

/-! The types of a signature whose parameters change, where a table puts the parameters, and locals
that are laid out in the same way. -/
namespace Reparam

variable {w : Widths} {s : Signature} {table : SlotTable} {types front back : List ValueType}
  {t : ValueType} {next next' : Nat} {f : Nat → Nat} {d : Declaration}

namespace Signature

variable {index : Nat} {param : Parameter}

theorem types_insertIdx (s : Signature) (index : Nat) (param : Parameter) :
    Signature.types { s with params := s.params.insertIdx index param } =
      s.types.insertIdx index param.type := List.map_insertIdx ..

theorem types_eraseIdx (s : Signature) (index : Nat) :
    Signature.types { s with params := s.params.eraseIdx index } = s.types.eraseIdx index :=
  (List.eraseIdx_map ..).symm

theorem types_set (s : Signature) (index : Nat) (param : Parameter) :
    Signature.types { s with params := s.params.set index param } = s.types.set index param.type :=
  List.map_set ..

theorem types_filterMap {s : Signature} {order : List Nat}
    (h : order.map (s.types[·]?) = types.map some) :
    Signature.types { s with params := order.filterMap (s.params[·]?) } = types := by
  have hplaces := congrArg (List.filterMap id) h
  simp only [List.filterMap_map, Function.comp_def, id, List.filterMap_some] at hplaces
  simp only [Signature.types, Parameter.types, List.map_filterMap]
  rw [← hplaces]
  simp [Signature.types, Parameter.types]

end Signature

/-- The slots that parameters of these types take together. -/
def totalWidth (w : Widths) (types : List ValueType) : Nat := (types.map w).sum

@[simp] theorem totalWidth_nil (w : Widths) : totalWidth w [] = 0 := rfl

@[simp] theorem totalWidth_cons (w : Widths) (t : ValueType) (types : List ValueType) :
    totalWidth w (t :: types) = w t + totalWidth w types := rfl

@[simp] theorem totalWidth_append (w : Widths) (front back : List ValueType) :
    totalWidth w (front ++ back) = totalWidth w front + totalWidth w back := by
  simp [totalWidth]

namespace Row

theorem extent_eq_totalWidth (row : Row) : extent w row = totalWidth w row.types := by
  induction row with
  | nil => rfl
  | cons q row ih =>
    rw [extent_cons, ih]
    rfl

/-- A row of parameters whose origins do not matter. -/
def ofBare (types : List ValueType) : Row := types.map fun t => (.inserted 0, t)

@[simp] theorem types_ofBare (types : List ValueType) : (ofBare types).types = types := by
  simp [ofBare, Row.types, Function.comp_def]

theorem extent_ofBare (types : List ValueType) : extent w (ofBare types) = totalWidth w types := by
  rw [extent_eq_totalWidth, types_ofBare]

end Row

theorem totalWidth_perm {types' : List ValueType} (h : types.Perm types') :
    totalWidth w types = totalWidth w types' := by
  rw [← Row.extent_ofBare, ← Row.extent_ofBare]
  exact Row.extent_perm (h.map _)

namespace SlotTable

theorem eq_of_ofSignature (h : ofSignature w s = .ok table) :
    table = (Row.ofBare s.types).table w s.receiverSlots ∧
      s.receiverSlots + totalWidth w s.types ≤ slotLimit := by
  rw [← Row.extent_ofBare]
  exact Row.ofSignature_eq_ok (Row.types_ofBare _).symm h

/-- Parameters in reach have a table. -/
theorem exists_ofSignature (h : s.receiverSlots + totalWidth w s.types ≤ slotLimit) :
    ∃ table, ofSignature w s = .ok table := by
  rw [← Row.extent_ofBare] at h
  exact ⟨_, Row.ofSignature_of_le (Row.types_ofBare _).symm h⟩

theorem lt_of_ofSignature_error {shortage : SlotShortage} (h : ofSignature w s = .error shortage) :
    slotLimit < s.receiverSlots + totalWidth w s.types := by
  by_contra hle
  obtain ⟨table, htable⟩ := exists_ofSignature (Nat.le_of_not_lt hle)
  rw [htable] at h
  cases h

theorem receiver_eq (h : ofSignature w s = .ok table) : table.receiver = s.receiverSlots := by
  rw [(eq_of_ofSignature h).1]
  rfl

theorem nextFree_eq (h : ofSignature w s = .ok table) :
    table.nextFree = s.receiverSlots + totalWidth w s.types := by
  rw [(eq_of_ofSignature h).1, Row.nextFree_table, Row.extent_ofBare]

theorem entries_length (h : ofSignature w s = .ok table) :
    table.entries.length = s.types.length := by
  rw [(eq_of_ofSignature h).1, Row.table, Row.entries_length, Row.ofBare, List.length_map]

theorem entries_at (h : ofSignature w s = .ok table) (hs : s.types = front ++ t :: back) :
    table.entries[front.length]? = some ⟨s.receiverSlots + totalWidth w front, w t⟩ := by
  have hat := Row.entries_getElem w s.receiverSlots (Row.ofBare front) (Row.ofBare back)
    (.inserted 0, t)
  rw [Row.extent_ofBare] at hat
  rw [(eq_of_ofSignature h).1, hs]
  simpa [Row.table, Row.ofBare] using hat

theorem insertionSlot_at (h : ofSignature w s = .ok table) (hs : s.types = front ++ back) :
    table.insertionSlot front.length = s.receiverSlots + totalWidth w front := by
  have hat := Row.insertionSlot_table w s.receiverSlots (Row.ofBare front) (Row.ofBare back)
  rw [Row.extent_ofBare] at hat
  rw [(eq_of_ofSignature h).1, hs]
  simpa [Row.ofBare] using hat

variable {param : Parameter} {index slot : Nat}

/-- Parameters that are as wide as others are laid out like them. -/
theorem layout_congr {types types' : List ValueType} (h : types.map w = types'.map w)
    (next : Nat) : layout w next types = layout w next types' := by
  induction types generalizing types' next with
  | nil =>
    rw [List.map_nil, eq_comm, List.map_eq_nil_iff] at h
    rw [h]
  | cons t types ih =>
    obtain _ | ⟨t', types'⟩ := types'
    · cases h
    obtain ⟨hwidth, hrest⟩ := List.cons.inj h
    simp only [layout, hwidth, ih hrest]

/-- The table stays as it is if a parameter gets a type of the same width. -/
theorem ofSignature_set (hparam : s.params[index]? = some param) (hwidth : w t = w param.type) :
    ofSignature w { s with params := s.params.set index { param with type := t } } =
      ofSignature w s := by
  obtain ⟨front, back, hsplit, rfl⟩ := exists_append_of_getElem? hparam
  have hwidths : (Signature.types { s with
      params := s.params.set front.length { param with type := t } }).map w = s.types.map w := by
    simp [Signature.types, Parameter.types, hsplit, hwidth]
  have hlayout := layout_congr hwidths s.receiverSlots
  simp only [ofSignature, ofTypes, ← hlayout]
  rfl

/-- A parameter is as wide as its type. -/
theorem entry_of_slotOf (h : ofSignature w s = .ok table) (hparam : s.params[index]? = some param)
    (hslot : table.slotOf? index = some slot) :
    table.entries[index]? = some ⟨slot, w param.type⟩ := by
  obtain ⟨front, back, hsplit, rfl⟩ := exists_append_of_getElem? hparam
  have htypes : s.types = front.map (·.type) ++ param.type :: back.map (·.type) := by
    rw [Signature.types, Parameter.types, hsplit, List.map_append, List.map_cons]
  have hentry := entries_at h htypes
  rw [List.length_map] at hentry
  rw [slotOf?, hentry] at hslot
  cases hslot
  exact hentry

end SlotTable

/-! Named parameters, laid out one behind the other. -/

variable {params before after : List (ValueType × String)} {q : ValueType × String}

/-- The slots that named parameters take together. -/
def span (w : Widths) (params : List (ValueType × String)) : Nat :=
  totalWidth w (params.map (·.1))

/-- The locals of parameters that start at a slot. -/
def laid (w : Widths) : Nat → List (ValueType × String) → List Declaration
  | _, [] => []
  | next, (t, name) :: rest => ⟨name, t, next, w t⟩ :: laid w (next + w t) rest

@[simp] theorem span_nil (w : Widths) : span w [] = 0 := rfl

@[simp] theorem span_cons (w : Widths) (q : ValueType × String)
    (params : List (ValueType × String)) : span w (q :: params) = w q.1 + span w params := rfl

@[simp] theorem span_append (w : Widths) (before after : List (ValueType × String)) :
    span w (before ++ after) = span w before + span w after := by
  simp [span]

theorem laid_append (w : Widths) (next : Nat) (before after : List (ValueType × String)) :
    laid w next (before ++ after) = laid w next before ++ laid w (next + span w before) after := by
  induction before generalizing next with
  | nil => rfl
  | cons q before ih => simp only [List.cons_append, laid, ih, span_cons, Nat.add_assoc]

theorem laid_middle (w : Widths) (next : Nat) (before after : List (ValueType × String))
    (q : ValueType × String) : laid w next (before ++ q :: after) = laid w next before ++
      ⟨q.2, q.1, next + span w before, w q.1⟩ :: laid w (next + span w before + w q.1) after :=
  laid_append ..

@[simp] theorem laid_length (w : Widths) (next : Nat) (params : List (ValueType × String)) :
    (laid w next params).length = params.length := by
  induction params generalizing next with
  | nil => rfl
  | cons q params ih => simp [laid, ih]

theorem laid_getElem (w : Widths) (next k : Nat) (params : List (ValueType × String)) :
    (laid w next params)[k]? =
      (params[k]?).map fun q => ⟨q.2, q.1, next + span w (params.take k), w q.1⟩ := by
  induction params generalizing next k with
  | nil => rfl
  | cons q params ih =>
    cases k with
    | zero => rfl
    | succ k => simp only [laid, List.getElem?_cons_succ, ih, List.take_succ_cons, span_cons,
        Nat.add_assoc]

/-- No two parameters start at one slot. -/
theorem span_take_lt (hw : ∀ t, 0 < w t) {j k : Nat} (hj : j < k) (hk : k ≤ params.length) :
    span w (params.take j) < span w (params.take k) := by
  obtain ⟨m, rfl⟩ := Nat.exists_eq_add_of_lt hj
  have hlt : j < params.length := by omega
  have := hw (params[j]).1
  rw [Nat.add_assoc, List.take_add, List.drop_eq_getElem_cons hlt, List.take_succ_cons, span_append,
    span_cons]
  omega

theorem span_take_injective (hw : ∀ t, 0 < w t) {j k : Nat} (hj : j ≤ params.length)
    (hk : k ≤ params.length) (h : span w (params.take j) = span w (params.take k)) : j = k := by
  rcases Nat.lt_trichotomy j k with hlt | heq | hlt
  · have := span_take_lt hw hlt hk
    omega
  · exact heq
  · have := span_take_lt hw hlt hj
    omega

theorem SlotTable.slotOf_eq_some {k x : Nat} (h : ofSignature w s = .ok table)
    (ht : s.types = params.map (·.1)) : table.slotOf? k = some x ↔
      k < params.length ∧ x = s.receiverSlots + span w (params.take k) := by
  by_cases hk : k < params.length
  · have hsplit : s.types = (params.take k).map (·.1) ++ (params[k]).1 ::
        (params.drop (k + 1)).map (·.1) := by
      rw [ht, ← List.map_cons, ← List.map_append, ← List.drop_eq_getElem_cons hk,
        List.take_append_drop]
    have hat := entries_at h hsplit
    rw [List.length_map, List.length_take, Nat.min_eq_left (Nat.le_of_lt hk)] at hat
    rw [slotOf?, hat]
    simp [hk, span, eq_comm]
  · have hlen : table.entries.length = params.length := by
      rw [entries_length h, ht, List.length_map]
    rw [slotOf?, List.getElem?_eq_none (by omega)]
    simp [hk]

theorem mem_laid (hw : ∀ t, 0 < w t) (h : d ∈ laid w next params) :
    next ≤ d.slot ∧ d.slot < next + span w params := by
  induction params generalizing next with
  | nil => cases h
  | cons q params ih =>
    have hq := hw q.1
    rw [span_cons]
    rcases List.mem_cons.1 h with rfl | h
    · exact ⟨Nat.le_refl _, Nat.lt_add_of_pos_right (Nat.add_pos_left hq _)⟩
    · have := ih h
      omega

/-- Parameters that move together are laid out from the slot where the first one goes. -/
theorem laid_moved (hw : ∀ t, 0 < w t)
    (h : ∀ slot, next ≤ slot → slot < next + span w params → f slot + next = slot + next') :
    (laid w next params).map (·.moved f) = laid w next' params := by
  induction params generalizing next next' with
  | nil => rfl
  | cons q params ih =>
    have hq := hw q.1
    rw [span_cons] at h
    have hfirst : f next = next' := by
      have := h next (Nat.le_refl _) (by omega)
      omega
    have hrest : (laid w (next + w q.1) params).map (·.moved f) = laid w (next' + w q.1) params := by
      refine ih fun slot hlow hhigh => ?_
      have := h slot (by omega) (by omega)
      omega
    rw [laid, laid, List.map_cons, hrest, ← hfirst]
    rfl

end Reparam
