import Mathlib.Data.List.Perm.Basic
import Reparam.Edit.Flatten
import Reparam.Slots.Table

/-! Parameters by origin and type, laid out one behind the other. -/
namespace Reparam

/-- The parameters of a method under edit: where each one comes from, and its type. -/
abbrev Row := List (Origin × ValueType)

namespace Row

variable {w : Widths} {next : Nat} {o : Origin} {t : ValueType} {row front back : Row}

def origins (row : Row) : List Origin := row.map (·.1)

def types (row : Row) : List ValueType := row.map (·.2)

/-- The slots that the parameters take together. -/
def extent (w : Widths) : Row → Nat
  | [] => 0
  | (_, t) :: row => w t + extent w row

/-- The slot that a parameter starts at when the row is laid out from a slot on. A parameter that is
not there starts behind all others. -/
def start (w : Widths) (o : Origin) : Nat → Row → Nat
  | next, [] => next
  | next, (o', t) :: row => if o' = o then next else start w o (next + w t) row

def entries (w : Widths) : Nat → Row → List SlotEntry
  | _, [] => []
  | next, (_, t) :: row => ⟨next, w t⟩ :: entries w (next + w t) row

def table (w : Widths) (receiver : Nat) (row : Row) : SlotTable := ⟨receiver, entries w receiver row⟩

theorem origins_append (front back : Row) :
    origins (front ++ back) = origins front ++ origins back := List.map_append

@[simp] theorem extent_nil (w : Widths) : extent w [] = 0 := rfl

@[simp] theorem extent_cons (w : Widths) (q : Origin × ValueType) (row : Row) :
    extent w (q :: row) = w q.2 + extent w row := rfl

theorem extent_singleton (w : Widths) (o : Origin) (t : ValueType) : extent w [(o, t)] = w t := rfl

@[simp] theorem extent_append (w : Widths) (front back : Row) :
    extent w (front ++ back) = extent w front + extent w back := by
  induction front with
  | nil => simp
  | cons q front ih => rw [List.cons_append, extent_cons, extent_cons, ih, Nat.add_assoc]

theorem extent_perm {row' : Row} (h : row.Perm row') : extent w row = extent w row' := by
  induction h with
  | nil => rfl
  | cons q _ ih => rw [extent_cons, extent_cons, ih]
  | swap p q row =>
    simp only [extent_cons]
    omega
  | trans _ _ ih ih' => exact ih.trans ih'

@[simp] theorem entries_length (w : Widths) (next : Nat) (row : Row) :
    (entries w next row).length = row.length := by
  induction row generalizing next with
  | nil => rfl
  | cons q row ih => simp [entries, ih]

theorem entries_append (w : Widths) (next : Nat) (front back : Row) :
    entries w next (front ++ back) =
      entries w next front ++ entries w (next + extent w front) back := by
  induction front generalizing next with
  | nil => rfl
  | cons q front ih =>
    simp only [List.cons_append, entries, ih, extent_cons, Nat.add_assoc]

theorem entries_getElem (w : Widths) (next : Nat) (front back : Row) (q : Origin × ValueType) :
    (entries w next (front ++ q :: back))[front.length]? =
      some ⟨next + extent w front, w q.2⟩ := by
  rw [entries_append, List.getElem?_append_right (by simp), entries_length, Nat.sub_self]
  rfl

theorem getLast_entries (w : Widths) (next : Nat) (row : Row) :
    ((entries w next row).getLast?.map (·.stop)).getD next = next + extent w row := by
  obtain rfl | ⟨front, q, rfl⟩ := row.eq_nil_or_concat
  · rfl
  · rw [List.concat_eq_append, entries_append, entries, entries, List.getLast?_concat]
    simp [SlotEntry.stop, Nat.add_assoc]

@[simp] theorem receiver_table (w : Widths) (receiver : Nat) (row : Row) :
    (table w receiver row).receiver = receiver := rfl

theorem nextFree_table (w : Widths) (receiver : Nat) (row : Row) :
    (table w receiver row).nextFree = receiver + extent w row := getLast_entries w receiver row

theorem slotOf_table (w : Widths) (receiver : Nat) (front back : Row) (q : Origin × ValueType) :
    (table w receiver (front ++ q :: back)).slotOf? front.length =
      some (receiver + extent w front) := by
  rw [SlotTable.slotOf?, table, entries_getElem]
  rfl

theorem insertionSlot_table (w : Widths) (receiver : Nat) (front back : Row) :
    (table w receiver (front ++ back)).insertionSlot front.length =
      receiver + extent w front := by
  cases back with
  | nil =>
    rw [List.append_nil, SlotTable.insertionSlot, SlotTable.slotOf?, nextFree_table]
    simp [table]
  | cons q back => rw [SlotTable.insertionSlot, slotOf_table, Option.getD_some]

/-! Tables of signatures. -/

theorem layout_types (w : Widths) (next : Nat) (row : Row) :
    SlotTable.layout w next (types row) = .ok (entries w next row) ∧
        (row ≠ [] → next + extent w row ≤ slotLimit) ∨
      ∃ shortage, SlotTable.layout w next (types row) = .error shortage := by
  induction row generalizing next with
  | nil => exact .inl ⟨rfl, fun h => (h rfl).elim⟩
  | cons q row ih =>
    simp only [types, List.map_cons, SlotTable.layout]
    by_cases hstop : next + w q.2 ≤ slotLimit
    · rw [if_pos hstop]
      rcases ih (next + w q.2) with ⟨hrow, hfits⟩ | ⟨shortage, hrow⟩
      · refine .inl ⟨?_, fun _ => ?_⟩
        · rw [types] at hrow
          rw [hrow]
          rfl
        · rw [extent_cons]
          by_cases hnil : row = []
          · simpa [hnil] using hstop
          · have := hfits hnil
            omega
      · rw [types] at hrow
        rw [hrow]
        exact .inr ⟨shortage, rfl⟩
    · rw [if_neg hstop]
      exact .inr ⟨_, rfl⟩

/-- The table of a signature is that of its row, and the row is in reach. -/
theorem ofSignature_eq_ok {s : Signature} {made : SlotTable} (ht : s.types = types row)
    (h : SlotTable.ofSignature w s = .ok made) :
    made = table w s.receiverSlots row ∧ s.receiverSlots + extent w row ≤ slotLimit := by
  unfold SlotTable.ofSignature SlotTable.ofTypes at h
  rw [ht] at h
  rcases layout_types w s.receiverSlots row with ⟨hrow, hfits⟩ | ⟨shortage, hrow⟩
  · rw [hrow] at h
    cases h
    refine ⟨rfl, ?_⟩
    by_cases hnil : row = []
    · subst hnil
      simp only [Signature.receiverSlots, extent_nil, slotLimit]
      split <;> decide
    · exact hfits hnil
  · rw [hrow] at h
    cases h

theorem layout_of_le (h : next + extent w row ≤ slotLimit) :
    SlotTable.layout w next (types row) = .ok (entries w next row) := by
  induction row generalizing next with
  | nil => rfl
  | cons q row ih =>
    rw [extent_cons, ← Nat.add_assoc] at h
    have hstop : next + w q.2 ≤ slotLimit := by omega
    have hrow := ih h
    rw [types] at hrow
    simp only [types, List.map_cons, SlotTable.layout, if_pos hstop, hrow]
    rfl

/-- A row in reach has a table. -/
theorem ofSignature_of_le {s : Signature} (ht : s.types = types row)
    (h : s.receiverSlots + extent w row ≤ slotLimit) :
    SlotTable.ofSignature w s = .ok (table w s.receiverSlots row) := by
  unfold SlotTable.ofSignature SlotTable.ofTypes
  rw [ht, layout_of_le h]
  rfl

/-! Where parameters start. -/

theorem start_add (d : Nat) : start w o (next + d) row = start w o next row + d := by
  induction row generalizing next with
  | nil => rfl
  | cons q row ih =>
    obtain ⟨o', t⟩ := q
    simp only [start]
    by_cases ho : o' = o
    · rw [if_pos ho, if_pos ho]
    · rw [if_neg ho, if_neg ho, Nat.add_right_comm, ih]

theorem start_append_of_mem (h : o ∈ origins front) :
    start w o next (front ++ back) = start w o next front := by
  induction front generalizing next with
  | nil => cases h
  | cons q front ih =>
    obtain ⟨o', t⟩ := q
    simp only [List.cons_append, start]
    by_cases ho : o' = o
    · rw [if_pos ho, if_pos ho]
    · rw [if_neg ho, if_neg ho]
      exact ih ((List.mem_cons.1 h).resolve_left (Ne.symm ho))

theorem start_append_of_not_mem (h : o ∉ origins front) :
    start w o next (front ++ back) = start w o (next + extent w front) back := by
  induction front generalizing next with
  | nil => rfl
  | cons q front ih =>
    obtain ⟨o', t⟩ := q
    have ho : o' ≠ o := fun he => h (he ▸ List.mem_cons_self)
    rw [List.cons_append, start, if_neg ho, ih fun hm => h (List.mem_cons_of_mem _ hm),
      extent_cons, Nat.add_assoc]

theorem start_at (h : o ∉ origins front) :
    start w o next (front ++ (o, t) :: back) = next + extent w front := by
  rw [start_append_of_not_mem h, start, if_pos rfl]

theorem le_start : next ≤ start w o next row := by
  induction row generalizing next with
  | nil => exact Nat.le_refl _
  | cons q row ih =>
    simp only [start]
    split
    · exact Nat.le_refl _
    · exact Nat.le_trans (Nat.le_add_right _ _) ih

theorem start_lt (hw : ∀ t, 0 < w t) (h : o ∈ origins row) :
    start w o next row < next + extent w row := by
  induction row generalizing next with
  | nil => cases h
  | cons q row ih =>
    obtain ⟨o', t⟩ := q
    simp only [start, extent_cons]
    by_cases ho : o' = o
    · rw [if_pos ho]
      have := hw t
      omega
    · rw [if_neg ho]
      have := @ih (next + w t) ((List.mem_cons.1 h).resolve_left (Ne.symm ho))
      omega

/-- No two parameters start at one slot. -/
theorem start_injective (hw : ∀ t, 0 < w t) {p : Origin} (ho : o ∈ origins row)
    (hp : p ∈ origins row) (h : start w o next row = start w p next row) : o = p := by
  induction row generalizing next with
  | nil => cases ho
  | cons q row ih =>
    obtain ⟨o', t⟩ := q
    have hwt := hw t
    have hle (o : Origin) : next + w t ≤ start w o (next + w t) row := le_start
    simp only [start] at h
    by_cases h1 : o' = o
    · by_cases h2 : o' = p
      · rw [← h1, h2]
      · have := hle p
        rw [if_pos h1, if_neg h2] at h
        omega
    · by_cases h2 : o' = p
      · have := hle o
        rw [if_neg h1, if_pos h2] at h
        omega
      · rw [if_neg h1, if_neg h2] at h
        exact ih ((List.mem_cons.1 ho).resolve_left (Ne.symm h1))
          ((List.mem_cons.1 hp).resolve_left (Ne.symm h2)) h

end Row
end Reparam
