import Mathlib.Order.Bounds.Basic
import Reparam.Proofs.Apply.Orderly
import Reparam.Proofs.Locals.Laid

/-! Tables as layouts. Parameters stand back to back behind the receiver, each one is found at the
slot where it starts, and a new one moves those behind it up. Types that do not fit are refused at
the first one that goes beyond what can be addressed. -/
namespace Reparam

variable {w : Widths} {next receiver k slot : Nat} {t : ValueType}
  {types front back : List ValueType} {row : Row} {e : SlotEntry} {table : SlotTable}

namespace Row

@[simp] theorem length_ofBare (types : List ValueType) : (ofBare types).length = types.length :=
  List.length_map _

theorem ofBare_append : ofBare (front ++ back) = ofBare front ++ ofBare back := List.map_append

/-- A row that is laid out further up takes all its entries along. -/
theorem entries_add (w : Widths) (next d : Nat) (row : Row) :
    entries w (next + d) row = (entries w next row).map fun e => ⟨e.slot + d, e.width⟩ := by
  induction row generalizing next with
  | nil => rfl
  | cons q row ih => rw [entries, entries, List.map_cons, Nat.add_right_comm, ih]

theorem le_of_mem_entries (h : e ∈ entries w next row) : next ≤ e.slot := by
  induction row generalizing next with
  | nil => cases h
  | cons q row ih =>
    rcases List.mem_cons.1 h with rfl | h
    · exact Nat.le_refl _
    · exact Nat.le_trans (Nat.le_add_right _ _) (ih h)

/-- Entries start one behind the other, and none starts before those in front of it have stopped. -/
theorem pairwise_entries (hw : ∀ t, 0 < w t) (next : Nat) (row : Row) :
    (entries w next row).Pairwise fun e e' => e.slot < e'.slot ∧ e.stop ≤ e'.slot := by
  induction row generalizing next with
  | nil => exact .nil
  | cons q row ih =>
    refine List.pairwise_cons.2 ⟨fun e he => ?_, ih _⟩
    have hle := le_of_mem_entries he
    have hpos := hw q.2
    exact ⟨by dsimp only; omega, hle⟩

/-- No slot among the entries is left out. -/
theorem exists_mem_entries (hlow : next ≤ slot) (hhigh : slot < next + extent w row) :
    ∃ e ∈ entries w next row, e.slot ≤ slot ∧ slot < e.stop := by
  induction row generalizing next with
  | nil => exact (Nat.not_le_of_lt hhigh hlow).elim
  | cons q row ih =>
    rw [extent_cons, ← Nat.add_assoc] at hhigh
    by_cases hfirst : slot < next + w q.2
    · exact ⟨_, List.mem_cons_self, hlow, hfirst⟩
    · obtain ⟨e, he, hplace⟩ := ih (Nat.le_of_not_lt hfirst) hhigh
      exact ⟨e, List.mem_cons_of_mem _ he, hplace⟩

end Row

namespace SlotTable

/-! Types that fit, and those that do not. -/

theorem layout_eq_ok {entries : List SlotEntry} : layout w next types = .ok entries ↔
    entries = Row.entries w next (Row.ofBare types) ∧
      (types = [] ∨ next + totalWidth w types ≤ slotLimit) := by
  have hcases := Row.layout_types w next (Row.ofBare types)
  rw [Row.types_ofBare, Row.extent_ofBare] at hcases
  constructor
  · intro h
    rcases hcases with ⟨hlayout, hfits⟩ | ⟨shortage, hlayout⟩
    · rw [hlayout] at h
      cases h
      refine ⟨rfl, Decidable.or_iff_not_imp_left.2 fun hne => hfits fun hnil => hne ?_⟩
      rw [← Row.types_ofBare types, hnil]
      rfl
    · rw [hlayout] at h
      cases h
  · rintro ⟨rfl, rfl | hfits⟩
    · rfl
    · rw [← Row.extent_ofBare] at hfits
      simpa using Row.layout_of_le hfits

theorem ofTypes_eq_ok : ofTypes w receiver types = .ok table ↔
    table = (Row.ofBare types).table w receiver ∧
      (types = [] ∨ receiver + totalWidth w types ≤ slotLimit) := by
  rw [ofTypes]
  cases hlayout : layout w receiver types with
  | ok entries =>
    obtain ⟨rfl, hfits⟩ := layout_eq_ok.1 hlayout
    simp [Row.table, hfits, eq_comm]
  | error shortage =>
    refine iff_of_false (by simp) fun h => ?_
    rw [layout_eq_ok.2 ⟨rfl, h.2⟩] at hlayout
    cases hlayout

/-- The totals of the first types, as far as they go beyond what can be addressed. -/
def overruns (w : Widths) (receiver : Nat) (types : List ValueType) : Set Nat :=
  {total | slotLimit < total ∧
    ∃ front, front ≠ [] ∧ front <+: types ∧ total = receiver + totalWidth w front}

theorem overruns_cons_of_le (h : next + w t ≤ slotLimit) :
    overruns w next (t :: types) = overruns w (next + w t) types := by
  ext total
  refine and_congr_right fun hover => ⟨?_, ?_⟩
  · rintro ⟨front, hne, hprefix, rfl⟩
    obtain rfl | ⟨front, rfl, hfront⟩ := List.prefix_cons_iff.1 hprefix
    · exact (hne rfl).elim
    · rw [totalWidth_cons, ← Nat.add_assoc] at hover ⊢
      refine ⟨front, ?_, hfront, rfl⟩
      rintro rfl
      exact Nat.not_lt_of_le h hover
  · rintro ⟨front, -, hprefix, rfl⟩
    refine ⟨t :: front, List.cons_ne_nil _ _, List.cons_prefix_cons.2 ⟨rfl, hprefix⟩, ?_⟩
    rw [totalWidth_cons, Nat.add_assoc]

theorem isLeast_overruns_cons (h : slotLimit < next + w t) :
    IsLeast (overruns w next (t :: types)) (next + w t) := by
  refine ⟨⟨h, [t], List.cons_ne_nil _ _, List.cons_prefix_cons.2 ⟨rfl, List.nil_prefix⟩, rfl⟩, ?_⟩
  rintro total ⟨-, front, hne, hprefix, rfl⟩
  obtain rfl | ⟨front, rfl, -⟩ := List.prefix_cons_iff.1 hprefix
  · exact (hne rfl).elim
  · rw [totalWidth_cons, ← Nat.add_assoc]
    exact Nat.le_add_right _ _

/-- What is reported is where the layout had to stop. -/
theorem layout_error {shortage : SlotShortage} (h : layout w next types = .error shortage) :
    ∃ total, IsLeast (overruns w next types) total ∧
      shortage.required = min total countLimit := by
  induction types generalizing next with
  | nil => cases h
  | cons t types ih =>
    rw [layout] at h
    by_cases hstop : next + w t ≤ slotLimit
    · rw [if_pos hstop] at h
      rw [overruns_cons_of_le hstop]
      refine ih ?_
      cases hrest : layout w (next + w t) types with
      | ok entries =>
        rw [hrest] at h
        cases h
      | error shortage' =>
        rw [hrest] at h
        exact h
    · rw [if_neg hstop] at h
      cases h
      exact ⟨_, isLeast_overruns_cons (Nat.lt_of_not_le hstop), rfl⟩

theorem ofTypes_error {shortage : SlotShortage} (h : ofTypes w receiver types = .error shortage) :
    ∃ total, IsLeast (overruns w receiver types) total ∧
      shortage.required = min total countLimit := by
  rw [ofTypes] at h
  cases hlayout : layout w receiver types with
  | ok entries =>
    rw [hlayout] at h
    cases h
  | error shortage' =>
    rw [hlayout] at h
    cases h
    exact layout_error hlayout

/-! What a table says of its parameters. -/

/-- Where entries start one behind the other, a parameter is found by its slot. -/
theorem ordinalAt_of_slotOf (h : table.entries.Pairwise fun e e' => e.slot < e'.slot)
    (hslot : table.slotOf? k = some slot) : table.ordinalAt? slot = some k := by
  obtain ⟨e, he, rfl⟩ := Option.map_eq_some_iff.1 hslot
  obtain ⟨hlt, rfl⟩ := List.getElem?_eq_some_iff.1 he
  refine List.findIdx?_eq_some_iff_getElem.2 ⟨hlt, by simp, fun j hj => ?_⟩
  have hless := List.pairwise_iff_getElem.1 h j k (Nat.lt_trans hj hlt) hlt hj
  simpa using Nat.ne_of_lt hless

theorem ordinalAt_eq_none (h : ∀ e ∈ table.entries, e.slot ≠ slot) :
    table.ordinalAt? slot = none :=
  List.findIdx?_eq_none_iff.2 fun e he => decide_eq_false (h e he)

/-- A table puts types back to back behind a receiver, and finds each one where it starts. -/
structure Exact (w : Widths) (receiver : Nat) (types : List ValueType) (table : SlotTable) :
    Prop where
  length_eq : table.length = types.length
  entry_at : ∀ (k : Nat) t, types[k]? = some t →
    table.entries[k]? = some ⟨receiver + totalWidth w (types.take k), w t⟩
  apart : table.entries.Pairwise fun e e' => e.slot < e'.slot ∧ e.stop ≤ e'.slot
  covered : ∀ slot, receiver ≤ slot → slot < table.nextFree →
    ∃ e ∈ table.entries, e.slot ≤ slot ∧ slot < e.stop
  nextFree_eq : table.nextFree = receiver + totalWidth w types
  found : ∀ k < table.length, (table.slotOf? k).bind table.ordinalAt? = some k
  missed : ∀ slot, (∀ e ∈ table.entries, e.slot ≠ slot) → table.ordinalAt? slot = none

theorem exact_ofBare (hw : ∀ t, 0 < w t) (receiver : Nat) (types : List ValueType) :
    Exact w receiver types ((Row.ofBare types).table w receiver) where
  length_eq := by simp [length, Row.table]
  entry_at := by
    intro k t ht
    obtain ⟨front, back, rfl, rfl⟩ := exists_append_of_getElem? ht
    have hat := Row.entries_getElem w receiver (Row.ofBare front) (Row.ofBare back) (.inserted 0, t)
    rw [Row.extent_ofBare, Row.length_ofBare] at hat
    rw [List.take_left, ← hat, Row.ofBare_append]
    rfl
  apart := Row.pairwise_entries hw receiver _
  covered := by
    intro slot hlow hhigh
    rw [Row.nextFree_table] at hhigh
    exact Row.exists_mem_entries hlow hhigh
  nextFree_eq := by rw [Row.nextFree_table, Row.extent_ofBare]
  found := by
    intro k hk
    obtain ⟨slot, hslot⟩ := exists_slotOf hk
    rw [hslot]
    exact ordinalAt_of_slotOf ((Row.pairwise_entries hw receiver _).imp And.left) hslot
  missed := fun _ => ordinalAt_eq_none

/-- A new parameter starts where one was before or behind all of them, and those that were there or
behind move up by its width. -/
theorem entries_insertIdx (w : Widths) (receiver : Nat) (hk : k ≤ types.length) (t : ValueType) :
    let table := (Row.ofBare types).table w receiver
    ((Row.ofBare (types.insertIdx k t)).table w receiver).entries =
      table.entries.take k ++ ⟨table.insertionSlot k, w t⟩ ::
        (table.entries.drop k).map fun e => ⟨e.slot + w t, e.width⟩ := by
  intro table
  obtain ⟨front, back, rfl, rfl⟩ : ∃ front back, types = front ++ back ∧ front.length = k :=
    ⟨_, _, (List.take_append_drop k types).symm, List.length_take_of_le hk⟩
  have hlength : (Row.entries w receiver (Row.ofBare front)).length = front.length := by
    simp
  have hentries : table.entries = Row.entries w receiver (Row.ofBare front) ++
      Row.entries w (receiver + totalWidth w front) (Row.ofBare back) := by
    rw [← Row.extent_ofBare, ← Row.entries_append, ← Row.ofBare_append]
    rfl
  have hslot := Row.insertionSlot_table w receiver (Row.ofBare front) (Row.ofBare back)
  rw [← Row.ofBare_append, Row.length_ofBare, Row.extent_ofBare] at hslot
  rw [hentries, List.take_left' hlength, List.drop_left' hlength, ← Row.entries_add,
    insertIdx_middle, hslot]
  change Row.entries w receiver (Row.ofBare (front ++ t :: back)) = _
  rw [Row.ofBare_append, Row.entries_append, Row.extent_ofBare]
  rfl

end SlotTable
end Reparam
