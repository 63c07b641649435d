import Reparam.Proofs.Slots.Layout

/-! Tables of words. The slots of a table are words, added with a check where the table is made and
without one where it is read. Made of words or of numbers, a table is the same: no sum wraps. -/
namespace Reparam

variable {w : Widths} {words : ValueType → UInt32} {next receiver a b : UInt32}
  {types : List ValueType}

/-- The sum of two words, where it is one. -/
def checkedAdd (a b : UInt32) : Option UInt32 :=
  if a.toNat + b.toNat < UInt32.size then some (a + b) else none

/-- The sum of two words, or else the greatest word. -/
def saturatingAdd (a b : UInt32) : UInt32 := (checkedAdd a b).getD (.ofNat countLimit)

theorem toNat_add_of_lt (h : a.toNat + b.toNat < UInt32.size) :
    (a + b).toNat = a.toNat + b.toNat := by
  rw [UInt32.toNat_add]
  exact Nat.mod_eq_of_lt h

theorem toNat_saturatingAdd (a b : UInt32) :
    (saturatingAdd a b).toNat = min (a.toNat + b.toNat) countLimit := by
  rw [saturatingAdd, checkedAdd]
  split
  · rename_i hlt
    have hle : a.toNat + b.toNat ≤ countLimit := Nat.le_of_lt_succ hlt
    rw [Option.getD_some, toNat_add_of_lt hlt, Nat.min_eq_left hle]
  · rename_i hge
    have hle : countLimit ≤ a.toNat + b.toNat := Nat.le_of_succ_le (Nat.le_of_not_lt hge)
    rw [Option.getD_none, Nat.min_eq_right hle]
    rfl

structure WordEntry where
  slot : UInt32
  width : UInt32

namespace WordEntry

/-- The first slot behind an entry. Nothing is checked here. -/
def stop (e : WordEntry) : UInt32 := e.slot + e.width

def toEntry (e : WordEntry) : SlotEntry := ⟨e.slot.toNat, e.width.toNat⟩

end WordEntry

structure WordTable where
  receiver : UInt32
  entries : List WordEntry

namespace WordTable

variable {table : WordTable} {entries : List WordEntry}

def limit : UInt32 := .ofNat maxSlot + 1

def layout (words : ValueType → UInt32) :
    UInt32 → List ValueType → Except SlotShortage (List WordEntry)
  | _, [] => .ok []
  | next, t :: types =>
    match (checkedAdd next (words t)).filter (· ≤ limit) with
    | some stop =>
      match layout words stop types with
      | .ok entries => .ok (⟨next, words t⟩ :: entries)
      | .error shortage => .error shortage
    | none => .error ⟨(saturatingAdd next (words t)).toNat⟩

def ofTypes (words : ValueType → UInt32) (receiver : UInt32) (types : List ValueType) :
    Except SlotShortage WordTable :=
  (layout words receiver types).map (.mk receiver)

def nextFree (table : WordTable) : UInt32 :=
  (table.entries.getLast?.map (·.stop)).getD table.receiver

def insertionSlot (table : WordTable) (ordinal : Nat) : UInt32 :=
  (table.entries[ordinal]?.map (·.slot)).getD table.nextFree

def toTable (table : WordTable) : SlotTable := ⟨table.receiver.toNat, table.entries.map (·.toEntry)⟩

/-- Whether the next parameter fits is told as it is for numbers, and if it does, it stops where the
sum says. -/
theorem filter_checkedAdd (a b : UInt32) : (checkedAdd a b).filter (· ≤ limit) =
    if a.toNat + b.toNat ≤ slotLimit then some (a + b) else none := by
  rw [checkedAdd]
  by_cases hlt : a.toNat + b.toNat < UInt32.size
  · rw [if_pos hlt, Option.filter_some]
    simp only [UInt32.le_iff_toNat_le, toNat_add_of_lt hlt, decide_eq_true_eq]
    rfl
  · have hgt : ¬ a.toNat + b.toNat ≤ slotLimit :=
      Nat.not_le_of_lt (Nat.lt_of_lt_of_le (by decide) (Nat.le_of_not_lt hlt))
    rw [if_neg hlt, if_neg hgt, Option.filter_none]

theorem toNat_add_of_le (h : a.toNat + b.toNat ≤ slotLimit) :
    (a + b).toNat = a.toNat + b.toNat :=
  toNat_add_of_lt (Nat.lt_of_le_of_lt h (by decide))

theorem layout_toEntry (hwords : ∀ t, (words t).toNat = w t) (next : UInt32)
    (types : List ValueType) : (layout words next types).map (List.map WordEntry.toEntry) =
      SlotTable.layout w next.toNat types := by
  induction types generalizing next with
  | nil => rfl
  | cons t types ih =>
    rw [layout, SlotTable.layout, filter_checkedAdd, hwords]
    by_cases hstop : next.toNat + w t ≤ slotLimit
    · have hsum := toNat_add_of_le ((hwords t).symm ▸ hstop)
      rw [hwords] at hsum
      rw [if_pos hstop, if_pos hstop, ← hsum, ← ih, ← hwords]
      dsimp only
      cases layout words (next + words t) types <;> rfl
    · rw [if_neg hstop, if_neg hstop, toNat_saturatingAdd, hwords]
      rfl

/-- Where a table is made, every entry stops at the sum of its slot and its width. -/
theorem toNat_stop (h : layout words next types = .ok entries) :
    ∀ e ∈ entries, e.stop.toNat = e.toEntry.stop := by
  induction types generalizing next entries with
  | nil =>
    cases h
    simp
  | cons t types ih =>
    rw [layout, filter_checkedAdd] at h
    by_cases hstop : next.toNat + (words t).toNat ≤ slotLimit
    · rw [if_pos hstop] at h
      cases hrest : layout words (next + words t) types with
      | ok rest =>
        simp only [hrest] at h
        cases h
        exact List.forall_mem_cons.2 ⟨toNat_add_of_le hstop, ih hrest⟩
      | error shortage =>
        simp only [hrest] at h
        cases h
    · rw [if_neg hstop] at h
      cases h

theorem layout_of_ofTypes (h : ofTypes words receiver types = .ok table) :
    layout words receiver types = .ok table.entries := by
  rw [ofTypes] at h
  cases hlayout : layout words receiver types with
  | ok entries =>
    rw [hlayout] at h
    cases h
    rfl
  | error shortage =>
    rw [hlayout] at h
    cases h

theorem toTable_ofTypes (hwords : ∀ t, (words t).toNat = w t) (receiver : UInt32)
    (types : List ValueType) :
    (ofTypes words receiver types).map toTable = SlotTable.ofTypes w receiver.toNat types := by
  rw [ofTypes, SlotTable.ofTypes, ← layout_toEntry hwords]
  cases layout words receiver types <;> rfl

theorem toNat_nextFree (h : ∀ e ∈ table.entries, e.stop.toNat = e.toEntry.stop) :
    table.nextFree.toNat = table.toTable.nextFree := by
  rw [nextFree, SlotTable.nextFree, toTable, List.getLast?_map]
  cases hlast : table.entries.getLast? with
  | none => rfl
  | some e => exact h e (List.mem_of_getLast? hlast)

theorem toNat_insertionSlot (h : ∀ e ∈ table.entries, e.stop.toNat = e.toEntry.stop) (k : Nat) :
    (table.insertionSlot k).toNat = table.toTable.insertionSlot k := by
  rw [insertionSlot, SlotTable.insertionSlot, SlotTable.slotOf?, ← toNat_nextFree h, toTable,
    List.getElem?_map]
  cases table.entries[k]? <;> rfl

end WordTable

namespace SlotTable

/-- Types fit unless they and the receiver take more slots than can be addressed. A table is an exact
layout of its types, and it takes a new one where it says. Where types do not fit, what is reported is
the first total that is out of reach. It makes no difference that all this is done with words. -/
theorem ofTypes_exact (hw : ∀ t, w t = 1 ∨ w t = 2) (receiver : UInt32)
    (types : List ValueType) :
    ((∃ table, ofTypes w receiver.toNat types = .ok table) ↔
      types = [] ∨ receiver.toNat + totalWidth w types ≤ slotLimit) ∧
    (∀ table, ofTypes w receiver.toNat types = .ok table →
      Exact w receiver.toNat types table ∧
      ∀ k ≤ types.length, ∀ t table',
        ofTypes w receiver.toNat (types.insertIdx k t) = .ok table' →
        table'.entries = table.entries.take k ++ ⟨table.insertionSlot k, w t⟩ ::
          (table.entries.drop k).map fun e => ⟨e.slot + w t, e.width⟩) ∧
    (∀ shortage, ofTypes w receiver.toNat types = .error shortage →
      ∃ total, IsLeast (overruns w receiver.toNat types) total ∧
        shortage.required = min total countLimit) ∧
    (WordTable.ofTypes (fun t => .ofNat (w t)) receiver types).map WordTable.toTable =
      ofTypes w receiver.toNat types ∧
    ∀ table, WordTable.ofTypes (fun t => .ofNat (w t)) receiver types = .ok table →
      (∀ e ∈ table.entries, e.stop.toNat = e.slot.toNat + e.width.toNat) ∧
      table.nextFree.toNat = table.toTable.nextFree ∧
      ∀ k, (table.insertionSlot k).toNat = table.toTable.insertionSlot k := by
  have hpos : ∀ t, 0 < w t := fun t => by
    rcases hw t with h | h <;> omega
  have hwords : ∀ t, (UInt32.ofNat (w t)).toNat = w t := fun t => by
    rcases hw t with h | h <;> rw [h] <;> rfl
  refine ⟨?_, ?_, fun shortage => ofTypes_error, WordTable.toTable_ofTypes hwords receiver types, ?_⟩
  · constructor
    · rintro ⟨table, htable⟩
      exact (ofTypes_eq_ok.1 htable).2
    · exact fun hfits => ⟨_, ofTypes_eq_ok.2 ⟨rfl, hfits⟩⟩
  · intro table htable
    obtain ⟨rfl, -⟩ := ofTypes_eq_ok.1 htable
    refine ⟨exact_ofBare hpos _ _, fun k hk t table' htable' => ?_⟩
    obtain ⟨rfl, -⟩ := ofTypes_eq_ok.1 htable'
    exact entries_insertIdx w _ hk t
  · intro table htable
    have hstops := WordTable.toNat_stop (WordTable.layout_of_ofTypes htable)
    exact ⟨hstops, WordTable.toNat_nextFree hstops, WordTable.toNat_insertionSlot hstops⟩

/-- The last slot can be taken. -/
theorem ofTypes_exact_at_limit : ∃ table,
    ofTypes standardWidths (65533 : UInt32).toNat [.int, .long] = .ok table ∧
      table.nextFree = slotLimit := by
  have hw : ∀ t, standardWidths t = 1 ∨ standardWidths t = 2 := fun t => by
    rw [standardWidths]
    split
    · exact .inr rfl
    · exact .inl rfl
  obtain ⟨hfits, hexact, -⟩ := ofTypes_exact hw 65533 [.int, .long]
  obtain ⟨table, htable⟩ := hfits.2 (.inr (by decide))
  exact ⟨table, htable, (hexact table htable).1.nextFree_eq⟩

/-- The total is not counted beyond all words. -/
example : ofTypes standardWidths (0xFFFFFFFF : UInt32).toNat [.long] = .error ⟨0xFFFFFFFF⟩ := by
  decide

end SlotTable
end Reparam
