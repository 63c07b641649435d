import Reparam.Method.Body

/-! Slot tables: where each parameter lives. Parameters are laid out back to back behind the
receiver, each as wide as its type. A table is made from a signature and never edited. -/
namespace Reparam

/-- The number of slots that a method can address. -/
def slotLimit : Nat := maxSlot + 1

/-- Slot numbers are not counted any further. -/
def countLimit : Nat := 0xFFFFFFFF

structure SlotEntry where
  slot : Nat
  width : Nat
deriving DecidableEq, Repr

/-- The first slot behind an entry. -/
def SlotEntry.stop (e : SlotEntry) : Nat := e.slot + e.width

/-- The entries of all parameters, by ordinal. -/
structure SlotTable where
  receiver : Nat := 0
  entries : List SlotEntry := []
deriving DecidableEq, Repr, Inhabited

/-- The parameters do not fit: the slots that the first of them need together, as soon as they are
more than can be addressed. -/
structure SlotShortage where
  required : Nat
deriving DecidableEq, Repr

namespace SlotTable

/-- Lays types out from a slot on. -/
def layout (widths : Widths) : Nat → List ValueType → Except SlotShortage (List SlotEntry)
  | _, [] => .ok []
  | next, t :: types =>
    let stop := next + widths t
    if stop ≤ slotLimit then
      match layout widths stop types with
      | .ok entries => .ok (⟨next, widths t⟩ :: entries)
      | .error shortage => .error shortage
    else .error ⟨min stop countLimit⟩

def ofTypes (widths : Widths) (receiver : Nat) (types : List ValueType) :
    Except SlotShortage SlotTable :=
  match layout widths receiver types with
  | .ok entries => .ok ⟨receiver, entries⟩
  | .error shortage => .error shortage

def ofSignature (widths : Widths) (s : Signature) : Except SlotShortage SlotTable :=
  ofTypes widths s.receiverSlots s.types

def length (table : SlotTable) : Nat := table.entries.length

def slotOf? (table : SlotTable) (ordinal : Nat) : Option Nat :=
  table.entries[ordinal]?.map (·.slot)

/-- The first slot behind the last parameter. -/
def nextFree (table : SlotTable) : Nat :=
  (table.entries.getLast?.map (·.stop)).getD table.receiver

/-- The ordinal of the parameter that starts at a slot. -/
def ordinalAt? (table : SlotTable) (slot : Nat) : Option Nat :=
  table.entries.findIdx? (·.slot = slot)

/-- The slot that a parameter inserted at an ordinal would start at. -/
def insertionSlot (table : SlotTable) (ordinal : Nat) : Nat :=
  (table.slotOf? ordinal).getD table.nextFree

end SlotTable
end Reparam
