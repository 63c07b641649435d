import Reparam.Slots.Table

/-! Moving slots after a change of the declared locals. A snapshot is taken before the change. After
it the locals are compared with the snapshot: what lies above a local that is gone moves down by its
width, and what lies at or above a new local moves up by its width. The new local itself stays where
it was declared. Reserved slots are left alone. -/
namespace Reparam

/-- What tells locals apart, with their width. -/
structure Declaration where
  name : String
  type : ValueType
  slot : Nat
  width : Nat
deriving DecidableEq, Repr

def Local.declaration (widths : Widths) (l : Local) : Declaration :=
  ⟨l.name, l.type, l.slot, widths l.type⟩

/-- The locals by slot and the referenced slots of a body at one point in time. -/
structure Snapshot where
  locals : List Declaration
  referenced : List Nat
deriving DecidableEq, Repr

namespace Snapshot

variable {α : Type}

def take (widths : Widths) (b : Body) : Snapshot :=
  ⟨(b.locals.map (·.declaration widths)).mergeSort fun d e => d.slot ≤ e.slot,
    b.code.referencedSlots⟩

/-- What is left of a list after every declaration of another one took out one match. -/
def unmatched (key : α → Declaration) : List α → List Declaration → List α
  | [], _ => []
  | x :: xs, pending =>
    if key x ∈ pending then unmatched key xs (pending.erase (key x))
    else x :: unmatched key xs pending

/-- The differences between a snapshot and the locals of a body: the locals that are gone, and the
new ones with their index in the table, each by slot. -/
structure Changes where
  removed : List Declaration
  added : List (Declaration × Nat)
deriving DecidableEq, Repr

def changes (s : Snapshot) (widths : Widths) (b : Body) : Changes :=
  let current := b.locals.map (·.declaration widths)
  ⟨unmatched id s.locals current,
    (unmatched Prod.fst current.zipIdx s.locals).mergeSort fun d e => d.1.slot ≤ e.1.slot⟩

/-- Where a slot goes for a local that is gone. -/
def moveDown (slot : Nat) (gone : Declaration) : Nat :=
  if gone.slot < slot then slot - gone.width else slot

/-- Where a slot goes for a new local. The sum is taken not to overflow a machine word. -/
def moveUp (slot : Nat) (new : Declaration) : Nat :=
  if new.slot ≤ slot then slot + new.width else slot

/-- Where a slot goes for all changes. The local with the given index does not move for itself. -/
def Changes.shift (c : Changes) (self : Option Nat) (slot : Nat) : Nat :=
  let down := c.removed.foldl moveDown slot
  c.added.foldl (fun slot new => if some new.2 = self then slot else moveUp slot new.1) down

/-- Where the reference of an instruction goes. -/
def remapping (s : Snapshot) (c : Changes) (slot : Nat) : Nat :=
  if slot ∈ s.referenced then c.shift none slot else slot

/-- Moves the locals and the instructions of a body for every local that came or went. -/
def reconcile (s : Snapshot) (widths : Widths) (b : Body) : Body :=
  let c := s.changes widths b
  { b with
    locals := b.locals.zipIdx.map fun (l, i) => { l with slot := c.shift (some i) l.slot }
    code := b.code.remap (s.remapping c) }

/-- How many instructions reconciling changes. -/
def reconcileCount (s : Snapshot) (widths : Widths) (b : Body) : Nat :=
  b.code.remapCount (s.remapping (s.changes widths b))

end Snapshot
end Reparam
