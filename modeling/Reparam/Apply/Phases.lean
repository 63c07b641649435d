import Reparam.Apply.Progress

/-! The phases of an application, one for each kind of edit. -/
namespace Reparam.Applier

variable (a : Applier)

/-- Declares a new parameter at the slot where it starts, and moves everything above it up. -/
def insert (p : Progress) (index : Nat) (t : ValueType) : Except Stopped Progress :=
  let signature := p.body.signature
  if index ≤ signature.params.length then do
    let slot := p.table.insertionSlot index
    let name := a.injectedStem ++ toString index
    let snapshot := Snapshot.take a.widths p.body
    let declared : Local := ⟨name, t, slot, p.body.methodScope⟩
    let params := signature.params.insertIdx index (.generated t name)
    let locals := p.body.locals.insertIdx (p.body.locals.findIdx (slot ≤ ·.slot)) declared
    let p := { p with body := { p.body with signature := { signature with params }, locals } }
    return (← (p.reconcile a.widths snapshot).rebuild a.widths).changedSignature
  else p.stop (.ordinalOutOfRange index signature.params.length)

def insertAll (edits : List (Nat × ValueType)) (p : Progress) : Except Stopped Progress :=
  (ascendingByFirst edits).foldlM (fun p (index, t) => a.insert p index t) p

/-- Moves every slot above an entry for its new width. The sum is taken not to overflow a machine
word. -/
def resize (entry : SlotEntry) (width : Nat) (p : Progress) : Progress :=
  if width = entry.width then p
  else
    p.remapSlots fun slot =>
      if entry.stop ≤ slot && !isReserved slot then slot - entry.width + width else slot

/-- Adapts the code around a parameter that became an object of another class. -/
def adaptCode (slot : Nat) (old new : ValueType) (p : Progress) : Progress :=
  match old, new with
  | .object oldName, .object newName =>
    let (calls, code) := Code.retypeCalls slot oldName newName false p.body.code
    let (loads, code) :=
      match a.adapters slot new old with
      | some adapter => Code.insertAdapters slot adapter code
      | none => (0, code)
    { p with body := { p.body with code } }.tally (calls + loads)
  | _, _ => p

/-- Gives a parameter and its local another type. -/
def replace (p : Progress) (index : Nat) (t : ValueType) : Except Stopped Progress := do
  let entry ← p.entry index
  match p.body.signature.params[index]? with
  | none => p.stop (.ordinalOutOfRange index p.body.signature.params.length)
  | some param =>
    let params := p.body.signature.params.set index { param with type := t }
    let locals :=
      match p.body.localIndex? entry.slot param.name with
      | some i => p.body.locals.modify i ({ · with type := t })
      | none => p.body.locals
    let body := { p.body with signature := { p.body.signature with params }, locals }
    let p := a.adaptCode entry.slot param.type t (resize entry (a.widths t) { p with body })
    return (← p.rebuild a.widths).changedFrames

def replaceAll (edits : List (Nat × ValueType)) (p : Progress) : Except Stopped Progress :=
  edits.foldlM (fun p (index, t) => a.replace p index t) p

/-- Drops a parameter and redirects its references to another one. The references are parked while
the slots move. -/
def substitute (p : Progress) (target source : Nat) : Except Stopped Progress :=
  if target = source then p.stop (.script (.selfSubstitution (.substitute target source)))
  else do
    let _ ← p.entry source
    let p ← p.dropParameter a.widths target placeholderSlot
    let entry ← p.entry (if target < source then source - 1 else source)
    return p.retarget placeholderSlot entry.slot

/-- Substitutes in the given order. `gone` holds the targets dropped before. -/
def substituteAll : List (Nat × Nat) → List Nat → Progress → Except Stopped Progress
  | [], _, p => .ok p
  | (target, source) :: rest, gone, p => do
    let p ← a.substitute p target (← p.currentOrdinal source gone)
    substituteAll rest (target :: gone) p

/-- The order of ordinals that reorders lead to: for every new ordinal the old one. -/
def orderOf (length : Nat) : List Reorder → List Nat → Except ApplyError (List Nat)
  | [], order => .ok order
  | .swap i j :: rest, order =>
    if max i j < length then orderOf length rest (exchange order i j)
    else .error (.ordinalOutOfRange (max i j) length)
  | .move source dest :: rest, order =>
    if max source dest < length then orderOf length rest (relocate order source dest)
    else .error (.ordinalOutOfRange (max source dest) length)

/-- The slots that an order moves, each with its new slot. -/
def movedSlots (before after : SlotTable) (order : List Nat) : List (Nat × Nat) :=
  order.zipIdx.filterMap fun (old, new) =>
    match before.slotOf? old, after.slotOf? new with
    | some source, some dest => if source = dest then none else some (source, dest)
    | _, _ => none

/-- Where a slot goes. Of two entries for one slot the later one counts. -/
def destination (moves : List (Nat × Nat)) (slot : Nat) : Nat :=
  (moves.reverse.lookup slot).getD slot

/-- Brings the parameters into an order and moves all their slots at once. -/
def permute (order : List Nat) (p : Progress) : Except Stopped Progress :=
  if order = List.range order.length then .ok p
  else do
    let before := p.table
    let signature := p.body.signature
    let params := order.filterMap (signature.params[·]?)
    let p := { p with body := { p.body with signature := { signature with params } } }
    let p ← p.rebuild a.widths
    let moves := movedSlots before p.table order
    let p := (p.remapSlots (destination moves)).changedFrames
    return if moves.isEmpty then p else p.changedSlots

def reorderAll (reorders : List Reorder) (p : Progress) : Except Stopped Progress :=
  let length := p.body.signature.params.length
  match orderOf length reorders (List.range length) with
  | .ok order => a.permute order p
  | .error err => p.stop err

/-- Drops a parameter that no code in reach uses, or any if live removals are not rejected. What
still refers to it can no longer be reached. -/
def remove (p : Progress) (index : Nat) : Except Stopped Progress := do
  let entry ← p.entry index
  let live := p.body.code.reachable
  let use := (p.body.code.positionsOf entry.slot).find? fun i => live[i]?.getD false
  match use with
  | some position =>
    if a.rejectLiveRemovals then p.stop (.unsupportedRemoval index entry.slot position)
    else p.dropParameter a.widths index unreachableSlot
  | none => p.dropParameter a.widths index unreachableSlot

def removeAll (indices : List Nat) (p : Progress) : Except Stopped Progress :=
  (descending indices).foldlM a.remove p

/-- Puts code in the place of every instruction that addresses a slot. Returns how many there
were. -/
def expand (slot : Nat) (replacement : Code) (p : Progress) : Progress :=
  let code := p.body.code.flatMap fun i => if i.slot? = some slot then replacement else [i]
  { p with body := { p.body with code } }.tally (p.body.code.positionsOf slot).length

/-- Drops a parameter and puts generated code in the place of its loads. A parameter that is written
to cannot be inlined, and one that is never loaded needs no generator. -/
def inline (p : Progress) (index generator : Nat) : Except Stopped Progress := do
  let entry ← p.entry index
  let uses := p.body.code.positionsOf entry.slot
  match uses.find? fun i => p.body.code[i]?.any (·.isWrite) with
  | some position => p.stop (.inlineWrite index position)
  | none =>
    let replacement := if uses.isEmpty then some [] else a.generators.generate? generator
    match replacement with
    | none => p.stop (.missingGenerator generator index)
    | some replacement =>
      return expand placeholderSlot replacement
        (← p.dropParameter a.widths index placeholderSlot)

def inlineAll (edits : List (Nat × Nat)) (p : Progress) : Except Stopped Progress :=
  (descendingByFirst edits).foldlM (fun p (index, generator) => a.inline p index generator) p

end Reparam.Applier
