import Reparam.Edit.Flatten
import Reparam.Slots.Snapshot

/-! What applying a script to a body needs, what it changes, and why it stops. -/
namespace Reparam

inductive ApplyError where
  | unsupportedRemoval (ordinal slot position : Nat)
  | slotAllocation (required : Nat)
  | ordinalOutOfRange (ordinal length : Nat)
  | missingLocal (ordinal slot : Nat)
  | missingGenerator (generator ordinal : Nat)
  | inlineWrite (ordinal position : Nat)
  | script (error : ScriptError)
deriving DecidableEq, Repr

def ApplyError.message : ApplyError → String
  | unsupportedRemoval ordinal slot position =>
    s!"cannot remove parameter {ordinal}: slot {slot} is still used by instruction {position}"
  | slotAllocation required =>
    s!"parameters need {required} slots, only {slotLimit} are addressable"
  | ordinalOutOfRange ordinal length =>
    s!"parameter {ordinal} is out of range for {length} parameters"
  | missingLocal ordinal slot => s!"parameter {ordinal} has no declared local at slot {slot}"
  | missingGenerator generator ordinal =>
    s!"no instructions registered for inline generator {generator} (parameter {ordinal})"
  | inlineWrite ordinal position =>
    s!"cannot inline parameter {ordinal}: instruction {position} writes to it"
  | script error => error.message

/-- What an application changed: the parameters or their types, the slot of a parameter, the code.
Frames are stale once they describe parameters that are no longer there. -/
structure Changed where
  signature : Bool := false
  slots : Bool := false
  instructions : Bool := false
  frames : Bool := false
deriving DecidableEq, Repr

/-- Code that turns a value of the actual type, just loaded from a slot, into one of the expected
type. -/
abbrev Adapters := (slot : Nat) → (actual expected : ValueType) → Option Code

/-- Adapters by types, the same for every slot. Of two entries for the same types the later one
counts. -/
def Adapters.ofList (entries : List (ValueType × ValueType × Code)) : Adapters :=
  fun _ actual expected =>
    (entries.reverse.find? fun (a, e, _) => a = actual && e = expected).map (·.2.2)

/-- Generated code by number. -/
structure Generators where
  entries : List (Nat × Code) := []
deriving DecidableEq, Repr

namespace Generators

/-- Registers code under a number, in the place of what stood there before. -/
def register (gs : Generators) (generator : Nat) (code : Code) : Generators :=
  ⟨(generator, code) :: gs.entries.filter (·.1 ≠ generator)⟩

def ofList (entries : List (Nat × Code)) : Generators :=
  entries.foldl (fun gs (generator, code) => gs.register generator code) {}

def length (gs : Generators) : Nat := gs.entries.length

def generate? (gs : Generators) (generator : Nat) : Option Code := gs.entries.lookup generator

end Generators

/-- What the caller decides about an application. An inserted parameter is named by the stem and its
ordinal. With `rejectLiveRemovals` a parameter that is used by code in reach cannot be removed. -/
structure Applier where
  widths : Widths := standardWidths
  adapters : Adapters := fun _ _ _ => none
  generators : Generators := {}
  injectedStem : String := "injected_"
  rejectLiveRemovals : Bool := true

end Reparam
