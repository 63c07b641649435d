import Reparam.Apply.Phases

/-! Applying scripts to methods. -/
namespace Reparam

/-- A body with the slot table that was made for it last. -/
structure Method where
  body : Body
  slots : SlotTable := {}
deriving DecidableEq, Repr

namespace Applier

/-- Runs the phases in their fixed order: insertions, replacements, substitutions, reorders,
removals, inlinings. -/
def run (a : Applier) (f : FlatScript) (b : Body) : Except Stopped Progress :=
  match SlotTable.ofSignature a.widths b.signature with
  | .error shortage => .error ⟨.slotAllocation shortage.required, b⟩
  | .ok before => do
    let p ← a.insertAll f.insertions { body := b, table := before }
    let p ← a.replaceAll f.replacements p
    let p ← a.substituteAll (descendingByFirst f.substitutions) [] p
    let p ← a.reorderAll f.settledReorders p
    let p ← a.removeAll f.removals p
    let p ← a.inlineAll f.inlines p
    return if p.table = before then p else p.changedSlots

/-- Applies a flat script. The slot table is replaced only if all goes well; the body may be left
half done. -/
def applyFlat (a : Applier) (f : FlatScript) (m : Method) : Except ApplyError Changed × Method :=
  match a.run f m.body with
  | .ok p => (.ok p.changed, ⟨p.body, p.table⟩)
  | .error stopped => (.error stopped.error, { m with body := stopped.body })

/-- Applies a layered script to the current parameters of a method. -/
def apply (a : Applier) (s : Script) (m : Method) : Except ApplyError Changed × Method :=
  match s.flatten m.body.signature.params.length with
  | .ok f => a.applyFlat f m
  | .error err => (.error (.script err), m)

end Applier
end Reparam
