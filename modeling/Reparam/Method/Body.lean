import Reparam.Method.Signature
import Reparam.Method.Instruction

/-! Method bodies: a signature, the declared locals and the code. -/
namespace Reparam

/-- The labels that a local is declared between. -/
structure Scope where
  start : Nat := 0
  stop : Nat := 0
deriving DecidableEq, Repr, Inhabited

/-- An entry of the table of declared locals. -/
structure Local where
  name : String
  type : ValueType
  slot : Nat
  scope : Scope
deriving DecidableEq, Repr

structure Body where
  signature : Signature
  locals : List Local
  code : Code
deriving DecidableEq, Repr

namespace Body

def outerScope? (code : Code) : Option Scope :=
  code.outerLabels?.map fun (start, stop) => ⟨start, stop⟩

/-- Locals for parameters from an ordinal on, laid out one behind the other. A parameter without a
name is called by its ordinal. -/
def parameterLocals (widths : Widths) (scope : Scope) : Nat → Nat → List Parameter → List Local
  | _, _, [] => []
  | ordinal, slot, p :: rest =>
    ⟨p.name.getD s!"arg{ordinal}", p.type, slot, scope⟩ ::
      parameterLocals widths scope (ordinal + 1) (slot + widths p.type) rest

/-- A body that declares the receiver, if it has one, and every parameter over the whole method. -/
def declaring (widths : Widths) (signature : Signature) (code : Code) : Body :=
  let scope := (outerScope? code).getD {}
  let receiver : List Local :=
    if signature.isStatic then [] else [⟨"this", .object "java/lang/Object", 0, scope⟩]
  ⟨signature,
    receiver ++ parameterLocals widths scope 0 signature.receiverSlots signature.params, code⟩

/-- The scope for new locals: that of the local at slot zero, else the outermost labels. -/
def methodScope (b : Body) : Scope :=
  match b.locals.find? (·.slot = 0) with
  | some l => l.scope
  | none => (outerScope? b.code).getD {}

/-- The index of the local at a slot, one with the given name before any other. -/
def localIndex? (b : Body) (slot : Nat) (name : Option String) : Option Nat :=
  (b.locals.findIdx? fun l => l.slot = slot && name.all (· == l.name)) <|>
    b.locals.findIdx? (·.slot = slot)

end Body
end Reparam
