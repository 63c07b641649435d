import Reparam.Type.Descriptor
import Reparam.Parameter.Basic

/-! Method signatures and method descriptors. -/
namespace Reparam

/-- The parameters of a method in order, with what decides where they live in slots. A method that
returns nothing has no result type. -/
structure Signature where
  params : List Parameter
  result : Option ValueType
  isStatic : Bool
deriving DecidableEq, Repr, Inhabited

namespace Signature

/-- The slots that the receiver takes ahead of the first parameter. -/
def receiverSlots (s : Signature) : Nat := if s.isStatic then 0 else 1

def types (s : Signature) : List ValueType := Parameter.types s.params

def descriptor (s : Signature) : String :=
  String.ofList ('(' :: s.types.flatMap (·.descriptorChars) ++
    ')' :: (s.result.map (·.descriptorChars)).getD ['V'])

/-- Reads types up to the closing parenthesis and returns them with the text behind it. -/
def readParams (cs : List Char) : Except DescriptorFault (List ValueType × List Char) :=
  match cs with
  | [] => .error .malformedMethod
  | c :: tail =>
    if c = ')' then .ok ([], tail)
    else
      match _h : ValueType.read (c :: tail) with
      | .error fault => .error fault
      | .ok (t, rest) =>
        match readParams rest with
        | .error fault => .error fault
        | .ok (types, result) => .ok (t :: types, result)
termination_by cs.length
decreasing_by exact ValueType.read_shortens _h

/-- Reads a method descriptor; its parameters have no names. A fault in the result type is reported
with the text of the result type alone. -/
def ofDescriptor (text : String) (isStatic : Bool) : Except DescriptorError Signature :=
  match text.toList with
  | '(' :: cs =>
    match readParams cs with
    | .error fault => .error ⟨fault, text⟩
    | .ok (types, ['V']) => .ok ⟨types.map .unnamed, none, isStatic⟩
    | .ok (types, rest) =>
      match ValueType.ofDescriptor (String.ofList rest) with
      | .error e => .error e
      | .ok result => .ok ⟨types.map .unnamed, some result, isStatic⟩
  | _ => .error ⟨.malformedMethod, text⟩

end Signature
end Reparam
