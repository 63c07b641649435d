import Reparam.Parameter.Naming

/-! Parameters, and parameters at their place in a list. -/
namespace Reparam

/-- One declared parameter. A synthetic name comes from a tool: it helps to tell parameters apart
and is no part of what a parameter is. -/
structure Parameter where
  type : ValueType
  name : Option String
  synthetic : Bool
deriving DecidableEq, Repr, Inhabited

namespace Parameter

def unnamed (t : ValueType) : Parameter := ⟨t, none, false⟩

/-- A named parameter is synthetic if its name looks generated. -/
def named (t : ValueType) (name : String) : Parameter :=
  ⟨t, some name, Naming.isGenerated name t⟩

def generated (t : ValueType) (name : String) : Parameter := ⟨t, some name, true⟩

def types (params : List Parameter) : List ValueType := params.map (·.type)

end Parameter

theorem types_unnamed (types : List ValueType) :
    Parameter.types (types.map .unnamed) = types := by
  simp [Parameter.types, Function.comp_def, Parameter.unnamed]

/-- A parameter together with its ordinal in the list that it comes from. -/
structure Placed extends Parameter where
  ordinal : Nat
deriving DecidableEq, Repr

namespace Placed

/-- Gives every parameter its index. -/
def ofList (params : List Parameter) : List Placed :=
  params.zipIdx.map fun (p, i) => ⟨p, i⟩

def sameType (p q : Placed) : Bool := p.type == q.type

/-- Names agree unless both are known and exactly one of them is synthetic. -/
def sameName (p q : Placed) : Bool :=
  p.name.isNone || q.name.isNone || p.synthetic == q.synthetic

/-- The types are equal and the names agree. -/
def agrees (p q : Placed) : Bool := p.sameType q && p.sameName q

end Placed
end Reparam
