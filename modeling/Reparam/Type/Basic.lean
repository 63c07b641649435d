/-! Value types of parameters and locals, their slot widths, source form and order. -/
namespace Reparam

/-- A type that a parameter or a local can have. A class is known by its internal name, with `/`
between the packages. -/
inductive ValueType where
  | boolean | byte | char | short | int | long | float | double
  | object (name : String)
  | array (element : ValueType)
deriving DecidableEq, Repr, Inhabited

namespace ValueType

/-- Arrays do not count as objects. -/
def isObject : ValueType → Bool
  | object _ => true
  | _ => false

def isReference : ValueType → Bool
  | object _ | array _ => true
  | _ => false

/-- The primitives that take two slots. -/
def isWide : ValueType → Bool
  | long | double => true
  | _ => false

def className? : ValueType → Option String
  | object name => some name
  | _ => none

/-- The last segment of a class name. -/
def simpleName? (t : ValueType) : Option String :=
  t.className?.map fun name =>
    String.ofList (name.toList.reverse.takeWhile (· ≠ '/')).reverse

/-- The number of array layers around the innermost element type. -/
def depth : ValueType → Nat
  | array element => element.depth + 1
  | _ => 0

/-- The innermost element type. -/
def innermost : ValueType → ValueType
  | array element => element.innermost
  | t => t

/-- The form that source code uses: dots between packages and brackets after an element type. -/
def source : ValueType → String
  | boolean => "boolean"
  | byte => "byte"
  | char => "char"
  | short => "short"
  | int => "int"
  | long => "long"
  | float => "float"
  | double => "double"
  | object name => String.ofList (name.toList.map fun c => if c = '/' then '.' else c)
  | array element => element.source ++ "[]"

/-- The place of a type's outermost form in the order of types. -/
def rank : ValueType → Nat
  | boolean => 0
  | byte => 1
  | char => 2
  | short => 3
  | int => 4
  | long => 5
  | float => 6
  | double => 7
  | object _ => 8
  | array _ => 9

/-- Primitives come first, then classes by name, then arrays by element type. -/
def order : ValueType → ValueType → Ordering
  | object a, object b => compare a b
  | array a, array b => a.order b
  | a, b => compare a.rank b.rank

/-- The list in ascending order. -/
def sort (types : List ValueType) : List ValueType :=
  types.mergeSort fun a b => (a.order b).isLE

end ValueType

/-- A host's answer to how many consecutive slots a value takes. -/
abbrev Widths := ValueType → Nat

/-- Wide primitives take two slots and everything else one. -/
def standardWidths : Widths := fun t => if t.isWide then 2 else 1

/-- The standard widths but for the listed types; the first entry of a type counts. -/
def Widths.overriding (exceptions : List (ValueType × Nat)) : Widths :=
  fun t => (exceptions.lookup t).getD (standardWidths t)

end Reparam
