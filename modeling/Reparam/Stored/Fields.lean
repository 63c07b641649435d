import Reparam.Edit.Basic
import Reparam.Json.Token

/-! Edits as stored: a tag for the kind, and fields by name. Types are stored as descriptors. -/
namespace Reparam

open Json (Leaf)

/-- Numbers of generators lie below this bound. -/
def generatorLimit : Nat := Nat.pow 2 32

namespace EditKind

def tag : EditKind → String
  | insert => "insert"
  | replace => "replace"
  | substitute => "substitute"
  | swap => "swap"
  | move => "move"
  | remove => "remove"
  | inline => "inline"

def ofTag? : String → Option EditKind
  | "insert" => some insert
  | "replace" => some replace
  | "substitute" => some substitute
  | "swap" => some swap
  | "move" => some move
  | "remove" => some remove
  | "inline" => some inline
  | _ => none

/-- The names of the fields of a kind, in the order in which they are written. -/
def fieldNames : EditKind → List String
  | insert | replace => ["at", "type"]
  | swap => ["a", "b"]
  | move => ["from", "to"]
  | remove => ["at"]
  | substitute => ["target", "source"]
  | inline => ["target", "generator"]

end EditKind

namespace Edit

/-- The values of the fields, in the order of their names. -/
def fieldValues : Edit → List Leaf
  | insert index t | replace index t => [.natural index, .text t.descriptor]
  | swap a b => [.natural a, .natural b]
  | move source dest => [.natural source, .natural dest]
  | remove index => [.natural index]
  | substitute target source => [.natural target, .natural source]
  | inline target generator => [.natural target, .natural generator]

/-- The edit of a kind with the given values of its fields. -/
def ofValues? : EditKind → List Leaf → Option Edit
  | .insert, [.natural index, .text t] => (ValueType.ofDescriptor t).toOption.map (insert index)
  | .replace, [.natural index, .text t] => (ValueType.ofDescriptor t).toOption.map (replace index)
  | .swap, [.natural a, .natural b] => some (swap a b)
  | .move, [.natural source, .natural dest] => some (move source dest)
  | .remove, [.natural index] => some (remove index)
  | .substitute, [.natural target, .natural source] => some (substitute target source)
  | .inline, [.natural target, .natural generator] =>
    if generator < generatorLimit then some (inline target generator) else none
  | _, _ => none

/-- The one value with a name. Neither none nor several will do. -/
def valueOf? (fields : List (String × Leaf)) (name : String) : Option Leaf :=
  match fields.filter (·.1 = name) with
  | [(_, value)] => some value
  | _ => none

/-- The edit of a kind with the given fields, in any order. Fields of other names do not matter. -/
def ofFields? (kind : EditKind) (fields : List (String × Leaf)) : Option Edit :=
  (kind.fieldNames.mapM (valueOf? fields)).bind (ofValues? kind)

end Edit
end Reparam
