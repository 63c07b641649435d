import Reparam.Type.Basic
import Reparam.Text.Lowercase

/-! Names that tools give to parameters they know nothing about: a stem for the type and a counter,
a mapping's own prefix, an obfuscator's placeholder, or the lowercased class name. They carry no
intent of an author. -/
namespace Reparam.Naming

/-- The stems that are in use for values of a type. -/
def stems : ValueType → List String
  | .int | .long => ["i", "j", "k", "l"]
  | .byte => ["b"]
  | .char => ["c"]
  | .short => ["short"]
  | .boolean => ["flag", "bl"]
  | .double => ["d"]
  | .float => ["f"]
  | .object "java/io/File" => ["file"]
  | .object "java/lang/String" => ["s"]
  | .object "java/lang/Class" => ["oclass"]
  | .object "java/lang/Long" => ["olong"]
  | .object "java/lang/Byte" => ["obyte"]
  | .object "java/lang/Short" => ["oshort"]
  | .object "java/lang/Boolean" => ["obool"]
  | .object "java/lang/Package" => ["opackage"]
  | .object "java/lang/Enum" => ["oenum"]
  | _ => []

/-- The digits after a stem, if the name is the stem and digits only. -/
def counter? (name stem : List Char) : Option (List Char) :=
  (stem.isPrefixOf? name).filter (·.all Char.isDigit)

def isObfuscated (name : List Char) : Bool :=
  match counter? name ['$', '$'] with
  | some (_ :: _) => true
  | _ => false

/-- The name is one that a tool would give to a value of this type. -/
def isGenerated (name : String) (t : ValueType) : Bool :=
  let cs := name.toList
  ['p', '_'].isPrefixOf cs || isObfuscated cs ||
    (stems t).any (fun stem => (counter? cs stem.toList).isSome) ||
    name != "this" && t.simpleName?.any fun simple =>
      (counter? cs (Text.lowercase simple.toList)).isSome

/-- Counters above this bound are not read. -/
def counterLimit : Nat := Nat.pow 2 32

/-- The counter of a name made from a stem of the type, zero if no digit follows the stem. Names
of the other kinds have none. -/
def ordinal? (name : String) (t : ValueType) : Option Nat :=
  (stems t).findSome? fun stem =>
    (counter? name.toList stem.toList).bind fun digits =>
      let n := Nat.ofDigitChars 10 digits 0
      if n < counterLimit then some n else none

end Reparam.Naming
