import Reparam.Edit.Script
import Reparam.Stored.Fields

/-! The written form of a script: an object with the version of the format and the list of edits,
either without blanks or with a line for every entry. -/
namespace Reparam

/-- The version of the format that is written and read. -/
def formatVersion : Nat := 1

/-- How entries are set apart. -/
inductive Layout where
  | compact | pretty
deriving DecidableEq, Repr

namespace Layout

/-- What stands before an entry inside a number of containers. -/
def lineBreak (level : Nat) : Layout → List Char
  | compact => []
  | pretty => '\n' :: List.replicate (2 * level) ' '

/-- What stands between a key and its value. -/
def colon : Layout → List Char
  | compact => [':']
  | pretty => [':', ' ']

/-- Entries between brackets inside a number of containers. -/
def enclose (layout : Layout) (level : Nat) (left right : Char) : List (List Char) → List Char
  | [] => [left, right]
  | entry :: entries =>
    let indent := layout.lineBreak (level + 1)
    left :: indent ++ entry ++ entries.flatMap (fun e => ',' :: indent ++ e) ++
      layout.lineBreak level ++ [right]

def member (layout : Layout) (key : String) (value : List Char) : List Char :=
  Json.quote key.toList ++ layout.colon ++ value

end Layout

def Json.Leaf.write : Json.Leaf → List Char
  | natural n => Nat.toDigits 10 n
  | text s => Json.quote s.toList
  | other => ['n', 'u', 'l', 'l']

def Edit.write (layout : Layout) (e : Edit) : List Char :=
  let fields := ("op", Json.Leaf.text e.kind.tag) :: e.kind.fieldNames.zip e.fieldValues
  layout.enclose 2 '{' '}' (fields.map fun (key, value) => layout.member key value.write)

def Script.write (layout : Layout) (s : Script) : List Char :=
  layout.enclose 0 '{' '}'
    [layout.member "version" (Nat.toDigits 10 formatVersion),
      layout.member "operations" (layout.enclose 1 '[' ']' (s.map (·.write layout)))]

/-- The stored text of a script. -/
def Script.toText (layout : Layout) (s : Script) : String := String.ofList (s.write layout)

end Reparam
