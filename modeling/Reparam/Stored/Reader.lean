import Reparam.Json.Reader
import Reparam.Stored.Writer

/-! Reading stored scripts. A text is read twice: first for the version alone, so that a script of
another version is told apart from a malformed one, and then for the edits. Objects may also be
given as arrays of their values. The first fault from left to right counts. -/
namespace Reparam

open Json (Fault Leaf Member Contents)

inductive LoadError where
  | unsupportedVersion (found : Nat)
  | malformed (fault : Fault)
  | notText
deriving DecidableEq, Repr

/-- The wording of a malformed text is left to the caller, who is told the kind of its fault. -/
def LoadError.message? : LoadError → Option String
  | unsupportedVersion found =>
    some s!"unsupported edit script format version {found} (this build reads {formatVersion})"
  | malformed _ => none
  | notText => some "cannot read edit script: stream did not contain valid UTF-8"

/-- Versions lie below this bound. -/
def versionLimit : Nat := Nat.pow 2 32

namespace Stored

/-- A condition on values; the text as such is sound. -/
def require (condition : Bool) : Except Fault Unit :=
  if condition then .ok () else .error .mismatch

def fromOption {α : Type} : Option α → Except Fault α
  | some a => .ok a
  | none => .error .mismatch

def readVersion (ts : List Json.Token) : Except Fault Nat := do
  let version ← Json.readNatural ts
  require (version < versionLimit)
  return version

/-- Takes a member for the one value with a name. A second one of that name is refused at its key. -/
def takeMember {α : Type} (name : String) (read : List Json.Token → Except Fault α) (found : Option α)
    (m : Member) : Except Fault (Option α) :=
  if m.key ≠ name then .ok found
  else do
    require found.isNone
    return some (← read (← m.value))

/-- The value with a name among the members of an object, and what is left behind the object. -/
def readMember {α : Type} (name : String) (read : List Json.Token → Except Fault α)
    (c : Contents Member) : Except Fault (Option α × List Json.Token) := do
  let found ← c.entries.foldlM (takeMember name read) none
  let rest ← c.ending
  return (found, rest)

/-- Nothing may be left behind a text. -/
def finish (rest : List Json.Token) : Except Fault Unit :=
  if rest.isEmpty then .ok () else .error .malformed

/-- Reads the version off a whole text. In an array it stands alone. -/
def readHeader : List Json.Token → Except Fault Nat
  | .openObject :: ts => do
    let (found, rest) ← readMember "version" readVersion (Json.members ts)
    let version ← fromOption found
    finish rest
    return version
  | .openArray :: .closeArray :: _ => .error .mismatch
  | .openArray :: ts => do
    let version ← readVersion ts
    match ts.tail with
    | [] => .error .truncated
    | .closeArray :: rest => do
      finish rest
      return version
    | _ => .error .malformed
  | ts => do
    let _ ← Json.readPlain ts
    .error .mismatch

def readKind (ts : List Json.Token) : Except Fault EditKind := do
  fromOption (EditKind.ofTag? (← Json.readText ts))

/-- The number of containers around the fields of an edit. -/
def fieldDepth : Nat := 3

/-- What is known of an edit so far: its kind and its fields, the last one first. -/
structure Collected where
  kind : Option EditKind := none
  fields : List (String × Leaf) := []

/-- Takes in a member of an edit. A second tag is refused at its key. -/
def Collected.take (p : Collected) (m : Member) : Except Fault Collected :=
  if m.key = "op" then do
    require p.kind.isNone
    return { p with kind := some (← readKind (← m.value)) }
  else do
    return { p with fields := (m.key, ← Json.readValue fieldDepth (← m.value)) :: p.fields }

/-- Reads an edit that is given by its members. -/
def editOfMembers (c : Contents Member) : Except Fault Edit := do
  let p ← c.entries.foldlM Collected.take {}
  let _ ← c.ending
  let kind ← fromOption p.kind
  fromOption (Edit.ofFields? kind p.fields)

/-- Reads an edit that is given by its tag and the values of its fields in order. -/
def editOfItems (c : Contents (List Json.Token)) : Except Fault Edit :=
  match c.entries with
  | [] => do
    let _ ← c.ending
    .error .mismatch
  | tag :: values => do
    let kind ← readKind tag
    let values ← values.mapM (Json.readValue fieldDepth)
    let _ ← c.ending
    fromOption (Edit.ofValues? kind values)

def readEdit : List Json.Token → Except Fault Edit
  | .openObject :: ts => editOfMembers (Json.members ts)
  | .openArray :: ts => editOfItems (Json.items ts)
  | ts => do
    let _ ← Json.readPlain ts
    .error .mismatch

def readEdits (ts : List Json.Token) : Except Fault Script := do
  let c ← Json.readItems ts
  let edits ← c.entries.mapM readEdit
  let _ ← c.ending
  return edits

/-- Reads the edits off a whole text. If there is no list of them, the script is empty. -/
def readScript : List Json.Token → Except Fault Script
  | .openObject :: ts => do
    let (found, rest) ← readMember "operations" readEdits (Json.members ts)
    finish rest
    return found.getD []
  | _ => .error .mismatch

end Stored

/-- Reads a script from its stored tokens. -/
def Script.ofTokens (ts : List Json.Token) : Except LoadError Script :=
  match Stored.readHeader ts with
  | .error f => .error (.malformed f)
  | .ok version =>
    if version ≠ formatVersion then .error (.unsupportedVersion version)
    else
      match Stored.readScript ts with
      | .error f => .error (.malformed f)
      | .ok s => .ok s

/-- Reads a script from its stored text. -/
def Script.ofText (text : String) : Except LoadError Script :=
  Script.ofTokens (Json.tokens text.toList)

/-- Reads a script from the octets of its stored text. -/
def Script.ofOctets (octets : ByteArray) : Except LoadError Script :=
  match String.fromUTF8? octets with
  | some text => Script.ofText text
  | none => .error .notText

end Reparam
