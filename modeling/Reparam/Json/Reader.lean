import Reparam.Json.Token

/-! Reading values off a list of tokens. A value that is of no use is skipped: only its form is
looked at, however deep it is. A value that is read has to be sound in all its parts, and containers
nest no deeper than a limit. -/
namespace Reparam.Json

/-- Containers nest no deeper than this where they are read. -/
def depthLimit : Nat := 127

namespace Token

/-- What is wrong with a value without parts that is skipped. -/
def skipLeaf : Token → Except Fault Unit
  | text _ none | number (.ok _) | word none => .ok ()
  | text _ (some f) | word (some f) => .error f
  | _ => .error .malformed

/-- A value without parts that is read. -/
def readLeaf : Token → Except Fault Leaf
  | text pieces fault => (readPieces pieces fault).map .text
  | number (.ok numeral) =>
    if numeral.isTooLarge then .error .malformed
    else .ok ((numeral.natural?.map .natural).getD .other)
  | number (.error broken) => .error (if broken.atEnd then .truncated else .malformed)
  | word none => .ok .other
  | word (some f) => .error f
  | _ => .error .malformed

end Token

inductive Bracket where
  | object | array
deriving DecidableEq, Repr

/-- What may come next: a value, a value or the end of an empty array, a key or the end of an empty
object, a key, a colon, or a comma or an end. -/
inductive Expected where
  | value | item | member | key | colon | next
deriving DecidableEq, Repr

/-- How a value is gone over: how its leaves are looked at and how deep containers may nest. -/
structure Rigour where
  leaf : Token → Except Fault Unit
  levels : Option Nat

def Rigour.skipping : Rigour := ⟨Token.skipLeaf, none⟩

def Rigour.reading (levels : Nat) : Rigour := ⟨fun t => t.readLeaf.map fun _ => (), some levels⟩

namespace Rigour

/-- Opens a container if it may nest here. -/
def openBracket (r : Rigour) (stack : List Bracket) (b : Bracket) (inside : Expected) :
    Except Fault (List Bracket × Expected) :=
  if r.levels.any (· ≤ stack.length) then .error .malformed else .ok (b :: stack, inside)

/-- Begins a value, which is over at once if it has no parts. -/
def startValue (r : Rigour) (stack : List Bracket) : Token →
    Except Fault (List Bracket × Expected)
  | .openObject => r.openBracket stack .object .member
  | .openArray => r.openBracket stack .array .item
  | t => (r.leaf t).map fun _ => (stack, .next)

/-- Goes over one token inside the containers on the stack. -/
def step (r : Rigour) (stack : List Bracket) (expected : Expected) (t : Token) :
    Except Fault (List Bracket × Expected) :=
  match expected, stack, t with
  | .value, _, t => r.startValue stack t
  | .item, _ :: outer, .closeArray => .ok (outer, .next)
  | .item, _, t => r.startValue stack t
  | .member, _ :: outer, .closeObject => .ok (outer, .next)
  | .member, _, .text pieces fault | .key, _, .text pieces fault =>
    (r.leaf (.text pieces fault)).map fun _ => (stack, .colon)
  | .colon, _, .colon => .ok (stack, .value)
  | .next, .array :: _, .comma => .ok (stack, .value)
  | .next, .object :: _, .comma => .ok (stack, .key)
  | .next, .array :: outer, .closeArray => .ok (outer, .next)
  | .next, .object :: outer, .closeObject => .ok (outer, .next)
  | _, _, _ => .error .malformed

/-- Goes over tokens until the value is over, and returns what is left. -/
def go (r : Rigour) (stack : List Bracket) (expected : Expected) :
    List Token → Except Fault (List Token)
  | [] => .error .truncated
  | t :: ts =>
    match r.step stack expected t with
    | .error f => .error f
    | .ok ([], .next) => .ok ts
    | .ok (stack, expected) => r.go stack expected ts

theorem go_shortens {r : Rigour} {stack : List Bracket} {expected : Expected}
    {ts rest : List Token} (h : r.go stack expected ts = .ok rest) : rest.length < ts.length := by
  induction ts generalizing stack expected with
  | nil => simp [go] at h
  | cons t ts ih =>
    rw [go] at h
    split at h
    · simp at h
    · simp_all
    · have := ih h
      simp only [List.length_cons]
      omega

end Rigour

/-- Skips a value. -/
def skipValue (ts : List Token) : Except Fault (List Token) := Rigour.skipping.go [] .value ts

theorem skipValue_shortens {ts rest : List Token} (h : skipValue ts = .ok rest) :
    rest.length < ts.length := Rigour.go_shortens h

/-- What a container holds, as far as it can be gone over, and what is left behind it. -/
structure Contents (α : Type) where
  entries : List α
  ending : Except Fault (List Token)

def Contents.push {α : Type} (a : α) (c : Contents α) : Contents α :=
  { c with entries := a :: c.entries }

/-- A key, and the tokens from its value on. -/
structure Member where
  key : String
  value : Except Fault (List Token)

/-- The tokens behind a colon. -/
def afterColon : List Token → Except Fault (List Token)
  | [] => .error .truncated
  | .colon :: ts => .ok ts
  | _ => .error .malformed

theorem afterColon_shortens {ts rest : List Token} (h : afterColon ts = .ok rest) :
    rest.length < ts.length := by
  unfold afterColon at h
  split at h <;> simp_all

/-- The members of an object from a key on. -/
def membersFrom : List Token → Contents Member
  | [] => ⟨[], .error .truncated⟩
  | .text pieces fault :: ts =>
    match readPieces pieces fault with
    | .error f => ⟨[], .error f⟩
    | .ok key =>
      match _hc : afterColon ts with
      | .error f => ⟨[⟨key, .error f⟩], .error f⟩
      | .ok value =>
        match _hv : skipValue value with
        | .error f => ⟨[⟨key, .ok value⟩], .error f⟩
        | .ok [] => ⟨[⟨key, .ok value⟩], .error .truncated⟩
        | .ok (.closeObject :: rest) => ⟨[⟨key, .ok value⟩], .ok rest⟩
        | .ok (.comma :: rest) => (membersFrom rest).push ⟨key, .ok value⟩
        | .ok _ => ⟨[⟨key, .ok value⟩], .error .malformed⟩
  | _ => ⟨[], .error .malformed⟩
termination_by ts => ts.length
decreasing_by
  have := afterColon_shortens _hc
  have := skipValue_shortens _hv
  simp_all
  omega

/-- The members of an object whose opening bracket was read. -/
def members : List Token → Contents Member
  | .closeObject :: ts => ⟨[], .ok ts⟩
  | ts => membersFrom ts

/-- The items of an array from one on: for each of them the tokens from it on. -/
def itemsFrom (ts : List Token) : Contents (List Token) :=
  match ts with
  | [] => ⟨[], .error .truncated⟩
  | t :: ts =>
    match _hv : skipValue (t :: ts) with
    | .error f => ⟨[t :: ts], .error f⟩
    | .ok [] => ⟨[t :: ts], .error .truncated⟩
    | .ok (.closeArray :: rest) => ⟨[t :: ts], .ok rest⟩
    | .ok (.comma :: rest) => (itemsFrom rest).push (t :: ts)
    | .ok _ => ⟨[t :: ts], .error .malformed⟩
termination_by ts.length
decreasing_by
  have := skipValue_shortens _hv
  simp_all
  omega

/-- The items of an array whose opening bracket was read. -/
def items : List Token → Contents (List Token)
  | .closeArray :: ts => ⟨[], .ok ts⟩
  | ts => itemsFrom ts

/-- Reads a value inside a number of containers. Its parts are of no use. -/
def readValue (outside : Nat) : List Token → Except Fault Leaf
  | [] => .error .truncated
  | t :: ts =>
    match t with
    | .openObject | .openArray =>
      ((Rigour.reading (depthLimit - outside)).go [] .value (t :: ts)).map fun _ => .other
    | t => t.readLeaf

/-- Reads a value that has to be without parts. -/
def readPlain : List Token → Except Fault Leaf
  | [] => .error .truncated
  | .openObject :: _ | .openArray :: _ => .error .mismatch
  | t :: _ => t.readLeaf

def readNatural (ts : List Token) : Except Fault Nat :=
  match readPlain ts with
  | .ok (.natural n) => .ok n
  | .ok _ => .error .mismatch
  | .error f => .error f

def readText (ts : List Token) : Except Fault String :=
  match readPlain ts with
  | .ok (.text s) => .ok s
  | .ok _ => .error .mismatch
  | .error f => .error f

/-- Reads an array that has to be there. -/
def readItems : List Token → Except Fault (Contents (List Token))
  | .openArray :: ts => .ok (items ts)
  | ts => (readPlain ts).bind fun _ => .error .mismatch

end Reparam.Json
