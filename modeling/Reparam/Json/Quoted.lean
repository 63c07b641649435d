/-! Quoted texts. A quote, a backslash and the control characters are written as escapes. Reading
takes a text apart first and puts escaped surrogates together afterwards, since a text that is only
skipped may hold lone ones. -/
namespace Reparam.Json

/-- Why a text cannot be read: it is no JSON, it is JSON of another shape than wanted, or it ends
early. -/
inductive Fault where
  | malformed | mismatch | truncated
deriving DecidableEq, Repr

/-- Short escapes: the letter behind the backslash and the character it stands for. -/
def shortEscapes : List (Char × Char) :=
  [('"', '"'), ('\\', '\\'), ('/', '/'), ('b', '\x08'), ('f', '\x0c'), ('n', '\n'), ('r', '\r'),
   ('t', '\t')]

def hexValue? (c : Char) : Option Nat :=
  if '0' ≤ c ∧ c ≤ '9' then some (c.toNat - '0'.toNat)
  else if 'a' ≤ c ∧ c ≤ 'f' then some (c.toNat - 'a'.toNat + 10)
  else if 'A' ≤ c ∧ c ≤ 'F' then some (c.toNat - 'A'.toNat + 10)
  else none

/-- The number that hexadecimal digits stand for. -/
def hexNumber? (digits : List Char) : Option Nat :=
  digits.foldlM (fun n c => (hexValue? c).map (16 * n + ·)) 0

/-- A part of a text: a character, or half of one that was escaped in two halves. -/
inductive Piece where
  | char (c : Char)
  | surrogate (n : Nat)
deriving DecidableEq, Repr

/-- What four hexadecimal digits stand for. -/
def Piece.ofCode (n : Nat) : Piece :=
  if 0xD800 ≤ n ∧ n < 0xE000 then .surrogate n else .char (Char.ofNat n)

/-- What comes behind an opening quote: the parts of the text, and what is left behind the closing
quote or a fault. -/
structure Scanned where
  pieces : List Piece
  ending : Except Fault (List Char)

namespace Scanned

def fault (f : Fault) : Scanned := ⟨[], .error f⟩

def push (p : Piece) (s : Scanned) : Scanned := { s with pieces := p :: s.pieces }

end Scanned

/-- The fault of an escape that lacks hexadecimal digits: four octets have to be left for them. -/
def hexFault (cs : List Char) : Fault :=
  if 4 ≤ cs.foldl (fun octets c => octets + c.utf8Size) 0 then .malformed else .truncated

/-- Takes a text apart up to its closing quote. -/
def scan : List Char → Scanned
  | [] => .fault .truncated
  | '"' :: rest => ⟨[], .ok rest⟩
  | ['\\'] => .fault .truncated
  | '\\' :: 'u' :: a :: b :: c :: d :: rest =>
    match hexNumber? [a, b, c, d] with
    | some n => (scan rest).push (.ofCode n)
    | none => .fault .malformed
  | '\\' :: 'u' :: rest => .fault (hexFault rest)
  | '\\' :: letter :: rest =>
    match shortEscapes.lookup letter with
    | some c => (scan rest).push (.char c)
    | none => .fault .malformed
  | c :: rest => if c < ' ' then .fault .malformed else (scan rest).push (.char c)

theorem scan_shortens {cs rest : List Char} (h : (scan cs).ending = .ok rest) :
    rest.length < cs.length := by
  fun_induction scan cs <;> simp_all [Scanned.fault, Scanned.push] <;> omega

/-- What the parts of a text come to. -/
inductive Joined where
  | text (cs : List Char)
  | pending
  | broken
deriving DecidableEq, Repr

def Joined.push (c : Char) : Joined → Joined
  | text cs => text (c :: cs)
  | j => j

def isLeading (n : Nat) : Bool := 0xD800 ≤ n && n < 0xDC00

def isTrailing (n : Nat) : Bool := 0xDC00 ≤ n && n < 0xE000

/-- The character that two halves make. -/
def combine (leading trailing : Nat) : Char :=
  Char.ofNat ((leading - 0xD800) * 0x400 + (trailing - 0xDC00) + 0x10000)

/-- Puts the parts of a text together. The result is pending if the last part is a first half, and
broken if a half stands alone. -/
def join : List Piece → Joined
  | [] => .text []
  | .char c :: rest => (join rest).push c
  | [.surrogate n] => if isLeading n then .pending else .broken
  | .surrogate n :: .surrogate m :: rest =>
    if isLeading n && isTrailing m then (join rest).push (combine n m) else .broken
  | .surrogate _ :: .char _ :: _ => .broken

/-- The text of some parts, where a fault may have followed them. A half that stands alone comes
before that fault. -/
def readPieces (pieces : List Piece) (fault : Option Fault) : Except Fault String :=
  match join pieces, fault with
  | .broken, _ => .error .malformed
  | _, some f => .error f
  | .pending, none => .error .malformed
  | .text cs, none => .ok (String.ofList cs)

def hexDigit (n : Nat) : Char := Char.ofNat (if n < 10 then '0'.toNat + n else 'a'.toNat + n - 10)

/-- How a character is written between quotes. -/
def escape (c : Char) : List Char :=
  if c = '"' then ['\\', '"']
  else if c = '\\' then ['\\', '\\']
  else if c = '\x08' then ['\\', 'b']
  else if c = '\x0c' then ['\\', 'f']
  else if c = '\n' then ['\\', 'n']
  else if c = '\r' then ['\\', 'r']
  else if c = '\t' then ['\\', 't']
  else if c < ' ' then
    ['\\', 'u', '0', '0', hexDigit (c.toNat / 16), hexDigit (c.toNat % 16)]
  else [c]

def quote (cs : List Char) : List Char := '"' :: cs.flatMap escape ++ ['"']

end Reparam.Json
