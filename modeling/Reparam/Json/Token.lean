import Reparam.Json.Numeral

/-! The tokens of a JSON text. A token may be faulty; nothing is read behind one that is. -/
namespace Reparam.Json

inductive Token where
  | openObject | closeObject | openArray | closeArray | comma | colon
  | text (pieces : List Piece) (fault : Option Fault)
  | number (numeral : Except BrokenNumeral Numeral)
  | word (fault : Option Fault)
  | stray

/-- A value without parts, as far as it is of use. -/
inductive Leaf where
  | natural (n : Nat)
  | text (s : String)
  | other
deriving DecidableEq, Repr

namespace Token

def isBlank (c : Char) : Bool := c = ' ' || c = '\n' || c = '\t' || c = '\r'

def punctuation? : Char → Option Token
  | '{' => some openObject
  | '}' => some closeObject
  | '[' => some openArray
  | ']' => some closeArray
  | ',' => some comma
  | ':' => some colon
  | _ => none

/-- What has to follow the first letter of a word. -/
def wordRest? : Char → Option (List Char)
  | 't' => some ['r', 'u', 'e']
  | 'f' => some ['a', 'l', 's', 'e']
  | 'n' => some ['u', 'l', 'l']
  | _ => none

/-- What is left behind letters that have to be there. -/
def expect : List Char → List Char → Except Fault (List Char)
  | [], cs => .ok cs
  | _ :: _, [] => .error .truncated
  | w :: wanted, c :: cs => if c = w then expect wanted cs else .error .malformed

/-- Reads the token that begins with a character. There is nothing left behind a faulty token. -/
def scanToken (c : Char) (rest : List Char) : Token × List Char :=
  match punctuation? c with
  | some t => (t, rest)
  | none =>
    if c = '"' then
      match scan rest with
      | ⟨pieces, .ok rest⟩ => (text pieces none, rest)
      | ⟨pieces, .error f⟩ => (text pieces (some f), [])
    else if c = '-' || c.isDigit then
      match scanNumeral (c :: rest) with
      | .ok (numeral, rest) => (number (.ok numeral), rest)
      | .error broken => (number (.error broken), [])
    else
      match wordRest? c with
      | none => (stray, [])
      | some wanted =>
        match expect wanted rest with
        | .ok rest => (word none, rest)
        | .error f => (word (some f), [])

theorem expect_shortens {wanted cs rest : List Char} (h : expect wanted cs = .ok rest) :
    rest.length ≤ cs.length := by
  fun_induction expect wanted cs <;> simp_all
  omega

theorem scanToken_shortens (c : Char) (rest : List Char) :
    (scanToken c rest).2.length ≤ rest.length := by
  unfold scanToken
  split
  · simp
  · split
    · split
      · rename_i h
        exact Nat.le_of_lt (scan_shortens (congrArg Scanned.ending h))
      · simp
    · split
      · split
        · rename_i h
          exact Nat.le_of_lt_succ (scanNumeral_shortens h)
        · simp
      · split
        · simp
        · split
          · exact expect_shortens ‹_›
          · simp

end Token

/-- The tokens of a text, up to the first faulty one. -/
def tokens : List Char → List Token
  | [] => []
  | c :: rest =>
    if Token.isBlank c then tokens rest
    else (Token.scanToken c rest).1 :: tokens (Token.scanToken c rest).2
termination_by cs => cs.length
decreasing_by
  · simp
  · exact Nat.lt_succ_of_le (Token.scanToken_shortens c _)

end Reparam.Json
