import Reparam.Type.Basic

/-! Field descriptors: the canonical text of a type. Reading accepts what writing produces for
types whose class names are not empty and hold no semicolon. -/
namespace Reparam

inductive DescriptorFault where
  | unexpectedEnd
  | unknownTag (tag : Char)
  | unterminated
  | emptyClassName
  | trailing
  | malformedMethod
deriving DecidableEq, Repr

/-- What is wrong with a descriptor, and the text it was looked for in. -/
structure DescriptorError where
  fault : DescriptorFault
  text : String
deriving DecidableEq, Repr

def DescriptorError.message (e : DescriptorError) : String :=
  match e.fault with
  | .unexpectedEnd => s!"descriptor `{e.text}` ends before a type tag"
  | .unknownTag tag => s!"unknown descriptor tag `{tag}` in `{e.text}`"
  | .unterminated => s!"class name in `{e.text}` is missing its `;`"
  | .emptyClassName => s!"empty class name in `{e.text}`"
  | .trailing => s!"unexpected characters after the type in `{e.text}`"
  | .malformedMethod => s!"malformed method descriptor `{e.text}`"

namespace ValueType

def descriptorChars : ValueType → List Char
  | boolean => ['Z']
  | byte => ['B']
  | char => ['C']
  | short => ['S']
  | int => ['I']
  | long => ['J']
  | float => ['F']
  | double => ['D']
  | object name => 'L' :: name.toList ++ [';']
  | array element => '[' :: element.descriptorChars

def descriptor (t : ValueType) : String := String.ofList t.descriptorChars

def primitive? : Char → Option ValueType
  | 'Z' => some boolean
  | 'B' => some byte
  | 'C' => some char
  | 'S' => some short
  | 'I' => some int
  | 'J' => some long
  | 'F' => some float
  | 'D' => some double
  | _ => none

/-- The first octet of a character's UTF-8 form, as the character of that number. An unknown tag
is reported by it. -/
def leadOctet (c : Char) : Char :=
  let n := c.toNat
  if n < 0x80 then c
  else if n < 0x800 then Char.ofNat (0xC0 + n / 0x40)
  else if n < 0x10000 then Char.ofNat (0xE0 + n / 0x1000)
  else Char.ofNat (0xF0 + n / 0x40000)

/-- Reads a class name up to its semicolon. -/
def readClass (cs : List Char) : Except DescriptorFault (ValueType × List Char) :=
  match cs.dropWhile (· ≠ ';') with
  | [] => .error .unterminated
  | _ :: rest =>
    match cs.takeWhile (· ≠ ';') with
    | [] => .error .emptyClassName
    | name => .ok (object (String.ofList name), rest)

/-- Reads one type from the front and returns it with the text that is left. -/
def read : List Char → Except DescriptorFault (ValueType × List Char)
  | [] => .error .unexpectedEnd
  | c :: cs =>
    if c = '[' then
      match read cs with
      | .ok (element, rest) => .ok (array element, rest)
      | .error fault => .error fault
    else if c = 'L' then readClass cs
    else
      match primitive? c with
      | some t => .ok (t, cs)
      | none => .error (.unknownTag (leadOctet c))

theorem readClass_shortens {cs rest : List Char} {t : ValueType}
    (h : readClass cs = .ok (t, rest)) : rest.length < cs.length := by
  have hd := (List.dropWhile_suffix (p := (· ≠ ';')) (l := cs)).length_le
  unfold readClass at h
  split at h
  · cases h
  · rename_i tail hc
    rw [hc, List.length_cons] at hd
    split at h
    · cases h
    · cases h
      omega

theorem read_shortens {cs rest : List Char} {t : ValueType}
    (h : read cs = .ok (t, rest)) : rest.length < cs.length := by
  induction cs generalizing t with
  | nil => simp [read] at h
  | cons c cs ih =>
    rw [read] at h
    split at h
    · split at h
      · rename_i hr
        simp only [Except.ok.injEq, Prod.mk.injEq] at h
        have := ih (h.2 ▸ hr)
        simp
        omega
      · simp at h
    · split at h
      · have := readClass_shortens h
        simp
        omega
      · split at h <;> simp_all

/-- Reads a text that is one type and nothing else. -/
def ofDescriptor (text : String) : Except DescriptorError ValueType :=
  match read text.toList with
  | .ok (t, []) => .ok t
  | .ok (_, _ :: _) => .error ⟨.trailing, text⟩
  | .error fault => .error ⟨fault, text⟩

end ValueType
end Reparam
