import Reparam.Json.Quoted

/-! Numbers. A natural number has neither sign, fraction nor exponent. Other numbers are of no use
here, but one that is too large for a double cannot be read at all. -/
namespace Reparam.Json

/-- The parts of a number, as digits. An exponent comes with whether it is negative. -/
structure Numeral where
  negative : Bool
  whole : List Char
  fraction : Option (List Char)
  exponent : Option (Bool × List Char)
deriving DecidableEq, Repr

/-- Numbers that fit into 64 bits lie below this bound. -/
def wordLimit : Nat := Nat.pow 2 64

/-- The number that decimal digits stand for. -/
def digitsNumber (digits : List Char) : Nat := Nat.ofDigitChars 10 digits 0

/-- The digits at the front of a text, and what is left. -/
def spanDigits (cs : List Char) : List Char × List Char :=
  (cs.takeWhile Char.isDigit, cs.dropWhile Char.isDigit)

/-- A number that breaks off, with whether the text ends there. -/
structure BrokenNumeral where
  atEnd : Bool
deriving DecidableEq, Repr

/-- Digits that have to be there. -/
def needDigits (cs : List Char) : Except BrokenNumeral (List Char × List Char) :=
  match spanDigits cs with
  | ([], rest) => .error ⟨rest.isEmpty⟩
  | (digits, rest) => .ok (digits, rest)

/-- Reads an exponent, if there is one. -/
def scanExponent : List Char → Except BrokenNumeral (Option (Bool × List Char) × List Char)
  | [] => .ok (none, [])
  | c :: cs =>
    if c = 'e' ∨ c = 'E' then
      let negative := cs.head? = some '-'
      let digits := if negative ∨ cs.head? = some '+' then cs.tail else cs
      match needDigits digits with
      | .ok (digits, rest) => .ok (some (negative, digits), rest)
      | .error broken => .error broken
    else .ok (none, c :: cs)

/-- Reads a fraction, if there is one. -/
def scanFraction : List Char → Except BrokenNumeral (Option (List Char) × List Char)
  | [] => .ok (none, [])
  | c :: cs =>
    if c = '.' then
      match needDigits cs with
      | .ok (digits, rest) => .ok (some digits, rest)
      | .error broken => .error broken
    else .ok (none, c :: cs)

/-- Reads a number off the front of a text. More digits may not follow a leading zero. -/
def scanNumeral (cs : List Char) : Except BrokenNumeral (Numeral × List Char) :=
  let negative := cs.head? = some '-'
  match needDigits (if negative then cs.tail else cs) with
  | .error broken => .error broken
  | .ok (whole, cs) =>
    if whole.head? = some '0' ∧ whole.length ≠ 1 then .error ⟨false⟩
    else
      match scanFraction cs with
      | .error broken => .error broken
      | .ok (fraction, cs) =>
        match scanExponent cs with
        | .error broken => .error broken
        | .ok (exponent, cs) => .ok (⟨negative, whole, fraction, exponent⟩, cs)

theorem needDigits_shortens {cs digits rest : List Char}
    (h : needDigits cs = .ok (digits, rest)) : rest.length < cs.length := by
  have happ := congrArg List.length (List.takeWhile_append_dropWhile (p := Char.isDigit) (l := cs))
  rw [List.length_append] at happ
  simp only [needDigits, spanDigits] at h
  split at h
  · simp at h
  · rename_i ds tail hne heq
    simp only [Prod.mk.injEq] at heq
    simp only [Except.ok.injEq, Prod.mk.injEq] at h
    have : 0 < (cs.takeWhile Char.isDigit).length := by
      rw [List.length_pos_iff]
      intro he
      exact hne (heq.1 ▸ he)
    rw [← h.2, ← heq.2]
    omega

theorem scanExponent_shortens {cs rest : List Char} {e : Option (Bool × List Char)}
    (h : scanExponent cs = .ok (e, rest)) : rest.length ≤ cs.length := by
  unfold scanExponent at h
  split at h
  · simp_all
  · rename_i c cs
    simp only at h
    split at h
    · split at h
      · rename_i digits tail hd
        have := needDigits_shortens hd
        simp only [Except.ok.injEq, Prod.mk.injEq] at h
        rw [← h.2]
        split at this <;> simp_all <;> omega
      · simp at h
    · simp_all

theorem scanFraction_shortens {cs rest : List Char} {f : Option (List Char)}
    (h : scanFraction cs = .ok (f, rest)) : rest.length ≤ cs.length := by
  unfold scanFraction at h
  split at h
  · simp_all
  · split at h
    · split at h
      · rename_i digits tail hd
        have := needDigits_shortens hd
        simp only [Except.ok.injEq, Prod.mk.injEq] at h
        rw [← h.2]
        simp only [List.length_cons]
        omega
      · simp at h
    · simp_all

theorem scanNumeral_shortens {cs rest : List Char} {n : Numeral}
    (h : scanNumeral cs = .ok (n, rest)) : rest.length < cs.length := by
  simp only [scanNumeral] at h
  split at h
  · simp at h
  · rename_i whole tail hw
    have hw := needDigits_shortens hw
    have hc : (if cs.head? = some '-' then cs.tail else cs).length ≤ cs.length := by
      split <;> simp
    split at h
    · simp at h
    · split at h
      · simp at h
      · rename_i hf
        split at h
        · simp at h
        · rename_i he
          have := scanFraction_shortens hf
          have := scanExponent_shortens he
          simp only [Except.ok.injEq, Prod.mk.injEq] at h
          rw [← h.2]
          omega

/-- The whole number of 53 binary digits, or more with zeros behind them, that is nearest. A tie
goes to the even one. -/
def nearestDouble (n : Nat) : Nat :=
  if n < Nat.pow 2 53 then n
  else
    let unit := Nat.pow 2 (n.log2 - 52)
    let low := n / unit
    let rest := n % unit
    if 2 * rest > unit ∨ 2 * rest = unit ∧ low % 2 = 1 then (low + 1) * unit else low * unit

/-- Numbers from here on are beyond the largest double. -/
def doubleLimit : Nat := Nat.pow 2 1024 - Nat.pow 2 970

/-- The leading digits of a number with a power of ten: digits are taken in as long as they fit into
64 bits. Those left out of the whole part count for a power of ten each, and those of the fraction
for nothing. -/
structure Magnitude where
  significand : Nat
  leftOut : Nat
  taken : Nat
  full : Bool
deriving DecidableEq, Repr

def Magnitude.takeWhole (m : Magnitude) (d : Char) : Magnitude :=
  let next := Nat.ofDigitChars 10 [d] m.significand
  if m.leftOut = 0 ∧ next < wordLimit then { m with significand := next }
  else { m with leftOut := m.leftOut + 1 }

def Magnitude.takeFraction (m : Magnitude) (d : Char) : Magnitude :=
  let next := Nat.ofDigitChars 10 [d] m.significand
  if !m.full ∧ next < wordLimit then { m with significand := next, taken := m.taken + 1 }
  else { m with full := true }

namespace Numeral

def magnitude (n : Numeral) : Magnitude :=
  (n.fraction.getD []).foldl .takeFraction (n.whole.foldl .takeWhole ⟨0, 0, 0, false⟩)

def power (n : Numeral) : Int :=
  let written : Int :=
    match n.exponent with
    | some (true, digits) => - digitsNumber digits
    | some (false, digits) => digitsNumber digits
    | none => 0
  n.magnitude.leftOut - n.magnitude.taken + written

/-- The number is beyond the largest double. -/
def isTooLarge (n : Numeral) : Bool :=
  if n.magnitude.significand = 0 ∨ n.power < 0 then false
  else if 308 < n.power then true
  else doubleLimit ≤ nearestDouble n.magnitude.significand * nearestDouble (Nat.pow 10 n.power.toNat)

/-- The number, if it is a natural one that fits into 64 bits. -/
def natural? (n : Numeral) : Option Nat :=
  if n.negative || n.fraction.isSome || n.exponent.isSome then none
  else if digitsNumber n.whole < wordLimit then some (digitsNumber n.whole)
  else none

end Numeral
end Reparam.Json
