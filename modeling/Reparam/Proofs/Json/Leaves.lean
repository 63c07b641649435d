import Reparam.Json.Reader
import Reparam.Proofs.Json.Naturals
import Reparam.Proofs.Json.Quoting

/-! Values without parts. They are read as they were written if their numbers fit into 64 bits, and
no larger numbers are ever read. -/
namespace Reparam.Json

open Token

variable {n : Nat} {t : Token} {ts : List Token} {leaf : Leaf}

namespace Leaf

/-- The tokens of a value without parts. -/
def tokens : Leaf → List Token
  | natural n => [.number (.ok (.ofNat n))]
  | text s => [.text (s.toList.map .char) none]
  | other => [.word none]

/-- A number of the value fits into 64 bits. -/
def Small : Leaf → Prop
  | natural n => n < wordLimit
  | _ => True

end Leaf

theorem readLeaf_number (h : n < wordLimit) :
    readLeaf (.number (.ok (.ofNat n))) = .ok (.natural n) := by
  simp [readLeaf, Numeral.isTooLarge_ofNat h, Numeral.natural_ofNat h]

theorem readLeaf_text (s : String) :
    readLeaf (.text (s.toList.map .char) none) = .ok (.text s) := by
  simp [readLeaf, readPieces_chars, Except.map]

theorem readValue_leaf (h : leaf.Small) (outside : Nat) (rest : List Token) :
    readValue outside (leaf.tokens ++ rest) = .ok leaf := by
  cases leaf with
  | natural n => exact readLeaf_number h
  | text s => exact readLeaf_text s
  | other => rfl

theorem readNatural_number (h : n < wordLimit) (rest : List Token) :
    readNatural (.number (.ok (.ofNat n)) :: rest) = .ok n := by
  simp [readNatural, readPlain, readLeaf_number h]

theorem readText_text (s : String) (rest : List Token) :
    readText (.text (s.toList.map .char) none :: rest) = .ok s := by
  simp [readText, readPlain, readLeaf_text]

/-- Numbers are read only if they fit into 64 bits. -/
theorem readLeaf_small (h : t.readLeaf = .ok leaf) : leaf.Small := by
  unfold readLeaf at h
  split at h
  · rename_i pieces fault
    cases hread : readPieces pieces fault with
    | error f =>
      rw [hread] at h
      cases h
    | ok s =>
      rw [hread] at h
      cases h
      trivial
  · rename_i numeral
    split at h
    · cases h
    · cases hnatural : numeral.natural? with
      | none =>
        rw [hnatural] at h
        cases h
        trivial
      | some n =>
        rw [hnatural] at h
        cases h
        exact Numeral.natural_lt hnatural
  · cases h
  · cases h
    trivial
  · cases h
  · cases h

theorem readValue_small {outside : Nat} (h : readValue outside ts = .ok leaf) : leaf.Small := by
  have hcontainer {α : Type} {x : Except Fault α} (hx : (x.map fun _ => Leaf.other) = .ok leaf) :
      leaf.Small := by
    cases x with
    | error f => cases hx
    | ok a =>
      cases hx
      trivial
  unfold readValue at h
  split at h
  · cases h
  split at h
  · exact hcontainer h
  · exact hcontainer h
  · exact readLeaf_small h

end Reparam.Json
