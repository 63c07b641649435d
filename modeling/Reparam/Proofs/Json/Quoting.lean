import Reparam.Json.Quoted

/-! Quoted texts are read as they were before they were quoted, whatever characters they hold. -/
namespace Reparam.Json

variable {c : Char} {n : Nat}

theorem hexValue_hexDigit : ∀ d, d < 16 → hexValue? (hexDigit d) = some d := by decide

theorem hexNumber_octet (h : n < 256) :
    hexNumber? ['0', '0', hexDigit (n / 16), hexDigit (n % 16)] = some n := by
  have hhigh := hexValue_hexDigit (n / 16) (by omega)
  have hlow := hexValue_hexDigit (n % 16) (by omega)
  have hzero : hexValue? '0' = some 0 := by decide
  simp [hexNumber?, hhigh, hlow, hzero]
  omega

theorem toNat_of_control (h : c < ' ') : c.toNat < 32 := h

/-- A character is read off its written form, and nothing else is touched. -/
theorem scan_escape (c : Char) (rest : List Char) :
    scan (escape c ++ rest) = (scan rest).push (.char c) := by
  unfold escape
  split
  · subst c; rfl
  split
  · subst c; rfl
  split
  · subst c; rfl
  split
  · subst c; rfl
  split
  · subst c; rfl
  split
  · subst c; rfl
  split
  · subst c; rfl
  split
  · rename_i hcontrol
    have hsmall := toNat_of_control hcontrol
    have hcode : Piece.ofCode c.toNat = .char c := by
      have hplain : ¬ (0xD800 ≤ c.toNat ∧ c.toNat < 0xE000) := by omega
      simp [Piece.ofCode, hplain]
    simp [scan, hexNumber_octet (show c.toNat < 256 by omega), hcode]
  · rename_i hback _ _ _ _ _ hcontrol
    simp [scan, hback, hcontrol]

theorem scan_quoted (cs rest : List Char) :
    scan (cs.flatMap escape ++ '"' :: rest) = ⟨cs.map .char, .ok rest⟩ := by
  induction cs with
  | nil => rfl
  | cons c cs ih =>
    simp only [List.flatMap_cons, List.append_assoc, scan_escape, ih, List.map_cons,
      Scanned.push]

theorem join_chars (cs : List Char) : join (cs.map .char) = .text cs := by
  induction cs with
  | nil => rfl
  | cons c cs ih => simp only [List.map_cons, join, ih, Joined.push]

theorem readPieces_chars (s : String) : readPieces (s.toList.map .char) none = .ok s := by
  simp only [readPieces, join_chars, String.ofList_toList]

end Reparam.Json
