import Reparam.Json.Token

/-! Natural numbers are read off their decimal digits, and those that fit into 64 bits come back as
they were. -/
namespace Reparam.Json

variable {n : Nat} {ds rest : List Char}

/-- No number goes on into the text. -/
def EndsNumber (rest : List Char) : Prop :=
  ∀ c ∈ rest.head?, c.isDigit = false ∧ c ≠ '.' ∧ c ≠ 'e' ∧ c ≠ 'E'

/-- No digits go on into the text. -/
def EndsDigits (rest : List Char) : Prop := ∀ c ∈ rest.head?, c.isDigit = false

theorem endsNumber_nil : EndsNumber [] := by
  intro c hc
  cases hc

theorem EndsNumber.endsDigits (h : EndsNumber rest) : EndsDigits rest := fun c hc => (h c hc).1

theorem needDigits_append (hds : ∀ c ∈ ds, c.isDigit = true) (hne : ds ≠ [])
    (hrest : EndsDigits rest) : needDigits (ds ++ rest) = .ok (ds, rest) := by
  have htake : rest.takeWhile Char.isDigit = [] := by
    cases rest with
    | nil => rfl
    | cons c rest => exact List.takeWhile_cons_of_neg (by simp [hrest c rfl])
  have hdrop : rest.dropWhile Char.isDigit = rest := by
    cases rest with
    | nil => rfl
    | cons c rest => exact List.dropWhile_cons_of_neg (by simp [hrest c rfl])
  have hspan : spanDigits (ds ++ rest) = (ds, rest) := by
    rw [spanDigits, List.takeWhile_append_of_pos hds, List.dropWhile_append_of_pos hds, htake,
      hdrop, List.append_nil]
  rw [needDigits, hspan]
  cases ds with
  | nil => exact absurd rfl hne
  | cons d ds => rfl

theorem scanFraction_none (h : EndsNumber rest) : scanFraction rest = .ok (none, rest) := by
  cases rest with
  | nil => rfl
  | cons c rest => simp [scanFraction, (h c rfl).2.1]

theorem scanExponent_none (h : EndsNumber rest) : scanExponent rest = .ok (none, rest) := by
  cases rest with
  | nil => rfl
  | cons c rest => simp [scanExponent, (h c rfl).2.2.1, (h c rfl).2.2.2]

theorem isDigit_toDigits : ∀ c ∈ Nat.toDigits 10 n, c.isDigit = true := fun _ hc =>
  Nat.isDigit_of_mem_toDigits (by omega) (by omega) hc

theorem head_toDigits_append (n : Nat) (rest : List Char) :
    (Nat.toDigits 10 n ++ rest).head? = (Nat.toDigits 10 n).head? := by
  obtain ⟨d, ds, hd⟩ := List.exists_cons_of_ne_nil (@Nat.toDigits_ne_nil n 10)
  rw [hd]
  rfl

/-- Only zero is written with a leading zero. -/
theorem length_toDigits_of_zero (h : (Nat.toDigits 10 n).head? = some '0') :
    (Nat.toDigits 10 n).length = 1 := by
  induction n using Nat.strongRecOn with
  | ind n ih =>
    by_cases hn : n < 10
    · rw [Nat.toDigits_of_lt_base hn]
      rfl
    · rw [Nat.toDigits_eq_if (by omega), if_neg hn, head_toDigits_append] at h
      have hlen := ih (n / 10) (by omega) h
      obtain ⟨c, hc⟩ := List.length_eq_one_iff.1 hlen
      rw [hc, List.head?_cons, Option.some.injEq] at h
      have hvalue : Nat.ofDigitChars 10 (Nat.toDigits 10 (n / 10)) 0 = 0 := by
        rw [hc, h]
        rfl
      rw [Nat.ofDigitChars_toDigits (by omega) (by omega)] at hvalue
      omega

namespace Numeral

/-- A natural number as it is written. -/
def ofNat (n : Nat) : Numeral := ⟨false, Nat.toDigits 10 n, none, none⟩

end Numeral

theorem scanNumeral_toDigits (h : EndsNumber rest) :
    scanNumeral (Nat.toDigits 10 n ++ rest) = .ok (.ofNat n, rest) := by
  have hne : Nat.toDigits 10 n ≠ [] := Nat.toDigits_ne_nil
  have hsign : (Nat.toDigits 10 n ++ rest).head? ≠ some '-' := by
    intro hminus
    rw [head_toDigits_append] at hminus
    exact absurd (isDigit_toDigits '-' (List.mem_of_head? hminus)) (by decide)
  have hzero : ¬ ((Nat.toDigits 10 n).head? = some '0' ∧ (Nat.toDigits 10 n).length ≠ 1) := by
    rintro ⟨hhead, hlen⟩
    exact hlen (length_toDigits_of_zero hhead)
  simp only [scanNumeral, hsign, decide_false, ↓reduceIte,
    needDigits_append isDigit_toDigits hne h.endsDigits, hzero, scanFraction_none h, scanExponent_none h,
    Numeral.ofNat]

namespace Magnitude

theorem le_ofDigitChars (ds : List Char) (init : Nat) : init ≤ Nat.ofDigitChars 10 ds init := by
  rw [Nat.ofDigitChars_eq_ofDigitChars_zero]
  have hpos : 1 ≤ 10 ^ ds.length := Nat.one_le_pow _ _ (by omega)
  exact Nat.le_add_right_of_le (Nat.le_mul_of_pos_left init hpos)

/-- While the number fits into 64 bits all of its digits are taken in. -/
theorem foldl_takeWhole {init : Nat} (h : Nat.ofDigitChars 10 ds init < wordLimit) :
    ds.foldl takeWhole ⟨init, 0, 0, false⟩ = ⟨Nat.ofDigitChars 10 ds init, 0, 0, false⟩ := by
  induction ds generalizing init with
  | nil => rfl
  | cons d ds ih =>
    rw [Nat.ofDigitChars_cons] at h ⊢
    have hnext : Nat.ofDigitChars 10 [d] init < wordLimit := by
      have := le_ofDigitChars ds (10 * init + (d.toNat - '0'.toNat))
      exact Nat.lt_of_le_of_lt this h
    rw [List.foldl_cons, ← ih h, takeWhole, if_pos ⟨rfl, hnext⟩]
    rfl

end Magnitude

theorem nearestDouble_le (n : Nat) : nearestDouble n ≤ 2 * n := by
  unfold nearestDouble
  split
  · omega
  · rename_i hlarge
    have hn : n ≠ 0 := by
      rintro rfl
      exact hlarge (by decide)
    have hunit : 2 ^ (n.log2 - 52) ≤ n :=
      Nat.le_trans (Nat.pow_le_pow_right (by omega) (Nat.sub_le _ _)) (Nat.log2_self_le hn)
    have hlow : n / 2 ^ (n.log2 - 52) * 2 ^ (n.log2 - 52) ≤ n := Nat.div_mul_le_self _ _
    simp only [Nat.pow_eq]
    split
    · rw [Nat.add_mul]
      omega
    · omega

theorem two_mul_wordLimit_lt : 2 * wordLimit < doubleLimit := by decide +kernel

namespace Numeral

theorem digitsNumber_toDigits : digitsNumber (Nat.toDigits 10 n) = n :=
  Nat.ofDigitChars_toDigits (by omega) (by omega)

theorem magnitude_ofNat (h : n < wordLimit) : (ofNat n).magnitude = ⟨n, 0, 0, false⟩ := by
  have hvalue : Nat.ofDigitChars 10 (Nat.toDigits 10 n) 0 = n := digitsNumber_toDigits
  have hfold := @Magnitude.foldl_takeWhole (Nat.toDigits 10 n) 0 (by rw [hvalue]; exact h)
  rw [hvalue] at hfold
  exact hfold

theorem isTooLarge_ofNat (h : n < wordLimit) : (ofNat n).isTooLarge = false := by
  have hmagnitude := magnitude_ofNat h
  have hpower : (ofNat n).power = 0 := by
    rw [power, hmagnitude]
    rfl
  have hone : nearestDouble (Nat.pow 10 (Int.toNat 0)) = 1 := by decide
  have hpowers : ¬ (308 : Int) < 0 := by decide
  have hdouble : ¬ doubleLimit ≤ nearestDouble n := by
    have := nearestDouble_le n
    have := two_mul_wordLimit_lt
    omega
  simp only [isTooLarge, hmagnitude, hpower, hone, hpowers, hdouble, Nat.mul_one, decide_false,
    ↓reduceIte, ite_self]

theorem natural_ofNat (h : n < wordLimit) : (ofNat n).natural? = some n := by
  simp only [natural?, ofNat, Option.isSome_none, Bool.or_self, Bool.false_eq_true, ↓reduceIte,
    digitsNumber_toDigits, h]

theorem natural_lt {numeral : Numeral} (h : numeral.natural? = some n) : n < wordLimit := by
  unfold natural? at h
  split at h
  · cases h
  · split at h
    · cases h
      assumption
    · cases h

end Numeral
end Reparam.Json
