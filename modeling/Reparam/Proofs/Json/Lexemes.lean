import Reparam.Proofs.Json.Containers

/-! The tokens of a text, part by part. Blanks do not count, and a part is read as its own tokens
wherever no number goes on behind it. -/
namespace Reparam.Json

variable {c left right : Char} {t l r : Token} {cs before behind rest : List Char} {n : Nat}
  {ts : List Token} {pieces : List Piece} {entries : List (List Char)} {tss : List (List Token)}

/-- All of the text is blank. -/
def IsBlank (cs : List Char) : Prop := ∀ c ∈ cs, Token.isBlank c = true

theorem isBlank_nil : IsBlank [] := by
  intro c hc
  cases hc

theorem tokens_blank (h : IsBlank before) : tokens (before ++ rest) = tokens rest := by
  induction before with
  | nil => rfl
  | cons c before ih =>
    rw [List.cons_append, tokens, if_pos (h c List.mem_cons_self)]
    exact ih fun d hd => h d (List.mem_cons_of_mem _ hd)

theorem tokens_nil : tokens [] = [] := by rw [tokens]

theorem tokens_punctuation (h : Token.punctuation? c = some t) :
    tokens (c :: rest) = t :: tokens rest := by
  have hblank : ¬ Token.isBlank c = true := by
    unfold Token.punctuation? at h
    split at h
    all_goals first | decide | cases h
  rw [tokens, if_neg hblank, Token.scanToken, h]

theorem endsNumber_punctuation (h : Token.punctuation? c = some t) : EndsNumber (c :: rest) := by
  intro d hd
  cases hd
  unfold Token.punctuation? at h
  split at h
  all_goals first | decide | cases h

theorem endsNumber_blank (h : IsBlank before) (hrest : EndsNumber rest) :
    EndsNumber (before ++ rest) := by
  cases before with
  | nil => exact hrest
  | cons c before =>
    intro d hd
    cases hd
    have hblank := h c List.mem_cons_self
    simp only [Token.isBlank, Bool.or_eq_true, decide_eq_true_eq] at hblank
    rcases hblank with ((rfl | rfl) | rfl) | rfl
    all_goals decide

/-- A quoted text that can be taken apart is one token. -/
theorem tokens_text (h : scan (cs ++ '"' :: rest) = ⟨pieces, .ok rest⟩) :
    tokens ('"' :: (cs ++ '"' :: rest)) = .text pieces none :: tokens rest := by
  have hblank : ¬ Token.isBlank '"' = true := by decide
  have hpunctuation : Token.punctuation? '"' = none := rfl
  rw [tokens, if_neg hblank]
  simp only [Token.scanToken, hpunctuation, h, ↓reduceIte]

theorem tokens_quote (s : String) (rest : List Char) :
    tokens (quote s.toList ++ rest) = .text (s.toList.map .char) none :: tokens rest := by
  simpa [quote] using tokens_text (scan_quoted s.toList rest)

/-- A sign or a digit begins a number and nothing else. -/
theorem tokens_numeral {numeral : Numeral} (hc : c = '-' ∨ c.isDigit = true)
    (h : scanNumeral (c :: cs) = .ok (numeral, rest)) :
    tokens (c :: cs) = .number (.ok numeral) :: tokens rest := by
  have hblank : ¬ Token.isBlank c = true := by
    intro hblank
    simp only [Token.isBlank, Bool.or_eq_true, decide_eq_true_eq] at hblank
    rcases hblank with ((rfl | rfl) | rfl) | rfl
    all_goals exact absurd hc (by decide)
  have hpunctuation : Token.punctuation? c = none := by
    unfold Token.punctuation?
    split
    all_goals first | rfl | exact absurd hc (by decide)
  have hquote : c ≠ '"' := by
    rintro rfl
    exact absurd hc (by decide)
  rw [tokens, if_neg hblank, Token.scanToken, hpunctuation]
  simp only [hquote, h, if_pos (show (decide (c = '-') || c.isDigit) = true by simpa using hc),
    ↓reduceIte]

theorem tokens_natural (h : EndsNumber rest) :
    tokens (Nat.toDigits 10 n ++ rest) = .number (.ok (.ofNat n)) :: tokens rest := by
  obtain ⟨d, ds, hds⟩ := List.exists_cons_of_ne_nil (@Nat.toDigits_ne_nil n 10)
  have hscan := @scanNumeral_toDigits n rest h
  have hdigit : d.isDigit = true := isDigit_toDigits d (by rw [hds]; exact List.mem_cons_self)
  rw [hds, List.cons_append] at hscan ⊢
  exact tokens_numeral (.inr hdigit) hscan

/-- Before any text that no number goes on into, the characters are read as the tokens. -/
def Writes (cs : List Char) (ts : List Token) : Prop :=
  ∀ rest, EndsNumber rest → tokens (cs ++ rest) = ts ++ tokens rest

theorem Writes.tokens_eq (h : Writes cs ts) : tokens cs = ts := by
  have hwhole := h [] endsNumber_nil
  rwa [List.append_nil, tokens_nil, List.append_nil] at hwhole

/-- Blanks around a text do not count. -/
theorem Writes.padded (h : Writes cs ts) (hbefore : IsBlank before) (hbehind : IsBlank behind) :
    Writes (before ++ (cs ++ behind)) ts := by
  intro rest hrest
  rw [List.append_assoc, List.append_assoc, tokens_blank hbefore,
    h _ (endsNumber_blank hbehind hrest), tokens_blank hbehind]

/-- Texts with commas between them. -/
def commas : List (List Char) → List Char
  | [] => []
  | entry :: entries => entry ++ entries.flatMap (',' :: ·)

/-- Texts between brackets, with commas between them. -/
def bracketed (left right : Char) (before : List Char) (entries : List (List Char)) : List Char :=
  left :: (before ++ (commas entries ++ [right]))

/-- A comma ends every number, so that each entry is read on its own. -/
theorem tokens_entries (h : List.Forall₂ Writes entries tss) (hrest : EndsNumber rest) :
    tokens (entries.flatMap (',' :: ·) ++ rest) = tss.flatMap (Token.comma :: ·) ++ tokens rest ∧
      EndsNumber (entries.flatMap (',' :: ·) ++ rest) := by
  induction h with
  | nil => exact ⟨rfl, hrest⟩
  | cons hentry _ ih =>
    obtain ⟨ihtokens, ihends⟩ := ih
    refine ⟨?_, endsNumber_punctuation (t := .comma) rfl⟩
    simp only [List.flatMap_cons, List.append_assoc, List.cons_append]
    rw [tokens_punctuation (t := .comma) rfl, hentry _ ihends, ihtokens]

theorem writes_enclosed (hl : Token.punctuation? left = some l)
    (hr : Token.punctuation? right = some r) (hbefore : IsBlank before) (hbehind : IsBlank behind)
    (h : List.Forall₂ Writes entries tss) :
    Writes (left :: (before ++ (commas entries ++ (behind ++ [right])))) (enclosed l r tss) := by
  intro rest _
  have hend : tokens (behind ++ right :: rest) = r :: tokens rest :=
    (tokens_blank hbehind).trans (tokens_punctuation hr)
  have hbracket : EndsNumber (behind ++ right :: rest) :=
    endsNumber_blank hbehind (endsNumber_punctuation hr)
  simp only [List.cons_append, List.append_assoc, List.nil_append]
  rw [tokens_punctuation hl, tokens_blank hbefore]
  cases h with
  | nil => exact congrArg _ hend
  | cons hentry hentries =>
    obtain ⟨htokens, hends⟩ := tokens_entries hentries hbracket
    simp only [commas, enclosed, List.append_assoc, List.cons_append, List.nil_append]
    rw [hentry _ hends, htokens, hend]

theorem writes_bracketed (hl : Token.punctuation? left = some l)
    (hr : Token.punctuation? right = some r) (hbefore : IsBlank before)
    (h : List.Forall₂ Writes entries tss) :
    Writes (bracketed left right before entries) (enclosed l r tss) :=
  @writes_enclosed left right l r before [] entries tss hl hr hbefore isBlank_nil h

end Reparam.Json
