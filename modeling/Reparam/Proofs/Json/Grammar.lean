import Reparam.Proofs.Json.Lexemes

/-! The grammar of JSON texts. Whatever text the grammar has, it is skipped as one value, and the
fields of an object are gone over one by one. -/
namespace Reparam.Json

variable {c : Char} {cs ds before rest : List Char} {ts : List Token} {t : Token}
  {pieces : List Piece} {items : List (List Char)}

/-! Numbers of any size. -/

/-- Digits, of which there is at least one. -/
def IsDigits (cs : List Char) : Prop := cs ≠ [] ∧ ∀ c ∈ cs, c.isDigit = true

inductive IsFraction : List Char → Prop where
  | missing : IsFraction []
  | digits {digits : List Char} (h : IsDigits digits) : IsFraction ('.' :: digits)

inductive IsExponent : List Char → Prop where
  | missing : IsExponent []
  | digits {e : Char} {sign digits : List Char} (he : e = 'e' ∨ e = 'E')
    (hsign : sign ∈ [[], ['+'], ['-']]) (h : IsDigits digits) : IsExponent (e :: (sign ++ digits))

/-- A number. No digits follow a leading zero of its whole part. -/
inductive IsNumber : List Char → Prop where
  | intro {sign whole fraction exponent : List Char} (hsign : sign ∈ [[], ['-']])
    (hwhole : IsDigits whole) (hzero : whole.head? = some '0' → whole.length = 1)
    (hfraction : IsFraction fraction) (hexponent : IsExponent exponent) :
    IsNumber (sign ++ (whole ++ (fraction ++ exponent)))

theorem IsDigits.need (h : IsDigits ds) (hrest : EndsDigits rest) :
    needDigits (ds ++ rest) = .ok (ds, rest) := needDigits_append h.2 h.1 hrest

theorem IsDigits.head (h : IsDigits ds) : ∃ d ds', ds = d :: ds' ∧ d.isDigit = true := by
  obtain ⟨d, ds', rfl⟩ := List.exists_cons_of_ne_nil h.1
  exact ⟨d, ds', rfl, h.2 d List.mem_cons_self⟩

theorem IsExponent.scan (h : IsExponent cs) : ∃ exponent, ∀ rest, EndsNumber rest →
    scanExponent (cs ++ rest) = .ok (exponent, rest) := by
  cases h with
  | missing => exact ⟨none, fun rest hrest => scanExponent_none hrest⟩
  | @digits e sign digits he hsign h =>
    refine ⟨some (decide (sign = ['-']), digits), fun rest hrest => ?_⟩
    have hneed := h.need hrest.endsDigits
    obtain ⟨d, ds, rfl, hd⟩ := h.head
    have hplus : d ≠ '+' := by rintro rfl; exact absurd hd (by decide)
    have hminus : d ≠ '-' := by rintro rfl; exact absurd hd (by decide)
    simp only [List.cons_append] at hneed
    simp only [List.mem_cons, List.not_mem_nil, or_false] at hsign
    rcases hsign with rfl | rfl | rfl
    all_goals simp [scanExponent, he, hneed, hplus, hminus]

/-- An exponent or what ends a number ends the digits in front as well, and is no fraction. -/
theorem IsExponent.ends (h : IsExponent cs) (hrest : EndsNumber rest) :
    EndsDigits (cs ++ rest) ∧ (cs ++ rest).head? ≠ some '.' := by
  cases h with
  | missing => exact ⟨hrest.endsDigits, fun hdot => (hrest '.' hdot).2.1 rfl⟩
  | digits he hsign h =>
    rcases he with rfl | rfl
    all_goals exact ⟨by rintro d ⟨⟩; decide, by simp⟩

theorem IsFraction.scan (h : IsFraction cs) : ∃ fraction, ∀ rest, EndsDigits rest →
    rest.head? ≠ some '.' → scanFraction (cs ++ rest) = .ok (fraction, rest) := by
  cases h with
  | missing =>
    refine ⟨none, fun rest _ hdot => ?_⟩
    cases rest with
    | nil => rfl
    | cons d rest =>
      have hd : d ≠ '.' := fun he => hdot (congrArg some he)
      simp [scanFraction, hd]
  | @digits digits h =>
    exact ⟨some digits, fun rest hdigits _ => by simp [scanFraction, h.need hdigits]⟩

theorem IsFraction.ends (h : IsFraction cs) (hrest : EndsDigits rest) :
    EndsDigits (cs ++ rest) := by
  cases h with
  | missing => exact hrest
  | digits h =>
    rintro d ⟨⟩
    decide

theorem IsNumber.scan (h : IsNumber cs) : ∃ numeral, ∀ rest, EndsNumber rest →
    scanNumeral (cs ++ rest) = .ok (numeral, rest) := by
  obtain ⟨hsign, hwhole, hzero, hfraction, hexponent⟩ := h
  rename_i sign whole fraction exponent
  obtain ⟨e, hscanned⟩ := hexponent.scan
  obtain ⟨f, hfound⟩ := hfraction.scan
  refine ⟨⟨decide (sign = ['-']), whole, f, e⟩, fun rest hrest => ?_⟩
  obtain ⟨hdigits, hdot⟩ := hexponent.ends hrest
  have hneed := hwhole.need (hfraction.ends hdigits)
  have hleading : ¬ (whole.head? = some '0' ∧ whole.length ≠ 1) := fun hlong =>
    hlong.2 (hzero hlong.1)
  have hplain : (whole ++ (fraction ++ (exponent ++ rest))).head? ≠ some '-' := by
    obtain ⟨d, ds, rfl, hd⟩ := hwhole.head
    rintro ⟨⟩
    exact absurd hd (by decide)
  simp only [List.mem_cons, List.not_mem_nil, or_false] at hsign
  simp only [List.append_assoc]
  rcases hsign with rfl | rfl
  · simp only [List.nil_append, scanNumeral, hplain, decide_false, ↓reduceIte, hneed, hleading,
      hfound _ hdigits hdot, hscanned _ hrest]
    rfl
  · simp only [List.cons_append, List.nil_append, scanNumeral, List.head?_cons, decide_true,
      List.tail_cons, ↓reduceIte, hneed, hleading, hfound _ hdigits hdot, hscanned _ hrest]

theorem IsNumber.head (h : IsNumber cs) :
    ∃ c cs', cs = c :: cs' ∧ (c = '-' ∨ c.isDigit = true) := by
  obtain ⟨hsign, hwhole, -, -, -⟩ := h
  obtain ⟨d, ds, rfl, hd⟩ := hwhole.head
  simp only [List.mem_cons, List.not_mem_nil, or_false] at hsign
  rcases hsign with rfl | rfl
  · exact ⟨d, _, rfl, .inr hd⟩
  · exact ⟨'-', _, rfl, .inl rfl⟩

/-! Quoted texts. -/

/-- What stands between quotes, and the pieces that it is made of. -/
inductive Spells : List Char → List Piece → Prop where
  | nil : Spells [] []
  | plain {c : Char} {cs : List Char} {pieces : List Piece} (hcontrol : ¬ c < ' ') (hquote : c ≠ '"')
    (hback : c ≠ '\\') (h : Spells cs pieces) : Spells (c :: cs) (.char c :: pieces)
  | short {letter c : Char} {cs : List Char} {pieces : List Piece}
    (hc : shortEscapes.lookup letter = some c) (h : Spells cs pieces) :
    Spells ('\\' :: letter :: cs) (.char c :: pieces)
  | code {d₁ d₂ d₃ d₄ : Char} {n : Nat} {cs : List Char} {pieces : List Piece}
    (hn : hexNumber? [d₁, d₂, d₃, d₄] = some n) (h : Spells cs pieces) :
    Spells ('\\' :: 'u' :: d₁ :: d₂ :: d₃ :: d₄ :: cs) (.ofCode n :: pieces)

/-- The pieces make these characters. Halves of characters come in pairs, and none stands alone. -/
inductive Makes : List Piece → List Char → Prop where
  | nil : Makes [] []
  | char (c : Char) {pieces : List Piece} {cs : List Char} (h : Makes pieces cs) :
    Makes (.char c :: pieces) (c :: cs)
  | pair {leading trailing : Nat} {pieces : List Piece} {cs : List Char}
    (hl : isLeading leading = true) (ht : isTrailing trailing = true) (h : Makes pieces cs) :
    Makes (.surrogate leading :: .surrogate trailing :: pieces) (combine leading trailing :: cs)

theorem Spells.scan_eq (h : Spells cs pieces) (rest : List Char) :
    scan (cs ++ '"' :: rest) = ⟨pieces, .ok rest⟩ := by
  induction h with
  | nil => rfl
  | plain hcontrol hquote hback _ ih =>
    rw [List.cons_append, scan, ih, if_neg hcontrol]
    · rfl
    · exact hquote
    all_goals intros; contradiction
  | @short letter c cs pieces hc _ ih =>
    have hu : letter ≠ 'u' := by
      rintro rfl
      cases hc
    simp [scan, hu, hc, ih, Scanned.push]
  | code hn _ ih =>
    simp [scan, hn, ih, Scanned.push]

theorem Makes.join_eq (h : Makes pieces cs) : join pieces = .text cs := by
  induction h with
  | nil => rfl
  | char c _ ih => rw [join, ih, Joined.push]
  | pair hl ht _ ih => simp [join, hl, ht, ih, Joined.push]

theorem Makes.readPieces_eq {name : String} (h : Makes pieces name.toList) :
    readPieces pieces none = .ok name := by
  simp only [readPieces, h.join_eq, String.ofList_toList]

/-! Values, with blanks wherever the grammar has them. -/

/-- A text between blanks. -/
structure Padded where
  before : List Char
  text : List Char
  behind : List Char
  blank : IsBlank before ∧ IsBlank behind

def Padded.written (p : Padded) : List Char := p.before ++ (p.text ++ p.behind)

/-- A field of an object: a key between quotes, and the text of a value behind a colon. -/
structure Field where
  before : List Char
  key : List Char
  pieces : List Piece
  behind : List Char
  value : Padded
  blank : IsBlank before ∧ IsBlank behind
  spelled : Spells key pieces

def Field.written (f : Field) : List Char :=
  f.before ++ (('"' :: (f.key ++ ['"'])) ++ (f.behind ++ ':' :: f.value.written))

/-- The name that the key spells. -/
def Field.IsNamed (f : Field) (name : String) : Prop := Makes f.pieces name.toList

inductive IsValue : List Char → Prop where
  | word {cs : List Char} (h : cs ∈ ["true", "false", "null"].map String.toList) : IsValue cs
  | number {cs : List Char} (h : IsNumber cs) : IsValue cs
  | text {cs : List Char} {pieces : List Piece} (h : Spells cs pieces) :
    IsValue ('"' :: (cs ++ ['"']))
  | array {before : List Char} (hb : IsBlank before) {items : List Padded}
    (h : ∀ item ∈ items, IsValue item.text) :
    IsValue (bracketed '[' ']' before (items.map Padded.written))
  | object {before : List Char} (hb : IsBlank before) {fields : List Field}
    (h : ∀ f ∈ fields, IsValue f.value.text) :
    IsValue (bracketed '{' '}' before (fields.map Field.written))

/-- The whole text is an object with these fields. -/
def IsObject (fields : List Field) (cs : List Char) : Prop :=
  (∀ f ∈ fields, IsValue f.value.text) ∧ ∃ (outside : Padded) (before : List Char),
    IsBlank before ∧ outside.text = bracketed '{' '}' before (fields.map Field.written) ∧
      cs = outside.written

/-- The text is read as its own tokens, and these are passed over as one value. -/
structure Reads (cs : List Char) : Prop where
  writes : Writes cs (tokens cs)
  passes : Passes (tokens cs)

theorem Writes.reads (h : Writes cs ts) (hp : Passes ts) : Reads cs := by
  obtain rfl := h.tokens_eq
  exact ⟨h, hp⟩

theorem Padded.writes {p : Padded} (h : Writes p.text ts) : Writes p.written ts :=
  h.padded p.blank.1 p.blank.2

theorem writes_word (h : cs ∈ ["true", "false", "null"].map String.toList) :
    Writes cs [.word none] := by
  have hwords : cs = ['t', 'r', 'u', 'e'] ∨ cs = ['f', 'a', 'l', 's', 'e'] ∨
      cs = ['n', 'u', 'l', 'l'] := by simpa using h
  intro rest _
  rcases hwords with rfl | rfl | rfl
  all_goals
    simp only [List.cons_append, List.nil_append]
    rw [tokens, if_neg (by decide)]
    rfl

theorem IsNumber.reads (h : IsNumber cs) : Reads cs := by
  obtain ⟨numeral, hscan⟩ := h.scan
  obtain ⟨c, cs, rfl, hc⟩ := h.head
  have hwrites : Writes (c :: cs) [.number (.ok numeral)] := fun rest hrest =>
    tokens_numeral hc (hscan rest hrest)
  exact hwrites.reads (passes_single rfl)

theorem Spells.writes (h : Spells cs pieces) :
    Writes ('"' :: (cs ++ ['"'])) [.text pieces none] := by
  intro rest _
  simpa using tokens_text (h.scan_eq rest)

theorem Field.writes {f : Field} (h : Writes f.value.text ts) :
    Writes f.written (keyed f.pieces ts) := by
  intro rest hrest
  have hvalue := Padded.writes h rest hrest
  have hcolon : EndsNumber (f.behind ++ ':' :: (f.value.written ++ rest)) :=
    endsNumber_blank f.blank.2 (endsNumber_punctuation (t := .colon) rfl)
  have hkey := f.spelled.writes _ hcolon
  simp only [Field.written, List.append_assoc, List.cons_append, List.nil_append] at hkey ⊢
  rw [tokens_blank f.blank.1, hkey, tokens_blank f.blank.2, tokens_punctuation (t := .colon) rfl,
    hvalue]
  rfl

theorem reads_array (hb : IsBlank before) {items : List Padded}
    (h : ∀ item ∈ items, Reads item.text) :
    Reads (bracketed '[' ']' before (items.map Padded.written)) := by
  have hitems : List.Forall₂ Writes (items.map Padded.written)
      (items.map fun item => tokens item.text) := by
    rw [List.forall₂_map_left_iff, List.forall₂_map_right_iff, List.forall₂_same]
    exact fun item hitem => Padded.writes (h item hitem).writes
  refine (writes_bracketed rfl rfl hb hitems).reads (passes_array ?_)
  intro ts hts
  obtain ⟨item, hitem, rfl⟩ := List.mem_map.1 hts
  exact (h item hitem).passes

/-- The keys of fields and the tokens of their values. -/
def Field.parts (f : Field) : List Piece × List Token := (f.pieces, tokens f.value.text)

theorem writes_object (hb : IsBlank before) {fields : List Field}
    (h : ∀ f ∈ fields, Reads f.value.text) :
    Writes (bracketed '{' '}' before (fields.map Field.written))
      (enclosed .openObject .closeObject
        ((fields.map Field.parts).map fun m => keyed m.1 m.2)) := by
  have hfields : List.Forall₂ Writes (fields.map Field.written)
      ((fields.map Field.parts).map fun m => keyed m.1 m.2) := by
    rw [List.map_map, List.forall₂_map_left_iff, List.forall₂_map_right_iff, List.forall₂_same]
    exact fun f hf => Field.writes (h f hf).writes
  exact writes_bracketed rfl rfl hb hfields

theorem passes_parts {fields : List Field} (h : ∀ f ∈ fields, Reads f.value.text) :
    ∀ m ∈ fields.map Field.parts, Passes m.2 := by
  intro m hm
  obtain ⟨f, hf, rfl⟩ := List.mem_map.1 hm
  exact (h f hf).passes

/-- Whatever text the grammar has, it is skipped as one value. -/
theorem IsValue.reads (h : IsValue cs) : Reads cs := by
  induction h with
  | word h => exact (writes_word h).reads (passes_single rfl)
  | number h => exact h.reads
  | text h => exact h.writes.reads (passes_single rfl)
  | array hb _ ih => exact reads_array hb ih
  | object hb _ ih => exact (writes_object hb ih).reads (passes_keyed (passes_parts ih))

end Reparam.Json
