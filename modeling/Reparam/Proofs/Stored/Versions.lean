import Reparam.Proofs.Json.Grammar
import Reparam.Proofs.Stored.Loading

/-! Texts of other versions. The version is found in any object that has it once, and whatever else
the object holds, a version that is not read is what is reported. -/
namespace Reparam

open Json (Field IsBlank IsObject IsValue Member Reads)

variable {fields front back : List Field} {version : Field} {cs : List Char} {name : String}
  {found : List Member} {v : Nat}

namespace Json

/-- The tokens of an object, whatever stands in it. -/
theorem IsObject.tokens_eq (h : IsObject fields cs) : (∀ f ∈ fields, Reads f.value.text) ∧
    tokens cs = enclosed .openObject .closeObject
      ((fields.map Field.parts).map fun m => keyed m.1 m.2) := by
  obtain ⟨hvalues, outside, before, hbefore, htext, rfl⟩ := h
  have hreads : ∀ f ∈ fields, Reads f.value.text := fun f hf => (hvalues f hf).reads
  have hwrites := writes_object hbefore hreads
  rw [← htext] at hwrites
  exact ⟨hreads, (Padded.writes hwrites).tokens_eq⟩

/-- A member is read under the name that its key spells. -/
theorem Member.Reads.key_eq {m : Member} {f : Field} (h : m.Reads f.parts) (hf : f.IsNamed name) :
    m.key = name := Except.ok.inj (h.1.symm.trans hf.readPieces_eq)

theorem key_ne_of_reads (h : List.Forall₂ Member.Reads found (fields.map Field.parts))
    (hnames : ∀ f ∈ fields, ∃ other, f.IsNamed other ∧ other ≠ name) :
    ∀ m ∈ found, m.key ≠ name := by
  induction fields generalizing found with
  | nil =>
    cases h
    simp
  | cons f fields ih =>
    obtain ⟨m, found, hm, hothers, rfl⟩ := List.forall₂_cons_right_iff.1 h
    obtain ⟨other, hother, hne⟩ := hnames f List.mem_cons_self
    refine List.forall_mem_cons.2 ⟨hm.key_eq hother ▸ hne, ih hothers ?_⟩
    exact fun g hg => hnames g (List.mem_cons_of_mem _ hg)

end Json

namespace Stored

/-- The header of an object is the version that it holds, if no other field has that name. -/
theorem readHeader_object (hobject : IsObject (front ++ version :: back) cs)
    (hothers : ∀ f ∈ front ++ back, ∃ name, f.IsNamed name ∧ name ≠ "version")
    (hversion : version.IsNamed "version") (hvalue : version.value.text = Nat.toDigits 10 v)
    (hlimit : v < versionLimit) : readHeader (Json.tokens cs) = .ok v := by
  obtain ⟨hreads, htokens⟩ := hobject.tokens_eq
  have hnames : ∀ m ∈ (front ++ version :: back).map Field.parts,
      ∃ name, Json.readPieces m.1 none = .ok name := by
    intro m hm
    obtain ⟨f, hf, rfl⟩ := List.mem_map.1 hm
    rcases List.mem_cons.1 (List.perm_middle.mem_iff.1 hf) with rfl | hf
    · exact ⟨_, hversion.readPieces_eq⟩
    · obtain ⟨name, hname, -⟩ := hothers f hf
      exact ⟨name, hname.readPieces_eq⟩
  obtain ⟨ts, hts, hending, hentries⟩ := Json.holds_keyed (Json.passes_parts hreads) hnames []
  rw [List.append_nil, ← htokens] at hts
  -- the members stand as the fields do: some in front, the version, and some behind
  rw [List.map_append, List.map_cons] at hentries
  have hfront := List.forall₂_take_append _ _ _ hentries
  obtain ⟨m, found, hm, hback, hdrop⟩ :=
    List.forall₂_cons_right_iff.1 (List.forall₂_drop_append _ _ _ hentries)
  have hsplit := List.take_append_drop (front.map Field.parts).length (Json.members ts).entries
  rw [hdrop] at hsplit
  have hkeys : ∀ m ∈ (Json.members ts).entries.take (front.map Field.parts).length ++ found,
      m.key ≠ "version" := by
    intro m hm
    rcases List.mem_append.1 hm with hm | hm
    · exact Json.key_ne_of_reads hfront (fun f hf => hothers f (List.mem_append_left _ hf)) m hm
    · exact Json.key_ne_of_reads hback (fun f hf => hothers f (List.mem_append_right _ hf)) m hm
  have hkey := hm.key_eq hversion
  obtain ⟨more, hmore⟩ := hm.2
  obtain ⟨key, value⟩ := m
  subst hkey hmore
  have hdigits : Field.parts version = (version.pieces, [.number (.ok (.ofNat v))]) := by
    have hnatural := @Json.tokens_natural [] v Json.endsNumber_nil
    rw [List.append_nil, Json.tokens_nil] at hnatural
    rw [Field.parts, hvalue, hnatural]
  rw [hdigits] at hsplit
  have hmember := readMember_one hsplit.symm hkeys (readVersion_number hlimit more) hending
  rw [hts, readHeader, hmember]
  rfl

end Stored

/-- In an object that has one field of the name, a version that is not read is reported as such,
with the one that is, whatever the other fields hold and wherever they stand. A version is a natural
number, written without a sign, a fraction or an exponent. -/
theorem ofText_unsupportedVersion {text : String}
    (hobject : IsObject (front ++ version :: back) text.toList)
    (hothers : ∀ f ∈ front ++ back, ∃ name, f.IsNamed name ∧ name ≠ "version")
    (hversion : version.IsNamed "version") (hvalue : version.value.text = Nat.toDigits 10 v)
    (hlimit : v < versionLimit) (hother : v ≠ formatVersion) :
    Script.ofText text = .error (.unsupportedVersion v) ∧
      (LoadError.unsupportedVersion v).message? =
        some s!"unsupported edit script format version {v} (this build reads {formatVersion})" := by
  refine ⟨?_, rfl⟩
  have hheader := Stored.readHeader_object hobject hothers hversion hvalue hlimit
  rw [Script.ofText, Script.ofTokens, hheader]
  exact if_pos hother

namespace Json

/-- A text without blanks around it. -/
def Padded.bare (text : List Char) : Padded := ⟨[], text, [], isBlank_nil, isBlank_nil⟩

/-- A field without blanks. -/
def Field.bare {key : List Char} {pieces : List Piece} (h : Spells key pieces)
    (value : List Char) : Field := ⟨[], key, pieces, [], .bare value, ⟨isBlank_nil, isBlank_nil⟩, h⟩

theorem spells_plain (h : ∀ c ∈ cs, ¬ c < ' ' ∧ c ≠ '"' ∧ c ≠ '\\') :
    Spells cs (cs.map .char) := by
  induction cs with
  | nil => exact .nil
  | cons c cs ih =>
    obtain ⟨hcontrol, hquote, hback⟩ := h c List.mem_cons_self
    exact .plain hcontrol hquote hback (ih fun d hd => h d (List.mem_cons_of_mem _ hd))

theorem makes_chars (cs : List Char) : Makes (cs.map .char) cs := by
  induction cs with
  | nil => exact .nil
  | cons c cs ih => exact .char c ih

end Json

/-- An edit of no known kind, a number beyond all doubles and half of a character do not matter, nor
does it that the name is escaped in part. -/
theorem ofText_unsupportedVersion_behind_others :
    Script.ofText ("\x7b\"operations\":[\x7b\"op\":\"teleport\"\x7d,-1e999,\"\\uD800\"]," ++
      "\"\\u0076ersion\":2\x7d") = .error (.unsupportedVersion 2) := by
  have hop : Json.Spells "op".toList ("op".toList.map .char) := Json.spells_plain (by simp)
  let edit : Field := .bare hop ('"' :: ("teleport".toList ++ ['"']))
  let items : List Json.Padded := [.bare (Json.bracketed '{' '}' [] [edit.written]),
    .bare ['-', '1', 'e', '9', '9', '9'], .bare ['"', '\\', 'u', 'D', '8', '0', '0', '"']]
  have hedit : IsValue (Json.bracketed '{' '}' [] [edit.written]) :=
    @IsValue.object [] Json.isBlank_nil [edit]
      (List.forall_mem_singleton.2 (.text (Json.spells_plain (by simp))))
  have hnumber : IsValue ['-', '1', 'e', '9', '9', '9'] :=
    .number (@Json.IsNumber.intro ['-'] ['1'] [] ['e', '9', '9', '9'] (by simp)
      ⟨by simp, by simp⟩ (by simp) .missing
      (@Json.IsExponent.digits 'e' [] ['9', '9', '9'] (.inl rfl) (by simp)
        ⟨by simp, by simp⟩))
  have hhalf : IsValue ['"', '\\', 'u', 'D', '8', '0', '0', '"'] :=
    .text (.code (n := 0xD800) (by decide) .nil)
  have hitems : IsValue (Json.bracketed '[' ']' [] (items.map Json.Padded.written)) :=
    .array Json.isBlank_nil (List.forall_mem_cons.2 ⟨hedit, List.forall_mem_cons.2 ⟨hnumber,
      List.forall_mem_singleton.2 hhalf⟩⟩)
  have hoperations : Json.Spells "operations".toList ("operations".toList.map .char) :=
    Json.spells_plain (by simp)
  have hversion : Json.Spells ('\\' :: 'u' :: '0' :: '0' :: '7' :: '6' :: "ersion".toList)
      (.ofCode 0x76 :: "ersion".toList.map .char) :=
    .code (by decide) (Json.spells_plain (by simp))
  have hvalue : IsValue ['2'] :=
    .number (@Json.IsNumber.intro [] ['2'] [] [] (by simp) ⟨by simp, by simp⟩ (by simp)
      .missing .missing)
  let operations : Field :=
    .bare hoperations (Json.bracketed '[' ']' [] (items.map Json.Padded.written))
  refine (@ofText_unsupportedVersion [operations] [] (.bare hversion ['2']) 2 _ ⟨?_, ?_⟩ ?_ ?_ ?_
    (by decide) (by decide)).1
  · exact List.forall_mem_cons.2 ⟨hitems, List.forall_mem_singleton.2 hvalue⟩
  · exact ⟨.bare _, [], Json.isBlank_nil, rfl, rfl⟩
  · exact List.forall_mem_singleton.2 ⟨"operations", Json.makes_chars _, by simp⟩
  · exact .char 'v' (Json.makes_chars "ersion".toList)
  · rfl

end Reparam
