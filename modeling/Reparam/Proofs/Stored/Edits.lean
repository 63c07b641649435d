import Reparam.Proofs.Stored.Tokens
import Reparam.Proofs.Traversal
import Reparam.Proofs.Type.Descriptors
import Reparam.Stored.Reader

/-! Edits are read as they were written if their numbers and their types come back, and only such
edits are ever read. -/
namespace Reparam

open Json (Leaf Member Contents enclosed memberOf)

variable {e : Edit} {kind : EditKind} {leaf : Leaf} {rest : List Json.Token} {values : List Leaf}
  {fields : List (String × Leaf)} {found : List Member}

namespace Edit

/-- The type that an edit brings into the list. -/
def type? : Edit → Option ValueType
  | insert _ t | replace _ t => some t
  | _ => none

/-- The type comes back from its descriptor. -/
def WellNamed (e : Edit) : Prop := ∀ t ∈ e.type?, t.WellNamed

/-- Indices fit into 64 bits, and the number of a generator fits into 32. -/
def Storable : Edit → Prop
  | insert index _ | replace index _ | remove index => index < Json.wordLimit
  | swap a b => a < Json.wordLimit ∧ b < Json.wordLimit
  | move source dest => source < Json.wordLimit ∧ dest < Json.wordLimit
  | substitute target source => target < Json.wordLimit ∧ source < Json.wordLimit
  | inline target generator => target < Json.wordLimit ∧ generator < generatorLimit

theorem Storable.small (h : e.Storable) : ∀ value ∈ e.fieldValues, value.Small := by
  have hgenerator : generatorLimit ≤ Json.wordLimit := by decide
  cases e <;> simp_all [Storable, fieldValues, Leaf.Small]
  omega

theorem ofValues_fieldValues (hs : e.Storable) (hw : e.WellNamed) :
    ofValues? e.kind e.fieldValues = some e := by
  cases e with
  | insert index t | replace index t =>
    have hread := ValueType.ofDescriptor_descriptor (hw t rfl)
    simp only [kind, fieldValues, ofValues?, hread]
    rfl
  | inline target generator => simp only [kind, fieldValues, ofValues?, if_pos hs.2]
  | _ => rfl

theorem wellNamed_of_toOption {text : String} {t : ValueType}
    (h : (ValueType.ofDescriptor text).toOption = some t) : t.WellNamed := by
  cases hread : ValueType.ofDescriptor text with
  | error err =>
    rw [hread] at h
    cases h
  | ok t' =>
    rw [hread] at h
    cases h
    exact ValueType.ofDescriptor_wellNamed hread

/-- Whatever edit is made of values, its numbers are as small as theirs and its type is well
named. -/
theorem ofValues_sound (h : ofValues? kind values = some e)
    (hsmall : ∀ value ∈ values, value.Small) : e.Storable ∧ e.WellNamed := by
  have huntyped {e : Edit} (he : e.type? = none) : e.WellNamed := by
    intro t ht
    rw [he] at ht
    cases ht
  unfold ofValues? at h
  split at h
  · rename_i index text
    obtain ⟨t, ht, rfl⟩ := Option.map_eq_some_iff.1 h
    refine ⟨hsmall (.natural index) (by simp), ?_⟩
    rintro _ ⟨⟩
    exact wellNamed_of_toOption ht
  · rename_i index text
    obtain ⟨t, ht, rfl⟩ := Option.map_eq_some_iff.1 h
    refine ⟨hsmall (.natural index) (by simp), ?_⟩
    rintro _ ⟨⟩
    exact wellNamed_of_toOption ht
  · rename_i a b
    cases h
    exact ⟨⟨hsmall (.natural a) (by simp), hsmall (.natural b) (by simp)⟩, huntyped rfl⟩
  · rename_i source dest
    cases h
    exact ⟨⟨hsmall (.natural source) (by simp), hsmall (.natural dest) (by simp)⟩, huntyped rfl⟩
  · rename_i index
    cases h
    exact ⟨hsmall (.natural index) (by simp), huntyped rfl⟩
  · rename_i target source
    cases h
    exact ⟨⟨hsmall (.natural target) (by simp), hsmall (.natural source) (by simp)⟩, huntyped rfl⟩
  · rename_i target generator
    split at h
    · rename_i hgenerator
      cases h
      exact ⟨⟨hsmall (.natural target) (by simp), hgenerator⟩, huntyped rfl⟩
    · cases h
  · cases h

theorem valueOf_mem {name : String} (h : valueOf? fields name = some leaf) :
    ∃ field ∈ fields, field.2 = leaf := by
  unfold valueOf? at h
  split at h
  · rename_i name' value hfilter
    cases h
    have hmem : (name', leaf) ∈ fields.filter (·.1 = name) := by
      rw [hfilter]
      exact List.mem_singleton_self _
    exact ⟨_, (List.mem_filter.1 hmem).1, rfl⟩
  · cases h

theorem ofFields_sound (h : ofFields? kind fields = some e)
    (hsmall : ∀ field ∈ fields, field.2.Small) : e.Storable ∧ e.WellNamed := by
  obtain ⟨values, hvalues, hmade⟩ := Option.bind_eq_some_iff.1 h
  refine ofValues_sound hmade ?_
  intro value hvalue
  obtain ⟨name, -, hname⟩ := exists_of_mem_mapM_some hvalues hvalue
  obtain ⟨field, hfield, rfl⟩ := valueOf_mem hname
  exact hsmall field hfield

/-- Every field that is written has a name of its own, so all of them are found again. -/
theorem ofFields_written (e : Edit) :
    ofFields? e.kind (e.kind.fieldNames.zip e.fieldValues).reverse =
      ofValues? e.kind e.fieldValues := by
  cases e <;> simp [kind, EditKind.fieldNames, fieldValues, ofFields?, valueOf?]

/-- The tag and the fields of an edit with the tokens of their values. -/
def members (e : Edit) : List (String × List Json.Token) := e.written.map fun f => (f.1, f.2.tokens)

theorem tokens_eq (e : Edit) :
    e.tokens = enclosed .openObject .closeObject (e.members.map fun m => memberOf m.1 m.2) := by
  rw [members, List.map_map]
  rfl

theorem passes_members (e : Edit) : ∀ m ∈ e.members, Json.Passes m.2 := by
  intro m hm
  obtain ⟨f, -, rfl⟩ := List.mem_map.1 hm
  exact Json.passes_leaf f.2

theorem passes (e : Edit) : Json.Passes e.tokens := by
  rw [tokens_eq]
  exact Json.passes_object e.passes_members

end Edit

namespace EditKind

theorem ofTag_tag (kind : EditKind) : ofTag? kind.tag = some kind := by
  cases kind <;> rfl

theorem ne_op_of_mem : ∀ name ∈ kind.fieldNames, name ≠ "op" := by
  cases kind <;> decide

end EditKind

namespace Stored

theorem readKind_tag (kind : EditKind) (rest : List Json.Token) :
    readKind ((Leaf.text kind.tag).tokens ++ rest) = .ok kind := by
  have hread := Json.readText_text kind.tag rest
  simp only [Leaf.tokens, List.cons_append, List.nil_append, readKind, hread, bind, Except.bind,
    EditKind.ofTag_tag, fromOption]

/-- The fields of an edit are taken in one after the other. -/
theorem foldlM_take {p : Collected} {written : List (String × Leaf)}
    (h : List.Forall₂ Member.Opens found (written.map fun f => (f.1, f.2.tokens)))
    (hnames : ∀ f ∈ written, f.1 ≠ "op") (hsmall : ∀ f ∈ written, f.2.Small) :
    found.foldlM Collected.take p = .ok { p with fields := written.reverse ++ p.fields } := by
  induction written generalizing found p with
  | nil =>
    cases h
    rfl
  | cons f written ih =>
    obtain ⟨m, found, ⟨more, rfl⟩, hothers, rfl⟩ := List.forall₂_cons_right_iff.1 h
    have hvalue := Json.readValue_leaf (hsmall f List.mem_cons_self) fieldDepth more
    have htake : p.take ⟨f.1, .ok (f.2.tokens ++ more)⟩ =
        .ok { p with fields := (f.1, f.2) :: p.fields } := by
      simp only [Collected.take, hnames f List.mem_cons_self, hvalue, bind, Except.bind, ↓reduceIte]
      rfl
    rw [List.foldlM_cons, htake]
    have hrest := @ih found { p with fields := (f.1, f.2) :: p.fields } hothers
      (fun g hg => hnames g (List.mem_cons_of_mem _ hg))
      (fun g hg => hsmall g (List.mem_cons_of_mem _ hg))
    simpa [bind, Except.bind] using hrest

theorem Collected.take_small {p p' : Collected} {m : Member} (hp : ∀ f ∈ p.fields, f.2.Small)
    (h : p.take m = .ok p') : ∀ f ∈ p'.fields, f.2.Small := by
  unfold Collected.take at h
  split at h
  · obtain ⟨_, -, h⟩ := exists_of_bind h
    obtain ⟨value, -, h⟩ := exists_of_bind h
    obtain ⟨kind, -, h⟩ := exists_of_bind h
    cases h
    exact hp
  · obtain ⟨value, -, h⟩ := exists_of_bind h
    obtain ⟨leaf, hleaf, h⟩ := exists_of_bind h
    cases h
    intro f hf
    rcases List.mem_cons.1 hf with rfl | hf
    · exact Json.readValue_small hleaf
    · exact hp f hf

theorem fromOption_ok {α : Type} {a : α} {o : Option α} (h : fromOption o = .ok a) :
    o = some a := by
  cases o with
  | none => cases h
  | some b =>
    cases h
    rfl

/-- Whatever stored edit is read, it can be stored and read again. -/
theorem readEdit_sound {ts : List Json.Token} (h : readEdit ts = .ok e) :
    e.Storable ∧ e.WellNamed := by
  unfold readEdit at h
  split at h
  · obtain ⟨p, hp, h⟩ := exists_of_bind h
    obtain ⟨_, -, h⟩ := exists_of_bind h
    obtain ⟨kind, -, h⟩ := exists_of_bind h
    refine Edit.ofFields_sound (fromOption_ok h) ?_
    refine foldlM_keeps (P := fun p : Collected => ∀ f ∈ p.fields, f.2.Small)
      (fun m _ p p' hp => Collected.take_small hp) ?_ hp
    intro f hf
    cases hf
  · unfold editOfItems at h
    split at h
    · obtain ⟨_, -, h⟩ := exists_of_bind h
      cases h
    · obtain ⟨kind, -, h⟩ := exists_of_bind h
      obtain ⟨values, hvalues, h⟩ := exists_of_bind h
      obtain ⟨_, -, h⟩ := exists_of_bind h
      refine Edit.ofValues_sound (fromOption_ok h) ?_
      intro value hvalue
      obtain ⟨ts', -, hread⟩ := exists_of_mem_mapM_ok hvalues hvalue
      exact Json.readValue_small hread
  · obtain ⟨_, -, h⟩ := exists_of_bind h
    cases h

/-- An edit is read as it was written. -/
theorem readEdit_tokens (hs : e.Storable) (hw : e.WellNamed) (rest : List Json.Token) :
    readEdit (e.tokens ++ rest) = .ok e := by
  obtain ⟨ts, hts, hending, hentries⟩ := Json.holds_members e.passes_members rest
  obtain ⟨m, fields, ⟨more, rfl⟩, hfields, hc⟩ := List.forall₂_cons_right_iff.1 hentries
  have hnames : ∀ f ∈ e.kind.fieldNames.zip e.fieldValues, f.1 ≠ "op" := fun f hf =>
    EditKind.ne_op_of_mem _ (List.of_mem_zip hf).1
  have hsmall : ∀ f ∈ e.kind.fieldNames.zip e.fieldValues, f.2.Small := fun f hf =>
    hs.small _ (List.of_mem_zip hf).2
  have htag : Collected.take {} ⟨"op", .ok ((Leaf.text e.kind.tag).tokens ++ more)⟩ =
      .ok ⟨some e.kind, []⟩ := by
    simp only [Collected.take, readKind_tag, bind, Except.bind, ↓reduceIte]
    rfl
  have hfold : (Json.members ts).entries.foldlM Collected.take {} =
      .ok ⟨some e.kind, (e.kind.fieldNames.zip e.fieldValues).reverse⟩ := by
    rw [hc, List.foldlM_cons, htag]
    have hrest := @foldlM_take fields ⟨some e.kind, []⟩ _ hfields hnames hsmall
    rw [List.append_nil] at hrest
    exact hrest
  have hmade := Edit.ofValues_fieldValues hs hw
  rw [Edit.tokens_eq, hts, readEdit, editOfMembers, hfold, hending]
  simp only [bind, Except.bind, fromOption, Edit.ofFields_written, hmade]

end Stored

end Reparam
