import Reparam.Method.Signature
import Reparam.Proofs.Traversal
import Reparam.Proofs.Type.Descriptors

/-! Descriptors are read exactly. A type or a signature is read from a text if and only if the text
is its descriptor and its class names can be told from what stands around them. -/
namespace Reparam

variable {types : List ValueType} {params : List Parameter} {cs tail rest : List Char} {c : Char}
  {text : String} {isStatic : Bool} {s : Signature} {result : Option ValueType}

/-- No type begins like the end of a list of parameters. -/
theorem ValueType.exists_descriptorChars (t : ValueType) :
    ∃ c tail, t.descriptorChars = c :: tail ∧ c ≠ ')' := by
  cases t <;> exact ⟨_, _, rfl, by decide⟩

theorem ValueType.descriptorChars_ne_void (t : ValueType) : t.descriptorChars ≠ ['V'] := by
  cases t <;> simp [descriptorChars]

/-- Parameters without names are known by their types. -/
theorem Parameter.eq_unnamed_iff : params = (Parameter.types params).map .unnamed ↔
    ∀ p ∈ params, p.name = none ∧ p.synthetic = false := by
  constructor
  · intro h p hp
    rw [h] at hp
    obtain ⟨t, -, rfl⟩ := List.mem_map.1 hp
    exact ⟨rfl, rfl⟩
  · intro h
    rw [Parameter.types, List.map_map]
    refine (List.map_id params).symm.trans (List.map_congr_left fun p hp => ?_)
    obtain ⟨hname, hsynthetic⟩ := h p hp
    rw [id_eq, Function.comp_apply, unnamed, ← hname, ← hsynthetic]

namespace Signature

theorem readParams_cons (hc : c ≠ ')') : readParams (c :: tail) = (do
    let (t, rest) ← ValueType.read (c :: tail)
    let (types, result) ← readParams rest
    return (t :: types, result)) := by
  rw [readParams, if_neg hc]
  split
  · rename_i hread
    rw [hread]
    rfl
  · rename_i t rest hread
    rw [hread]
    cases hmore : readParams rest <;> simp [hmore, bind, Except.bind, pure, Except.pure]

/-- Parameters are read up to the parenthesis that closes them, not to one in a class name. -/
theorem readParams_append (h : ∀ t ∈ types, t.WellNamed) (rest : List Char) :
    readParams (types.flatMap (·.descriptorChars) ++ ')' :: rest) = .ok (types, rest) := by
  induction types with
  | nil =>
    rw [List.flatMap_nil, List.nil_append, readParams, if_pos rfl]
  | cons t types ih =>
    obtain ⟨ht, htypes⟩ := List.forall_mem_cons.1 h
    obtain ⟨c, tail, hchars, hc⟩ := t.exists_descriptorChars
    have hread := ValueType.read_descriptorChars ht
      (types.flatMap (·.descriptorChars) ++ ')' :: rest)
    rw [List.flatMap_cons, List.append_assoc]
    rw [hchars, List.cons_append] at hread ⊢
    rw [readParams_cons hc, hread]
    simp only [bind, Except.bind, ih htypes, pure, Except.pure]

theorem readParams_sound (h : readParams cs = .ok (types, rest)) :
    (∀ t ∈ types, t.WellNamed) ∧ cs = types.flatMap (·.descriptorChars) ++ ')' :: rest := by
  induction hn : cs.length using Nat.strongRecOn generalizing cs types with
  | ind n ih =>
    cases cs with
    | nil =>
      rw [readParams] at h
      cases h
    | cons c tail =>
      by_cases hc : c = ')'
      · subst hc
        rw [readParams, if_pos rfl] at h
        cases h
        exact ⟨by simp, rfl⟩
      · rw [readParams_cons hc] at h
        obtain ⟨⟨t, more⟩, hread, h⟩ := exists_of_bind h
        obtain ⟨⟨types', rest'⟩, hmore, h⟩ := exists_of_bind h
        cases h
        obtain ⟨ht, hfront⟩ := ValueType.read_eq_ok_iff.1 hread
        obtain ⟨htypes, hback⟩ := ih _ (hn ▸ ValueType.read_shortens hread) hmore rfl
        refine ⟨List.forall_mem_cons.2 ⟨ht, htypes⟩, ?_⟩
        rw [hfront, hback, List.flatMap_cons, List.append_assoc]

theorem readParams_eq_ok_iff : readParams cs = .ok (types, rest) ↔
    (∀ t ∈ types, t.WellNamed) ∧ cs = types.flatMap (·.descriptorChars) ++ ')' :: rest :=
  ⟨readParams_sound, fun ⟨h, hcs⟩ => hcs ▸ readParams_append h rest⟩

/-- The text of a result type, which is `V` if nothing is returned. -/
def resultChars (result : Option ValueType) : List Char :=
  (result.map (·.descriptorChars)).getD ['V']

theorem descriptor_eq_iff : s.descriptor = text ↔
    text.toList = '(' :: (s.types.flatMap (·.descriptorChars) ++ ')' :: resultChars s.result) := by
  rw [descriptor, ← String.toList_inj, String.toList_ofList, eq_comm]
  rfl

theorem ofDescriptor_of_chars (isStatic : Bool) (htypes : ∀ t ∈ types, t.WellNamed)
    (hresult : ∀ t ∈ result, t.WellNamed) (htext : text.toList =
      '(' :: (types.flatMap (·.descriptorChars) ++ ')' :: resultChars result)) :
    ofDescriptor text isStatic = .ok ⟨types.map .unnamed, result, isStatic⟩ := by
  unfold ofDescriptor
  rw [htext]
  simp only [readParams_append htypes]
  cases result with
  | none => rfl
  | some t =>
    have ht : ValueType.ofDescriptor (String.ofList (resultChars (some t))) = .ok t :=
      ValueType.ofDescriptor_descriptor (hresult t rfl)
    split
    · rename_i hread
      cases hread
    · rename_i hvoid
      exact (t.descriptorChars_ne_void (congrArg Prod.snd (Except.ok.inj hvoid))).elim
    · rename_i hread
      cases hread
      rw [ht]

/-- A signature is read from the texts of its types, as they follow each other. -/
theorem exists_chars_of_ofDescriptor (h : ofDescriptor text isStatic = .ok s) :
    ∃ (types : List ValueType) (result : Option ValueType),
      (∀ t ∈ types, t.WellNamed) ∧ (∀ t ∈ result, t.WellNamed) ∧
      text.toList = '(' :: (types.flatMap (·.descriptorChars) ++ ')' :: resultChars result) ∧
      s = ⟨types.map .unnamed, result, isStatic⟩ := by
  unfold ofDescriptor at h
  split at h
  · rename_i cs htext
    split at h
    · cases h
    · rename_i types hread
      cases h
      obtain ⟨htypes, hcs⟩ := readParams_eq_ok_iff.1 hread
      exact ⟨types, none, htypes, by simp, hcs ▸ htext, rfl⟩
    · rename_i types rest _ hread
      obtain ⟨htypes, hcs⟩ := readParams_eq_ok_iff.1 hread
      split at h
      · cases h
      · rename_i t hresult
        cases h
        obtain ⟨ht, hrest⟩ := ValueType.ofDescriptor_eq_ok_iff.1 hresult
        obtain rfl : t.descriptorChars = rest := String.ofList_injective hrest
        exact ⟨types, some t, htypes, by simpa using ht, hcs ▸ htext, rfl⟩
  · cases h

end Signature

/-- A text is read as a type or as a signature if and only if it is the descriptor of it, class
names are not empty and hold no semicolon, and parameters have no names. -/
theorem descriptors_exact :
    (∀ (text : String) (t : ValueType),
      ValueType.ofDescriptor text = .ok t ↔ t.WellNamed ∧ t.descriptor = text) ∧
    ∀ (text : String) (isStatic : Bool) (s : Signature),
      Signature.ofDescriptor text isStatic = .ok s ↔
        (∀ p ∈ s.params, p.name = none ∧ p.synthetic = false) ∧ s.isStatic = isStatic ∧
          (∀ t ∈ s.types, t.WellNamed) ∧ (∀ t ∈ s.result, t.WellNamed) ∧ s.descriptor = text := by
  refine ⟨fun text t => ValueType.ofDescriptor_eq_ok_iff, fun text isStatic s => ⟨?_, ?_⟩⟩
  · intro h
    obtain ⟨types, result, htypes, hresult, htext, rfl⟩ := Signature.exists_chars_of_ofDescriptor h
    have hsame : Signature.types ⟨types.map .unnamed, result, isStatic⟩ = types :=
      types_unnamed types
    refine ⟨Parameter.eq_unnamed_iff.1 (by rw [types_unnamed]), rfl, ?_, hresult, ?_⟩
    · rwa [hsame]
    · rwa [Signature.descriptor_eq_iff, hsame]
  · rintro ⟨hparams, rfl, htypes, hresult, htext⟩
    have hread := Signature.ofDescriptor_of_chars s.isStatic htypes hresult
      (Signature.descriptor_eq_iff.1 htext)
    rwa [Signature.types, ← Parameter.eq_unnamed_iff.2 hparams] at hread

/-- A class name may hold any other character of a descriptor. -/
example : Signature.ofDescriptor "(La)V;[[L(é[;)V" true =
    .ok ⟨[.unnamed (.object "a)V"), .unnamed (.array (.array (.object "(é[")))], none, true⟩ := by
  decide +kernel

end Reparam
