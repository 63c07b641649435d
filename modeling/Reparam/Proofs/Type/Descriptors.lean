import Reparam.Type.Descriptor

/-! Which types come back from their descriptors: those whose class names are not empty and hold no
semicolon. No others are ever read, and none is read from another text than its descriptor. -/
namespace Reparam.ValueType

variable {t : ValueType} {cs rest : List Char}

/-- The class names in the type are not empty and hold no semicolon. -/
def WellNamed : ValueType → Prop
  | object name => name ≠ "" ∧ ';' ∉ name.toList
  | array element => element.WellNamed
  | _ => True

theorem readClass_append {name : String} (hne : name ≠ "") (hname : ';' ∉ name.toList)
    (rest : List Char) : readClass (name.toList ++ ';' :: rest) = .ok (object name, rest) := by
  have hplain : ∀ c ∈ name.toList, decide (c ≠ ';') = true := by
    intro c hc
    rw [decide_eq_true_eq]
    rintro rfl
    exact hname hc
  have htake : (name.toList ++ ';' :: rest).takeWhile (· ≠ ';') = name.toList := by
    rw [List.takeWhile_append_of_pos hplain, List.takeWhile_cons_of_neg (by simp), List.append_nil]
  have hdrop : (name.toList ++ ';' :: rest).dropWhile (· ≠ ';') = ';' :: rest := by
    rw [List.dropWhile_append_of_pos hplain, List.dropWhile_cons_of_neg (by simp)]
  rw [readClass, hdrop, htake]
  have hchars : name.toList ≠ [] := fun h => hne (String.toList_eq_nil_iff.1 h)
  cases h : name.toList with
  | nil => exact absurd h hchars
  | cons c cs => simp only [← h, String.ofList_toList]

theorem read_descriptorChars (h : t.WellNamed) (rest : List Char) :
    read (t.descriptorChars ++ rest) = .ok (t, rest) := by
  induction t with
  | object name =>
    have hclass := readClass_append h.1 h.2 rest
    simp [descriptorChars, read, hclass]
  | array element ih => simp [descriptorChars, read, ih h]
  | _ => rfl

theorem readClass_wellNamed (h : readClass cs = .ok (t, rest)) : t.WellNamed := by
  have hplain : ∀ c ∈ cs.takeWhile (· ≠ ';'), c ≠ ';' := by
    intro c hc
    simpa using List.all_eq_true.1 (List.all_takeWhile (p := (· ≠ ';')) (l := cs)) c hc
  unfold readClass at h
  split at h
  · cases h
  cases hname : cs.takeWhile (· ≠ ';') with
  | nil =>
    rw [hname] at h
    cases h
  | cons c name =>
    rw [hname] at h hplain
    cases h
    refine ⟨?_, ?_⟩
    · intro hempty
      simpa using congrArg String.toList hempty
    · rw [String.toList_ofList]
      intro hmem
      exact hplain ';' hmem rfl

theorem read_wellNamed (h : read cs = .ok (t, rest)) : t.WellNamed := by
  induction cs generalizing t with
  | nil => cases h
  | cons c cs ih =>
    rw [read] at h
    split at h
    · split at h
      · rename_i element more hread
        cases h
        change element.WellNamed
        exact ih hread
      · cases h
    split at h
    · exact readClass_wellNamed h
    split at h
    · rename_i hprimitive
      cases h
      unfold primitive? at hprimitive
      split at hprimitive
      all_goals cases hprimitive
      all_goals trivial
    · cases h

theorem ofDescriptor_descriptor (h : t.WellNamed) : ofDescriptor t.descriptor = .ok t := by
  have hread := read_descriptorChars h []
  rw [List.append_nil] at hread
  simp only [ofDescriptor, descriptor, String.toList_ofList, hread]

theorem ofDescriptor_wellNamed {text : String} (h : ofDescriptor text = .ok t) : t.WellNamed := by
  unfold ofDescriptor at h
  split at h
  · rename_i hread
    cases h
    exact read_wellNamed hread
  · cases h
  · cases h

theorem readClass_text (h : readClass cs = .ok (t, rest)) :
    'L' :: cs = t.descriptorChars ++ rest := by
  have hsplit := List.takeWhile_append_dropWhile (p := (· ≠ ';')) (l := cs)
  unfold readClass at h
  split at h
  · cases h
  · rename_i c tail hdrop
    have hend := List.head?_dropWhile_not (· ≠ ';') cs
    rw [hdrop] at hend
    cases hname : cs.takeWhile (· ≠ ';') with
    | nil =>
      rw [hname] at h
      cases h
    | cons d name =>
      rw [hname] at h
      cases h
      obtain rfl : c = ';' := by simpa using hend
      rw [hname, hdrop] at hsplit
      simp [descriptorChars, ← hsplit]

theorem descriptorChars_of_primitive {c : Char} (h : primitive? c = some t) :
    t.descriptorChars = [c] := by
  unfold primitive? at h
  split at h <;> cases h <;> rfl

/-- Reading takes the descriptor of what it returns off the front. -/
theorem read_text (h : read cs = .ok (t, rest)) : cs = t.descriptorChars ++ rest := by
  induction cs generalizing t with
  | nil => cases h
  | cons c cs ih =>
    rw [read] at h
    split at h
    · rename_i hlayer
      split at h
      · rename_i element more hread
        cases h
        rw [descriptorChars, List.cons_append, ← ih hread, hlayer]
      · cases h
    split at h
    · rename_i hclass
      rw [hclass, readClass_text h]
    split at h
    · rename_i hprimitive
      cases h
      rw [descriptorChars_of_primitive hprimitive]
      rfl
    · cases h

/-- What a type is read from is its descriptor, with all that stands behind left over. -/
theorem read_eq_ok_iff : read cs = .ok (t, rest) ↔ t.WellNamed ∧ cs = t.descriptorChars ++ rest :=
  ⟨fun h => ⟨read_wellNamed h, read_text h⟩, fun ⟨h, hcs⟩ => hcs ▸ read_descriptorChars h rest⟩

theorem ofDescriptor_eq_ok_iff {text : String} :
    ofDescriptor text = .ok t ↔ t.WellNamed ∧ t.descriptor = text := by
  constructor
  · intro h
    refine ⟨ofDescriptor_wellNamed h, ?_⟩
    unfold ofDescriptor at h
    split at h
    · rename_i hread
      cases h
      rw [descriptor, ← String.toList_inj, String.toList_ofList, read_text hread, List.append_nil]
    · cases h
    · cases h
  · rintro ⟨h, rfl⟩
    exact ofDescriptor_descriptor h

end Reparam.ValueType
