import Reparam.Proofs.Edit.Step

/-! An edit of a part of a list leaves what stands before and behind the part alone. -/
namespace Reparam

variable {α : Type} {fresh : ValueType → α} {retype : ValueType → α → α} {xs ys : List α}

theorem exists_append_of_getElem? {i : Nat} {x : α} (h : xs[i]? = some x) :
    ∃ pre post, xs = pre ++ x :: post ∧ pre.length = i := by
  obtain ⟨hlt, rfl⟩ := List.getElem?_eq_some_iff.1 h
  refine ⟨xs.take i, xs.drop (i + 1), ?_, by simp; omega⟩
  rw [← List.drop_eq_getElem_cons hlt, List.take_append_drop]

theorem insertIdx_frame (pre post : List α) {index : Nat} (h : index ≤ xs.length) (x : α) :
    (pre ++ xs ++ post).insertIdx (index + pre.length) x =
      pre ++ xs.insertIdx index x ++ post := by
  apply List.ext_getElem?
  intro i
  grind

theorem modify_frame (pre post : List α) (f : α → α) {index : Nat} (h : index < xs.length) :
    (pre ++ xs ++ post).modify (index + pre.length) f =
      pre ++ xs.modify index f ++ post := by
  apply List.ext_getElem?
  intro i
  grind

theorem eraseIdx_frame (pre post : List α) {index : Nat} (h : index < xs.length) :
    (pre ++ xs ++ post).eraseIdx (index + pre.length) = pre ++ xs.eraseIdx index ++ post := by
  rw [List.append_assoc, List.eraseIdx_append_of_length_le (by omega), Nat.add_sub_cancel,
    List.eraseIdx_append_of_lt_length h, List.append_assoc]

/-- One element between others. -/
theorem insertIdx_middle (pre post : List α) (x : α) :
    (pre ++ post).insertIdx pre.length x = pre ++ x :: post := by
  have hframe := @insertIdx_frame _ [] pre post 0 (Nat.zero_le _) x
  rw [Nat.zero_add, List.append_nil, List.append_assoc] at hframe
  exact hframe

theorem modify_middle (pre post : List α) (x : α) (f : α → α) :
    (pre ++ x :: post).modify pre.length f = pre ++ f x :: post := by
  have hframe := @modify_frame _ [x] pre post f 0 Nat.one_pos
  rw [Nat.zero_add, List.append_assoc, List.append_assoc] at hframe
  exact hframe

theorem eraseIdx_middle (pre post : List α) (x : α) :
    (pre ++ x :: post).eraseIdx pre.length = pre ++ post := by
  have hframe := @eraseIdx_frame _ [x] pre post 0 Nat.one_pos
  rw [Nat.zero_add, List.append_assoc, List.append_assoc] at hframe
  exact hframe

theorem getElem?_frame (pre post : List α) {index : Nat} (h : index < xs.length) :
    (pre ++ xs ++ post)[index + pre.length]? = xs[index]? := by
  grind

theorem set_frame (pre post : List α) {index : Nat} (h : index < xs.length) (x : α) :
    (pre ++ xs ++ post).set (index + pre.length) x = pre ++ xs.set index x ++ post := by
  rw [List.append_assoc, List.set_append_right _ _ (by omega), Nat.add_sub_cancel,
    List.set_append_left _ _ h, List.append_assoc]

theorem exchange_frame (pre post : List α) {a b : Nat} (ha : a < xs.length)
    (hb : b < xs.length) :
    exchange (pre ++ xs ++ post) (a + pre.length) (b + pre.length) =
      pre ++ exchange xs a b ++ post := by
  simp only [exchange, getElem?_frame pre post ha, getElem?_frame pre post hb,
    List.getElem?_eq_getElem ha, List.getElem?_eq_getElem hb]
  rw [set_frame pre post ha, set_frame pre post (by simpa using hb)]

theorem relocate_frame (pre post : List α) {source dest : Nat} (hs : source < xs.length)
    (hd : dest < xs.length) :
    relocate (pre ++ xs ++ post) (source + pre.length) (dest + pre.length) =
      pre ++ relocate xs source dest ++ post := by
  simp only [relocate, getElem?_frame pre post hs, List.getElem?_eq_getElem hs]
  rw [eraseIdx_frame pre post hs, insertIdx_frame pre post (by grind)]

theorem Edit.Step.frame (pre post : List α) {e : Edit} (h : e.Step fresh retype xs ys) :
    (e.offset pre.length).Step fresh retype (pre ++ xs ++ post) (pre ++ ys ++ post) := by
  cases h with
  | insert t h =>
    rw [← insertIdx_frame pre post h]
    exact .insert t (by simp; omega)
  | replace t h =>
    rw [← modify_frame pre post _ h]
    exact .replace t (by simp; omega)
  | swap ha hb =>
    rw [← exchange_frame pre post ha hb]
    exact .swap (by simp; omega) (by simp; omega)
  | move hs hd =>
    rw [← relocate_frame pre post hs hd]
    exact .move (by simp; omega) (by simp; omega)
  | remove h =>
    rw [← eraseIdx_frame pre post h]
    exact .remove (by simp; omega)
  | substitute hne ht hs =>
    rw [← eraseIdx_frame pre post ht]
    exact .substitute (fun he => hne (by simpa using he)) (by simp; omega) (by simp; omega)
  | inline generator h =>
    rw [← eraseIdx_frame pre post h]
    exact .inline generator (by simp; omega)

/-- What an edit takes out of a part of a list is what it takes out of the part alone. -/
theorem Edit.Step.departure_frame (pre post : List α) {e : Edit} (h : e.Step fresh retype xs ys) :
    (e.offset pre.length).departure? (pre ++ xs ++ post) = e.departure? xs := by
  cases h with
  | remove hi => simp only [offset, mapIndices, departure?, getElem?_frame pre post hi]
  | substitute _ ht hs =>
    simp only [offset, mapIndices, departure?, getElem?_frame pre post ht, getElem?_frame pre post hs]
  | inline _ hi => simp only [offset, mapIndices, departure?, getElem?_frame pre post hi]
  | insert | replace | swap | move => rfl

/-- A script for a part of a list does the same to that part wherever it stands. -/
theorem Script.run_frame (pre post : List α) {s : Script} (h : s.run fresh retype xs = .ok ys) :
    Script.run fresh retype (s.map (·.offset pre.length)) (pre ++ xs ++ post) =
      .ok (pre ++ ys ++ post) := by
  induction s generalizing xs with
  | nil =>
    cases h
    rfl
  | cons e rest ih =>
    obtain ⟨zs, he, hr⟩ := run_cons_ok h
    rw [List.map_cons, run_cons (he.frame pre post), ih hr]

/-- What stands behind a list does not matter to a script that can be run on it. -/
theorem Script.run_behind {s : Script} (h : s.run fresh retype xs = .ok ys) (back : List α) :
    s.run fresh retype (xs ++ back) = .ok (ys ++ back) := by
  have hframe := run_frame [] back h
  have hoffset : s.map (·.offset 0) = s := by
    refine List.map_id'' (fun e => ?_) s
    cases e <;> rfl
  simpa [hoffset] using hframe

end Reparam
