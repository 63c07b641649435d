import Mathlib.Data.List.InsertIdx
import Mathlib.Data.List.Perm.Basic
import Reparam.Edit.Flatten

/-! Edits look at the length of a list and never at its elements. So a script that runs over one
kind of element runs in the same way over any other, and fails with the same error. -/
namespace Reparam

variable {α β : Type} {f : α → β} {fresh : ValueType → α} {retype : ValueType → α → α}
  {fresh' : ValueType → β} {retype' : ValueType → β → β}

theorem exchange_map (f : α → β) (xs : List α) (a b : Nat) :
    exchange (xs.map f) a b = (exchange xs a b).map f := by
  simp only [exchange, List.getElem?_map]
  cases xs[a]? <;> cases xs[b]? <;> simp

@[simp] theorem exchange_length (xs : List α) (a b : Nat) :
    (exchange xs a b).length = xs.length := by
  unfold exchange
  split <;> simp

theorem relocate_map (f : α → β) (xs : List α) (source dest : Nat) :
    relocate (xs.map f) source dest = (relocate xs source dest).map f := by
  simp only [relocate, List.getElem?_map]
  cases xs[source]? <;> simp [List.eraseIdx_map, List.map_insertIdx]

theorem relocate_length {xs : List α} {source dest : Nat} (hs : source < xs.length)
    (hd : dest < xs.length) : (relocate xs source dest).length = xs.length := by
  simp only [relocate, List.getElem?_eq_getElem hs]
  rw [List.length_insertIdx_of_le_length (by grind), List.length_eraseIdx_of_lt hs]
  omega

theorem exchange_perm {xs : List α} {a b : Nat} : (exchange xs a b).Perm xs := by
  unfold exchange
  split
  · rename_i x y hx hy
    obtain ⟨ha, rfl⟩ := List.getElem?_eq_some_iff.1 hx
    obtain ⟨hb, rfl⟩ := List.getElem?_eq_some_iff.1 hy
    exact List.set_set_perm ha hb
  · exact .refl _

theorem relocate_perm {xs : List α} {source dest : Nat} (hd : dest < xs.length) :
    (relocate xs source dest).Perm xs := by
  unfold relocate
  split
  · rename_i x hx
    obtain ⟨hs, rfl⟩ := List.getElem?_eq_some_iff.1 hx
    refine (List.perm_insertIdx _ _ (by grind)).trans ?_
    exact (List.getElem_cons_eraseIdx_perm hs)
  · exact .refl _

/-- What is modified looks the same to a function that does not tell the two apart. -/
theorem map_modify_of_eq {g : α → α} (h : ∀ x, f (g x) = f x) (xs : List α) (i : Nat) :
    (xs.modify i g).map f = xs.map f := by
  apply List.ext_getElem?
  intro j
  simp only [List.getElem?_map, List.getElem?_modify]
  split <;> cases xs[j]? <;> simp [h]

/-- The same way out of a list of another kind. -/
def Departure.map (f : α → β) : Departure α → Departure β
  | removed => removed
  | substituted source => substituted (f source)
  | inlined generator => inlined generator

namespace Edit

theorem apply_map (hf : ∀ t, f (fresh t) = fresh' t)
    (hr : ∀ t x, f (retype t x) = retype' t (f x)) (e : Edit) (xs : List α) :
    e.apply fresh' retype' (xs.map f) = (e.apply fresh retype xs).map (List.map f) := by
  have guarded (c : Bool) (ys : List α) (err : ScriptError) :
      (if c then .ok (ys.map f) else .error err : Except ScriptError (List β)) =
        (if c then .ok ys else .error err : Except ScriptError (List α)).map (List.map f) := by
    cases c <;> rfl
  cases e with
  | insert index t => simp only [apply, List.length_map, ← hf, ← guarded, List.map_insertIdx]
  | replace index t =>
    simp only [apply, List.length_map, ← guarded]
    congr 2
    apply List.ext_getElem?
    intro i
    simp only [List.getElem?_modify, List.getElem?_map]
    split <;> cases xs[i]? <;> simp [hr]
  | swap a b => simp only [apply, List.length_map, exchange_map, ← guarded]
  | move source dest => simp only [apply, List.length_map, relocate_map, ← guarded]
  | remove index => simp only [apply, List.length_map, List.eraseIdx_map, ← guarded]
  | substitute target source =>
    simp only [apply, List.length_map, List.eraseIdx_map]
    split
    · rfl
    · exact guarded (_ && _) ..
  | inline target generator => simp only [apply, List.length_map, List.eraseIdx_map, ← guarded]

theorem departure_map (f : α → β) (e : Edit) (xs : List α) :
    e.departure? (xs.map f) = (e.departure? xs).map fun p => (f p.1, p.2.map f) := by
  cases e with
  | substitute target source =>
    simp only [departure?, List.getElem?_map]
    cases xs[target]? <;> cases xs[source]? <;> rfl
  | remove index =>
    simp only [departure?, List.getElem?_map, Option.map_map]
    rfl
  | inline target generator =>
    simp only [departure?, List.getElem?_map, Option.map_map]
    rfl
  | _ => rfl

end Edit

theorem Script.run_map (hf : ∀ t, f (fresh t) = fresh' t)
    (hr : ∀ t x, f (retype t x) = retype' t (f x)) (s : Script) (xs : List α) :
    s.run fresh' retype' (xs.map f) = (s.run fresh retype xs).map (List.map f) := by
  induction s generalizing xs with
  | nil => rfl
  | cons e rest ih =>
    simp only [run, Edit.apply_map hf hr]
    cases e.apply fresh retype xs with
    | ok ys => exact ih ys
    | error err => rfl

end Reparam
