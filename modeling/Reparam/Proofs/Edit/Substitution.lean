import Mathlib.Data.List.Induction
import Reparam.Proofs.Edit.Shift
import Reparam.Proofs.Traversal

/-! Substitutions of a flat script drop their targets from the back of a list to its front. -/
namespace Reparam

variable {α β γ : Type} {pick : α → Option β} {base : Nat} {x : α} {xs pre post : List α}
  {pairs : List (Nat × Nat)}

namespace FlatScript

variable {rest : List (Nat × Nat)} {gone : List Nat} {ys : List α} {p : Nat × Nat} {place : Nat}

theorem substituteAll_cons_ok (h : substituteAll (p :: rest) gone xs = .ok ys) :
    ∃ place, currentIndex? p.2 gone = some place ∧ p.1 ≠ p.2 ∧ p.1 < xs.length ∧
      place < xs.length ∧ substituteAll rest (p.1 :: gone) (xs.eraseIdx p.1) = .ok ys := by
  rw [substituteAll] at h
  split at h
  · cases h
  · split at h
    · rename_i hne hbound
      obtain ⟨place, hplace, hlt⟩ := (Option.any_eq_true ..).1 hbound.2
      exact ⟨place, hplace, hne, hbound.1, of_decide_eq_true hlt, h⟩
    · cases h

theorem substituteAll_cons (hplace : currentIndex? p.2 gone = some place) (hne : p.1 ≠ p.2)
    (ht : p.1 < xs.length) (hs : place < xs.length) :
    substituteAll (p :: rest) gone xs = substituteAll rest (p.1 :: gone) (xs.eraseIdx p.1) := by
  rw [substituteAll, if_neg hne, hplace, if_pos ⟨ht, decide_eq_true hs⟩]

/-- When a run comes to the second part, the targets of the first part are gone. -/
theorem substituteAll_append (done rest : List (Nat × Nat)) (gone : List Nat) (xs : List α) :
    substituteAll (done ++ rest) gone xs =
      substituteAll done gone xs >>= substituteAll rest ((done.map (·.1)).reverse ++ gone) := by
  induction done generalizing gone xs with
  | nil => rfl
  | cons p done ih =>
    rw [List.cons_append, substituteAll, substituteAll, ih]
    split
    · rfl
    · split
      · simp
      · rfl

/-- Where targets are repeated, more of them may be gone in front of a source by its turn than there
are places. Such a script never goes through. -/
theorem exists_error_of_astray {fresh : ValueType → α} {retype : ValueType → α → α} {f : FlatScript}
    {done : List (Nat × Nat)} {target source : Nat}
    (hsplit : descendingByFirst f.substitutions = done ++ (target, source) :: rest)
    (hastray : source < (done.map (·.1)).reverse.countP (· < source)) :
    ∃ err, f.run fresh retype xs = .error err := by
  cases hrun : f.run fresh retype xs with
  | error err => exact ⟨err, rfl⟩
  | ok ys =>
    obtain ⟨inserted, -, hrun⟩ := exists_of_bind hrun
    obtain ⟨replaced, -, hrun⟩ := exists_of_bind hrun
    obtain ⟨substituted, hsubstituted, -⟩ := exists_of_bind hrun
    rw [hsplit, substituteAll_append, List.append_nil] at hsubstituted
    obtain ⟨left, -, hsubstituted⟩ := exists_of_bind hsubstituted
    obtain ⟨place, hplace, -⟩ := substituteAll_cons_ok hsubstituted
    cases (currentIndex?_eq_none.2 hastray).symm.trans hplace

end FlatScript

theorem located_concat_none (h : pick x = none) :
    located pick base (xs ++ [x]) = located pick base xs := by
  rw [located_append, located_cons_none h, located_nil, List.append_nil]

theorem located_concat_some {y : β} (h : pick x = some y) :
    located pick base (xs ++ [x]) = located pick base xs ++ [(base + xs.length, y)] := by
  rw [located_append, located_cons_some h, located_nil]

theorem exists_append_of_passedOver {i : Nat} (h : (passedOver pick xs)[i]? = some x) :
    ∃ pre post, xs = pre ++ x :: post ∧ pick x = none ∧ (passedOver pick pre).length = i := by
  induction xs generalizing i with
  | nil => cases h
  | cons y xs ih =>
    cases hy : pick y with
    | some z =>
      rw [passedOver_cons_some hy] at h
      obtain ⟨pre, post, rfl, hx, hi⟩ := ih h
      exact ⟨y :: pre, post, rfl, hx, by rwa [passedOver_cons_some hy]⟩
    | none =>
      rw [passedOver_cons_none hy] at h
      cases i with
      | zero =>
        cases h
        exact ⟨[], xs, rfl, hy, rfl⟩
      | succ i =>
        obtain ⟨pre, post, rfl, hx, hi⟩ := ih h
        exact ⟨y :: pre, post, rfl, hx, by rw [passedOver_cons_none hy, List.length_cons, hi]⟩

/-- An element that was passed over is still there, where the others leave it. -/
theorem exists_currentIndex? {place : Nat} {c : α} (hc : (pre ++ post)[place]? = some c)
    (hp : pick c = none) :
    ∃ left, currentIndex? place ((located pick pre.length post).map (·.1)) = some left ∧
      (pre ++ passedOver pick post)[left]? = some c := by
  by_cases hlt : place < pre.length
  · refine ⟨place, currentIndex?_of_le fun i hi => ?_, ?_⟩
    · obtain ⟨p, hp, rfl⟩ := List.mem_map.1 hi
      have := mem_located hp
      omega
    · rwa [List.getElem?_append_left hlt] at hc ⊢
  · rw [List.getElem?_append_right (Nat.le_of_not_lt hlt)] at hc
    obtain ⟨front, back, rfl, hfront⟩ := exists_append_of_getElem? hc
    have hplace : place = pre.length + front.length := by omega
    refine ⟨_, hplace ▸ currentIndex?_located hp, ?_⟩
    rw [passedOver_append, passedOver_cons_none hp,
      List.getElem?_append_right (Nat.le_add_right _ _), Nat.add_sub_cancel_left,
      List.getElem?_append_right (Nat.le_refl _), Nat.sub_self]
    rfl

theorem targets_eq {ps : List (Nat × β)} {P : Nat × β → Nat × Nat → Prop}
    (h : List.Forall₂ (fun p y => y.1 = p.1 ∧ P p y) ps pairs) : pairs.map (·.1) = ps.map (·.1) := by
  induction h with
  | nil => rfl
  | cons hy _ ih => rw [List.map_cons, List.map_cons, hy.1, ih]

/-- Where no source is ever dropped, the substitutions leave what is passed over. -/
theorem substituteAll_located (f : α → γ) (post : List α) (hxs : xs = pre ++ post)
    (h : List.Forall₂ (fun p y => y.1 = p.1 ∧ y.1 ≠ y.2 ∧ ∃ c, xs[y.2]? = some c ∧ pick c = none)
      (located pick 0 pre).reverse pairs) :
    FlatScript.substituteAll pairs ((located pick pre.length post).map (·.1))
      (pre.map f ++ (passedOver pick post).map f) = .ok ((passedOver pick xs).map f) := by
  induction pre using List.reverseRecOn generalizing post pairs with
  | nil =>
    cases h
    rw [hxs]
    rfl
  | append_singleton pre x ih =>
    cases hx : pick x with
    | none =>
      rw [located_concat_none hx] at h
      have := @ih pairs (x :: post) (by simpa using hxs) h
      rw [located_cons_none hx, passedOver_cons_none hx] at this
      simpa using this
    | some y =>
      rw [located_concat_some hx, List.reverse_concat, Nat.zero_add] at h
      obtain ⟨⟨target, source⟩, rest, ⟨rfl, hne, c, hc, hpick⟩, hrest, rfl⟩ :=
        List.forall₂_cons_left_iff.1 h
      have := @ih rest (x :: post) (by simpa using hxs) hrest
      rw [located_cons_some hx, passedOver_cons_some hx, List.map_cons] at this
      rw [hxs] at hc
      obtain ⟨left, hleft, hat⟩ := exists_currentIndex? hc hpick
      obtain ⟨hbound, -⟩ := List.getElem?_eq_some_iff.1 hat
      rw [FlatScript.substituteAll_cons hleft hne (by simp) (Nat.lt_of_lt_of_eq hbound (by simp))]
      simpa [List.eraseIdx_append_of_length_le] using this

end Reparam
