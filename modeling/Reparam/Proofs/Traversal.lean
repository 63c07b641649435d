import Mathlib.Data.List.Forall2

/-! Walks over a list that may fail on the way. -/
namespace Reparam

variable {α β ε : Type} {f g : α → Except ε β} {xs : List α}

@[simp] theorem ok_bind (x : α) (f : α → Except ε β) : (Except.ok x >>= f) = f x := rfl

theorem exists_of_bind {x : Except ε α} {f : α → Except ε β} {r : β}
    (h : x >>= f = .ok r) : ∃ a, x = .ok a ∧ f a = .ok r := by
  cases x with
  | error err => cases h
  | ok a => exact ⟨a, rfl, h⟩

theorem error_of_bind {x : Except ε α} {f : α → Except ε β} {err : ε}
    (h : x >>= f = .error err) : x = .error err ∨ ∃ y, x = .ok y ∧ f y = .error err := by
  cases x with
  | error err' =>
    cases h
    exact .inl rfl
  | ok y => exact .inr ⟨y, rfl, h⟩

theorem foldlM_keeps {P : β → Prop} {f : β → α → Except ε β} {b b' : β}
    (hstep : ∀ x ∈ xs, ∀ b b', P b → f b x = .ok b' → P b') (hb : P b)
    (h : xs.foldlM f b = .ok b') : P b' := by
  induction xs generalizing b with
  | nil =>
    cases h
    exact hb
  | cons x xs ih =>
    rw [List.foldlM_cons] at h
    obtain ⟨mid, hmid, h⟩ := exists_of_bind h
    exact ih (fun y hy => hstep y (List.mem_cons_of_mem _ hy))
      (hstep x List.mem_cons_self b mid hb hmid) h

theorem mapM_eq_ok_iff {ys : List β} :
    xs.mapM f = .ok ys ↔ List.Forall₂ (fun x y => f x = .ok y) xs ys := by
  induction xs generalizing ys with
  | nil =>
    rw [List.forall₂_nil_left_iff]
    exact ⟨fun h => by cases h; rfl, fun h => by rw [h]; rfl⟩
  | cons x xs ih =>
    rw [List.mapM_cons, List.forall₂_cons_left_iff]
    cases hx : f x with
    | error err =>
      constructor
      · intro h
        cases h
      · rintro ⟨y, ys, ⟨⟩, -⟩
    | ok y =>
      cases hxs : xs.mapM f with
      | error err =>
        constructor
        · intro h
          cases h
        · rintro ⟨_, zs, -, hzs, -⟩
          rw [ih.2 hzs] at hxs
          cases hxs
      | ok zs =>
        constructor
        · rintro ⟨⟩
          exact ⟨y, zs, rfl, ih.1 hxs, rfl⟩
        · rintro ⟨_, zs', ⟨⟩, hzs, rfl⟩
          rw [ih.2 hzs] at hxs
          cases hxs
          rfl

theorem mapM_congr (h : ∀ x ∈ xs, f x = g x) : xs.mapM f = xs.mapM g := by
  induction xs with
  | nil => rfl
  | cons x xs ih =>
    rw [List.mapM_cons, List.mapM_cons, h x List.mem_cons_self,
      ih fun y hy => h y (List.mem_cons_of_mem _ hy)]

theorem mapM_ok_of_forall₂ {R : α → β → Prop} {ys : List β} (h : List.Forall₂ R xs ys)
    (hf : ∀ x, ∀ y ∈ ys, R x y → f x = .ok y) : xs.mapM f = .ok ys := by
  refine mapM_eq_ok_iff.2 ?_
  induction h with
  | nil => exact .nil
  | cons hxy _ ih =>
    refine .cons (hf _ _ List.mem_cons_self hxy) (ih ?_)
    intro x y hy
    exact hf x y (List.mem_cons_of_mem _ hy)

theorem exists_of_mem_mapM_ok {ys : List β} {y : β} (h : xs.mapM f = .ok ys) (hy : y ∈ ys) :
    ∃ x ∈ xs, f x = .ok y := by
  have hall := mapM_eq_ok_iff.1 h
  clear h
  induction hall with
  | nil => cases hy
  | @cons x z xs ys hx hrest ih =>
    rcases List.mem_cons.1 hy with rfl | hy
    · exact ⟨x, List.mem_cons_self, hx⟩
    · obtain ⟨x', hx', hread⟩ := ih hy
      exact ⟨x', List.mem_cons_of_mem _ hx', hread⟩

theorem mem_of_mapM_error {err : ε} (h : xs.mapM f = .error err) : ∃ x ∈ xs, f x = .error err := by
  induction xs with
  | nil => cases h
  | cons x xs ih =>
    rw [List.mapM_cons] at h
    cases hx : f x with
    | error err' =>
      rw [hx] at h
      cases h
      exact ⟨x, List.mem_cons_self, hx⟩
    | ok y =>
      cases hxs : xs.mapM f with
      | error err' =>
        rw [hx, hxs] at h
        cases h
        obtain ⟨x', hx', he⟩ := ih hxs
        exact ⟨x', List.mem_cons_of_mem _ hx', he⟩
      | ok ys =>
        rw [hx, hxs] at h
        cases h

theorem exists_of_mem_mapM_some {f : α → Option β} {ys : List β} {y : β} (h : xs.mapM f = some ys)
    (hy : y ∈ ys) : ∃ x ∈ xs, f x = some y := by
  induction xs generalizing ys with
  | nil =>
    cases h
    cases hy
  | cons x xs ih =>
    rw [List.mapM_cons] at h
    obtain ⟨z, hz, h⟩ := Option.bind_eq_some_iff.1 h
    obtain ⟨zs, hzs, h⟩ := Option.bind_eq_some_iff.1 h
    cases h
    rcases List.mem_cons.1 hy with rfl | hy
    · exact ⟨x, List.mem_cons_self, hz⟩
    · obtain ⟨x', hx', hy'⟩ := ih hzs hy
      exact ⟨x', List.mem_cons_of_mem _ hx', hy'⟩

end Reparam
