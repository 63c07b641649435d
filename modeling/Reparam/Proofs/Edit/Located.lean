import Reparam.Proofs.Edit.Frame

/-! Some elements of a list with their places. Insertions in ascending order build the list up from
the other elements, replacements go through it place by place, and drops in descending order leave
the others. -/
namespace Reparam

variable {α β γ : Type} {pick : α → Option β} {base : Nat} {x : α} {xs : List α}

/-- What `pick` finds in a list, each with its place, counted from a base. -/
def located (pick : α → Option β) (base : Nat) (xs : List α) : List (Nat × β) :=
  (xs.zipIdx base).filterMap fun (x, i) => (pick x).map (i, ·)

/-- The elements that `pick` passes over. -/
def passedOver (pick : α → Option β) (xs : List α) : List α := xs.filter fun x => (pick x).isNone

@[simp] theorem located_nil : located pick base [] = [] := rfl

@[simp] theorem passedOver_nil : passedOver pick [] = [] := rfl

theorem located_cons_none (h : pick x = none) :
    located pick base (x :: xs) = located pick (base + 1) xs := by
  simp [located, h]

theorem located_cons_some {y : β} (h : pick x = some y) :
    located pick base (x :: xs) = (base, y) :: located pick (base + 1) xs := by
  simp [located, h]

theorem passedOver_cons_none (h : pick x = none) :
    passedOver pick (x :: xs) = x :: passedOver pick xs := by
  simp [passedOver, h]

theorem passedOver_cons_some {y : β} (h : pick x = some y) :
    passedOver pick (x :: xs) = passedOver pick xs := by
  simp [passedOver, h]

theorem located_eq_nil (h : ∀ x ∈ xs, pick x = none) (base : Nat) : located pick base xs = [] := by
  induction xs generalizing base with
  | nil => rfl
  | cons x xs ih =>
    rw [located_cons_none (h x List.mem_cons_self)]
    exact ih (fun y hy => h y (List.mem_cons_of_mem _ hy)) _

theorem located_shift (pick : α → Option β) (base : Nat) (xs : List α) (d : Nat) :
    located pick (base + d) xs = (located pick base xs).map fun p => (p.1 + d, p.2) := by
  induction xs generalizing base with
  | nil => rfl
  | cons x xs ih =>
    have hrest := ih (base + 1)
    rw [Nat.add_right_comm] at hrest
    cases h : pick x with
    | none => rw [located_cons_none h, located_cons_none h, hrest]
    | some y => rw [located_cons_some h, located_cons_some h, hrest, List.map_cons]

theorem located_map {φ : α → γ} {pick' : γ → Option β} (h : ∀ x, pick' (φ x) = pick x)
    (base : Nat) (xs : List α) : located pick' base (xs.map φ) = located pick base xs := by
  induction xs generalizing base with
  | nil => rfl
  | cons x xs ih =>
    have hx := h x
    cases hp : pick x with
    | none => rw [List.map_cons, located_cons_none (hx.trans hp), located_cons_none hp, ih]
    | some y => rw [List.map_cons, located_cons_some (hx.trans hp), located_cons_some hp, ih]

theorem mem_located {p : Nat × β} (h : p ∈ located pick base xs) :
    base ≤ p.1 ∧ p.1 < base + xs.length := by
  obtain ⟨⟨x, i⟩, hx, hp⟩ := List.mem_filterMap.1 h
  obtain ⟨y, _, rfl⟩ := Option.map_eq_some_iff.1 hp
  have := List.mem_zipIdx hx
  exact ⟨this.1, this.2.1⟩

theorem mem_located_zero {p : Nat × β} :
    p ∈ located pick 0 xs ↔ ∃ x, xs[p.1]? = some x ∧ pick x = some p.2 := by
  simp only [located, List.mem_filterMap, Prod.exists, List.mem_zipIdx_iff_getElem?]
  constructor
  · rintro ⟨x, i, hx, hp⟩
    obtain ⟨y, hy, rfl⟩ := Option.map_eq_some_iff.1 hp
    exact ⟨x, hx, hy⟩
  · rintro ⟨x, hx, hp⟩
    exact ⟨x, p.1, hx, by simp [hp]⟩

theorem located_pairwise : (located pick base xs).Pairwise (·.1 < ·.1) := by
  induction xs generalizing base with
  | nil => exact .nil
  | cons x xs ih =>
    cases h : pick x with
    | none => simpa only [located_cons_none h] using ih
    | some y =>
      rw [located_cons_some h]
      refine .cons ?_ ih
      intro p hp
      have := mem_located hp
      change base < p.1
      omega

theorem located_reverse_pairwise :
    (located pick base xs).reverse.Pairwise fun p q => q.1 < p.1 :=
  List.pairwise_reverse.2 located_pairwise

/-- Elements that two ways to pick do not both find have different places. -/
theorem located_disjoint {pick' : α → Option γ}
    (h : ∀ x ∈ xs, ∀ y, pick x = some y → pick' x = none) :
    ((located pick 0 xs).map (·.1)).Disjoint ((located pick' 0 xs).map (·.1)) := by
  intro i hi hi'
  obtain ⟨p, hp, rfl⟩ := List.mem_map.1 hi
  obtain ⟨p', hp', hplace⟩ := List.mem_map.1 hi'
  obtain ⟨x, hx, hpick⟩ := mem_located_zero.1 hp
  obtain ⟨x', hx', hpick'⟩ := mem_located_zero.1 hp'
  rw [hplace, hx, Option.some.injEq] at hx'
  subst hx'
  rw [h x (List.mem_of_getElem? hx) _ hpick] at hpick'
  cases hpick'

/-! Sorting by a number, in either direction. It changes nothing about pairs that are in order
already. -/

theorem pairwise_mergeSort_key (key : α → Nat) (xs : List α) :
    (xs.mergeSort fun x y => key x ≤ key y).Pairwise fun x y => key x ≤ key y := by
  have hsorted := @List.pairwise_mergeSort _ (fun x y => decide (key x ≤ key y))
    (fun _ _ _ h h' => by simp at *; omega) (fun _ _ => by simp; omega) xs
  simpa using hsorted

theorem pairwise_mergeSort_descending (key : α → Nat) (xs : List α) :
    (xs.mergeSort fun x y => key y ≤ key x).Pairwise fun x y => key y ≤ key x := by
  have hsorted := @List.pairwise_mergeSort _ (fun x y => decide (key y ≤ key x))
    (fun _ _ _ h h' => by simp at *; omega) (fun _ _ => by simp; omega) xs
  simpa using hsorted

theorem ascendingByFirst_eq {ps : List (Nat × β)} (h : ps.Pairwise (·.1 < ·.1)) :
    ascendingByFirst ps = ps := by
  refine List.mergeSort_of_pairwise (h.imp ?_)
  intro p q hpq
  simpa using Nat.le_of_lt hpq

theorem descendingByFirst_eq {ps : List (Nat × β)} (h : ps.Pairwise fun p q => q.1 < p.1) :
    descendingByFirst ps = ps := by
  refine List.mergeSort_of_pairwise (h.imp ?_)
  intro p q hpq
  simpa using Nat.le_of_lt hpq

@[simp] theorem descendingByFirst_nil : descendingByFirst ([] : List (Nat × β)) = [] :=
  List.mergeSort_nil

theorem descending_eq {is : List Nat} (h : is.Pairwise fun i j => j < i) : descending is = is := by
  refine List.mergeSort_of_pairwise (h.imp ?_)
  intro i j hij
  simpa using Nat.le_of_lt hij

/-- As many ascending places as there are, are all of them in order. -/
theorem eq_range_of_ascending {n : Nat} {is : List Nat} (h : is.Pairwise (· < ·))
    (hlt : ∀ i ∈ is, i < n) (hlen : is.length = n) : is = List.range n := by
  have hsub : is ⊆ List.range n := fun i hi => List.mem_range.2 (hlt i hi)
  have hperm : is.Perm (List.range n) :=
    (List.subperm_of_subset (h.imp Nat.ne_of_lt) hsub).perm_of_length_le (by simp [hlen])
  exact hperm.eq_of_pairwise (fun _ _ _ _ h h' => absurd h (Nat.lt_asymm h')) h
    List.pairwise_lt_range

section Scripts

variable {fresh : ValueType → γ} {retype : ValueType → γ → γ} {f g : α → γ}

theorem run_located_insert (pick : α → Option ValueType)
    (hf : ∀ x t, pick x = some t → f x = fresh t) (pre : List γ) :
    Script.run fresh retype ((located pick pre.length xs).map fun (i, t) => .insert i t)
      (pre ++ (passedOver pick xs).map f) = .ok (pre ++ xs.map f) := by
  induction xs generalizing pre with
  | nil => rfl
  | cons x xs ih =>
    have ih := ih (pre ++ [f x])
    simp only [List.length_append, List.length_singleton, List.append_assoc,
      List.singleton_append] at ih
    cases h : pick x with
    | none =>
      simp only [located_cons_none h, passedOver_cons_none h, List.map_cons]
      exact ih
    | some t =>
      simp only [located_cons_some h, passedOver_cons_some h, List.map_cons]
      have step : (Edit.insert pre.length t).Step fresh retype
          (pre ++ (passedOver pick xs).map f) (pre ++ f x :: (passedOver pick xs).map f) := by
        have : (Edit.insert 0 t).Step fresh retype [] [fresh t] := .insert t (Nat.zero_le _)
        simpa [Edit.offset, Edit.mapIndices, ← hf x t h] using
          this.frame pre ((passedOver pick xs).map f)
      rw [Script.run_cons step]
      exact ih

theorem run_located_replace (pick : α → Option ValueType)
    (hg : ∀ x, g x = match pick x with | some t => retype t (f x) | none => f x)
    (pre : List γ) :
    Script.run fresh retype ((located pick pre.length xs).map fun (i, t) => .replace i t)
      (pre ++ xs.map f) = .ok (pre ++ xs.map g) := by
  induction xs generalizing pre with
  | nil => rfl
  | cons x xs ih =>
    have ih := ih (pre ++ [g x])
    simp only [List.length_append, List.length_singleton, List.append_assoc,
      List.singleton_append] at ih
    have hx := hg x
    cases h : pick x with
    | none =>
      simp only [h] at hx
      simp only [located_cons_none h, List.map_cons, ← hx]
      exact ih
    | some t =>
      simp only [h] at hx
      simp only [located_cons_some h, List.map_cons]
      have step : (Edit.replace pre.length t).Step fresh retype (pre ++ f x :: xs.map f)
          (pre ++ g x :: xs.map f) := by
        have : (Edit.replace 0 t).Step fresh retype [f x] [retype t (f x)] := .replace t (by simp)
        simpa [Edit.offset, Edit.mapIndices, hx] using this.frame pre (xs.map f)
      rw [Script.run_cons step]
      exact ih

/-- The last place goes first, so that the places before it stay as they are. -/
theorem run_located_drop (drop : Nat × β → Edit)
    (hd : ∀ p (ys : List γ), p.1 < ys.length →
      (drop p).Step fresh retype ys (ys.eraseIdx p.1)) (pre : List γ) :
    Script.run fresh retype ((located pick pre.length xs).reverse.map drop)
      (pre ++ xs.map f) = .ok (pre ++ (passedOver pick xs).map f) := by
  induction xs generalizing pre with
  | nil => rfl
  | cons x xs ih =>
    have ih := ih (pre ++ [f x])
    simp only [List.length_append, List.length_singleton, List.append_assoc,
      List.singleton_append] at ih
    cases h : pick x with
    | none =>
      simp only [located_cons_none h, passedOver_cons_none h, List.map_cons]
      exact ih
    | some y =>
      simp only [located_cons_some h, passedOver_cons_some h, List.map_cons, List.reverse_cons,
        List.map_append, List.map_nil]
      rw [Script.run_append ih]
      rw [Script.run_cons (hd _ _ (by simp))]
      simp [Script.run, List.eraseIdx_append_of_length_le]

end Scripts
end Reparam
