import Reparam.Proofs.Edit.Located

/-! Where an index points once other elements have come to a list or left it. -/
namespace Reparam

variable {α β γ : Type} {pick : α → Option β} {base i : Nat} {x : α} {pre post xs : List α}

/-- Where an index goes as elements are inserted at some places, one after the other. -/
def pushedBack (i : Nat) (ps : List (Nat × β)) : Nat :=
  ps.foldl (fun i p => if p.1 ≤ i then i + 1 else i) i

/-- Where an index goes as the elements at some places are dropped, one after the other. -/
def pulledForward (i : Nat) (ps : List (Nat × β)) : Nat :=
  ps.foldl (fun i p => if p.1 < i then i - 1 else i) i

theorem pushedBack_cons (i : Nat) (p : Nat × β) (ps : List (Nat × β)) :
    pushedBack i (p :: ps) = pushedBack (if p.1 ≤ i then i + 1 else i) ps := rfl

theorem pulledForward_cons (i : Nat) (p : Nat × β) (ps : List (Nat × β)) :
    pulledForward i (p :: ps) = pulledForward (if p.1 < i then i - 1 else i) ps := rfl

theorem pushedBack_append (i : Nat) (ps qs : List (Nat × β)) :
    pushedBack i (ps ++ qs) = pushedBack (pushedBack i ps) qs := List.foldl_append

theorem pulledForward_append (i : Nat) (ps qs : List (Nat × β)) :
    pulledForward i (ps ++ qs) = pulledForward (pulledForward i ps) qs := List.foldl_append

theorem pushedBack_le (i : Nat) (ps : List (Nat × β)) : pushedBack i ps ≤ i + ps.length := by
  induction ps generalizing i with
  | nil => exact Nat.le_refl i
  | cons p ps ih =>
    rw [pushedBack_cons, List.length_cons]
    refine Nat.le_trans (ih _) ?_
    split <;> omega

/-- What a list is shifted by makes no difference to the shifts in it. -/
theorem pushedBack_offset (delta i : Nat) (ps : List (Nat × β)) :
    pushedBack (i + delta) (ps.map fun p => (p.1 + delta, p.2)) = pushedBack i ps + delta := by
  induction ps generalizing i with
  | nil => rfl
  | cons p ps ih =>
    rw [List.map_cons, pushedBack_cons, pushedBack_cons, ← ih]
    congr 1
    split <;> split <;> omega

theorem pulledForward_offset (delta i : Nat) (ps : List (Nat × Nat)) :
    pulledForward (i + delta) (ps.map fun p => (p.1 + delta, p.2 + delta)) =
      pulledForward i ps + delta := by
  induction ps generalizing i with
  | nil => rfl
  | cons p ps ih =>
    rw [List.map_cons, pulledForward_cons, pulledForward_cons, ← ih]
    congr 1
    split <;> split <;> omega

theorem Reorder.mapIndices_mapIndices (f g : Nat → Nat) (r : Reorder) :
    (r.mapIndices f).mapIndices g = r.mapIndices fun i => g (f i) := by
  cases r <;> rfl

theorem foldl_shiftedForInsertion (ps : List (Nat × β)) (r : Reorder) :
    ps.foldl (fun r p => r.shiftedForInsertion p.1) r = r.mapIndices (pushedBack · ps) := by
  induction ps generalizing r with
  | nil => cases r <;> rfl
  | cons p ps ih =>
    rw [List.foldl_cons, ih, Reorder.shiftedForInsertion, Reorder.mapIndices_mapIndices]
    rfl

theorem foldl_shiftedForRemoval (ps : List (Nat × β)) (r : Reorder) :
    ps.foldl (fun r p => r.shiftedForRemoval p.1) r = r.mapIndices (pulledForward · ps) := by
  induction ps generalizing r with
  | nil => cases r <;> rfl
  | cons p ps ih =>
    rw [List.foldl_cons, ih, Reorder.shiftedForRemoval, Reorder.mapIndices_mapIndices]
    rfl

theorem FlatScript.settledReorders_eq (f : FlatScript) :
    f.settledReorders = f.reorders.map fun r => r.mapIndices fun i =>
      pulledForward (pushedBack i (ascendingByFirst f.insertions))
        (descendingByFirst f.substitutions) := by
  refine List.map_congr_left ?_
  intro r _
  rw [foldl_shiftedForInsertion, foldl_shiftedForRemoval, Reorder.mapIndices_mapIndices]

theorem pushedBack_of_lt {ps : List (Nat × β)} (h : ∀ p ∈ ps, i < p.1) : pushedBack i ps = i := by
  induction ps with
  | nil => rfl
  | cons p ps ih =>
    have hp : ¬ p.1 ≤ i := Nat.not_le.2 (h p List.mem_cons_self)
    rw [pushedBack_cons, if_neg hp]
    exact ih fun q hq => h q (List.mem_cons_of_mem _ hq)

theorem pulledForward_of_le {ps : List (Nat × β)} (h : ∀ p ∈ ps, i ≤ p.1) :
    pulledForward i ps = i := by
  induction ps with
  | nil => rfl
  | cons p ps ih =>
    have hp : ¬ p.1 < i := Nat.not_lt.2 (h p List.mem_cons_self)
    rw [pulledForward_cons, if_neg hp]
    exact ih fun q hq => h q (List.mem_cons_of_mem _ hq)

/-- An index into the passed over elements, once the others are inserted around them. -/
theorem pushedBack_located (h : pick x = none) :
    pushedBack (base + (passedOver pick pre).length) (located pick base (pre ++ x :: post)) =
      base + pre.length := by
  induction pre generalizing base with
  | nil =>
    rw [List.nil_append, located_cons_none h]
    refine pushedBack_of_lt ?_
    intro p hp
    have := mem_located hp
    simp
    omega
  | cons y pre ih =>
    have ih := @ih (base + 1)
    cases hy : pick y with
    | none =>
      rw [List.cons_append, located_cons_none hy, passedOver_cons_none hy]
      simpa [Nat.add_assoc, Nat.add_comm 1] using ih
    | some z =>
      rw [List.cons_append, located_cons_some hy, passedOver_cons_some hy]
      simp only [pushedBack, List.foldl_cons, Nat.le_add_right, if_true]
      simpa [pushedBack, Nat.add_assoc, Nat.add_comm 1, Nat.add_left_comm 1] using ih

theorem pulledForward_congr {ps : List (Nat × β)} {qs : List (Nat × γ)}
    (h : ps.map (·.1) = qs.map (·.1)) : pulledForward i ps = pulledForward i qs := by
  have fold (β : Type) (ps : List (Nat × β)) : pulledForward i ps =
      (ps.map (·.1)).foldl (fun i p => if p < i then i - 1 else i) i := by
    rw [List.foldl_map]
    rfl
  rw [fold, fold, h]

theorem pulledForward_concat (i : Nat) (ps : List (Nat × β)) (p : Nat × β) :
    pulledForward i (ps ++ [p]) =
      if p.1 < pulledForward i ps then pulledForward i ps - 1 else pulledForward i ps :=
  List.foldl_append

/-- An index into a list, once the elements that were found in it are dropped. -/
theorem pulledForward_located (h : pick x = none) :
    pulledForward (base + pre.length) (located pick base (pre ++ x :: post)).reverse =
      base + (passedOver pick pre).length := by
  induction pre generalizing base with
  | nil =>
    rw [List.nil_append, located_cons_none h]
    refine pulledForward_of_le ?_
    intro p hp
    have := mem_located (List.mem_reverse.1 hp)
    simp
    omega
  | cons y pre ih =>
    have ih := @ih (base + 1)
    rw [Nat.add_assoc, Nat.add_comm 1] at ih
    cases hy : pick y with
    | none =>
      rw [List.cons_append, located_cons_none hy, passedOver_cons_none hy, List.length_cons,
        List.length_cons, ih]
      omega
    | some z =>
      rw [List.cons_append, located_cons_some hy, passedOver_cons_some hy, List.reverse_cons,
        pulledForward_concat, List.length_cons, ih, if_pos (by simp; omega)]
      omega

/-- An index and the place it points to are as far apart as elements in front of it are gone. -/
theorem currentIndex?_eq_some {gone : List Nat} {place : Nat} :
    currentIndex? i gone = some place ↔ place + gone.countP (· < i) = i := by
  simp only [currentIndex?]
  split
  · rw [Option.some_inj]
    omega
  · simp only [reduceCtorEq, false_iff]
    omega

theorem currentIndex?_eq_none {gone : List Nat} :
    currentIndex? i gone = none ↔ i < gone.countP (· < i) := by
  simp [currentIndex?]

theorem currentIndex_eq {gone : List Nat} {place : Nat} (h : currentIndex? i gone = some place) :
    currentIndex i gone = place := by
  rw [currentIndex, h, Option.getD_some]

/-- What is gone from behind an index makes no difference to it. -/
theorem currentIndex?_append_of_le (gone : List Nat) {far : List Nat} (h : ∀ j ∈ far, i ≤ j) :
    currentIndex? i (gone ++ far) = currentIndex? i gone := by
  have hnone : far.countP (· < i) = 0 := by
    refine List.countP_eq_zero.2 fun j hj => ?_
    simpa using h j hj
  rw [currentIndex?, currentIndex?, List.countP_append, hnone, Nat.add_zero]

theorem currentIndex?_of_le {gone : List Nat} (h : ∀ j ∈ gone, i ≤ j) :
    currentIndex? i gone = some i :=
  (currentIndex?_append_of_le [] h).trans (currentIndex?_eq_some.2 rfl)

theorem currentIndex?_offset (delta : Nat) {gone : List Nat} {place : Nat}
    (h : currentIndex? i gone = some place) :
    currentIndex? (i + delta) (gone.map (· + delta)) = some (place + delta) := by
  have hcount : (gone.map (· + delta)).countP (· < i + delta) = gone.countP (· < i) := by
    rw [List.countP_map]
    exact List.countP_congr fun j _ => by simp
  have hplace := currentIndex?_eq_some.1 h
  exact currentIndex?_eq_some.2 (by omega)

theorem currentIndex?_located (h : pick x = none) :
    currentIndex? (base + pre.length) ((located pick base (pre ++ x :: post)).map (·.1)) =
      some (base + (passedOver pick pre).length) := by
  rw [currentIndex?_eq_some]
  induction pre generalizing base with
  | nil =>
    have hnone : ((located pick base (x :: post)).map (·.1)).countP (· < base + 0) = 0 := by
      rw [located_cons_none h]
      simp only [List.countP_eq_zero, List.mem_map, decide_eq_true_eq]
      rintro i ⟨p, hp, rfl⟩
      have := mem_located hp
      omega
    simpa using hnone
  | cons y pre ih =>
    have ih := @ih (base + 1)
    rw [show base + 1 + pre.length = base + (pre.length + 1) by omega] at ih
    cases hy : pick y with
    | none =>
      rw [List.cons_append, located_cons_none hy, passedOver_cons_none hy, List.length_cons,
        List.length_cons]
      omega
    | some z =>
      rw [List.cons_append, located_cons_some hy, passedOver_cons_some hy, List.map_cons,
        List.countP_cons_of_pos (by simp), List.length_cons]
      omega

theorem currentIndex_perm {gone gone' : List Nat} (h : gone.Perm gone') :
    currentIndex i gone = currentIndex i gone' := by
  simp only [currentIndex, currentIndex?, h.countP_eq]

theorem located_append (ys : List α) :
    located pick base (xs ++ ys) =
      located pick base xs ++ located pick (base + xs.length) ys := by
  simp [located, List.zipIdx_append]

theorem passedOver_append (ys : List α) :
    passedOver pick (xs ++ ys) = passedOver pick xs ++ passedOver pick ys := by
  simp [passedOver]

/-- What another pick finds among the passed over elements stands where dropping takes it. -/
theorem located_passedOver (pick : α → Option β) {pick' : α → Option γ}
    (h : ∀ x, pick' x ≠ none → pick x = none) :
    (located pick' 0 xs).map (fun p => (currentIndex p.1 ((located pick 0 xs).map (·.1)), p.2)) =
      located pick' 0 (passedOver pick xs) := by
  suffices walk : ∀ pre post, xs = pre ++ post →
      (located pick' pre.length post).map
        (fun p => (currentIndex p.1 ((located pick 0 xs).map (·.1)), p.2)) =
          located pick' (passedOver pick pre).length (passedOver pick post) from walk [] xs rfl
  intro pre post hxs
  induction post generalizing pre with
  | nil => rfl
  | cons x post ih =>
    have ih := ih (pre ++ [x]) (by simpa using hxs)
    rw [passedOver_append, List.length_append, List.length_append, List.length_singleton] at ih
    cases hx : pick x with
    | some y =>
      have hx' : pick' x = none := by
        by_contra hne
        simp [h x hne] at hx
      rw [located_cons_none hx', passedOver_cons_some hx, ih, passedOver_cons_some hx]
      rfl
    | none =>
      rw [passedOver_cons_none hx, passedOver_nil, List.length_singleton] at ih
      rw [passedOver_cons_none hx]
      cases hx' : pick' x with
      | none => rw [located_cons_none hx', located_cons_none hx', ih]
      | some z =>
        have here := currentIndex_eq (@currentIndex?_located _ _ pick 0 x pre post hx)
        rw [Nat.zero_add, Nat.zero_add, ← hxs] at here
        rw [located_cons_some hx', located_cons_some hx', List.map_cons, ih, here]

end Reparam
