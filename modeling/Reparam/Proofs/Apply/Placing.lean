import Reparam.Proofs.Apply.Sites

/-! Code with sites in the place of slots, and what the changes of an application do to it. -/
namespace Reparam

variable {g : Premises} {row row' : Row} {s s' : Site} {o : Origin} {i : Instruction}
  {x y : Nat} {f : Nat → Nat} {σ σ' : Nat → Site} {base : Code}

namespace Instruction

theorem slot_withSlot (h : i.slot? = some x) (y : Nat) : (i.withSlot y).slot? = some y := by
  cases i <;> first | rfl | cases h

theorem withSlot_self (h : i.slot? = some x) : i.withSlot x = i := by
  cases i <;> cases h <;> rfl

theorem withSlot_withSlot (i : Instruction) (x y : Nat) :
    (i.withSlot x).withSlot y = i.withSlot y := by
  cases i <;> rfl

theorem mapSlot_eq_self (h : i.slot? = none) (f : Nat → Nat) : i.mapSlot f = i := by
  simp only [mapSlot, h]

theorem mapSlot_withSlot (h : i.slot? = some x) (f : Nat → Nat) (y : Nat) :
    (i.withSlot y).mapSlot f = i.withSlot (f y) := by
  simp only [mapSlot, slot_withSlot h, withSlot_withSlot]

theorem isWrite_withSlot (i : Instruction) (y : Nat) : (i.withSlot y).isWrite = i.isWrite := by
  cases i <;> rfl

end Instruction

theorem Code.remap_plain {code : Code} (h : ∀ i ∈ code, i.slot? = none) (f : Nat → Nat) :
    code.remap f = code := by
  refine (List.map_congr_left fun i hi => ?_).trans (List.map_id code)
  exact Instruction.mapSlot_eq_self (h i hi) f

namespace Site

/-- An instruction at a site: generated code stands in its place. -/
def put (g : Premises) (row : Row) (s : Site) (i : Instruction) : Code :=
  match s with
  | generated k => (g.applier.generators.generate? k).getD []
  | s => [i.withSlot (s.slot g row)]

/-- Generated code can stand in the place of the instruction if that is where the site is. -/
def Suits (g : Premises) (s : Site) (i : Instruction) : Prop :=
  ∀ k, s = .generated k → i.isWrite = false ∧ (g.applier.generators.generate? k).isSome

theorem put_of_ne (h : ∀ k, s ≠ .generated k) : s.put g row i = [i.withSlot (s.slot g row)] := by
  cases s with
  | generated k => exact (h k rfl).elim
  | _ => rfl

theorem put_generated_plain (k : Nat) :
    ∀ j ∈ (generated k).put g row i, j.slot? = none := by
  intro j hj
  cases hk : g.applier.generators.generate? k with
  | none => simp [put, hk] at hj
  | some code =>
    simp only [put, hk, Option.getD_some] at hj
    exact g.plain k code hk j hj

/-- Remapping the code of an instruction at a site takes it to another site, or to the same one in
another row. -/
theorem remap_put (hx : i.slot? = some x)
    (hs : s' = s ∨ (∀ k, s ≠ .generated k) ∧ ∀ k, s' ≠ .generated k)
    (h : f (s.slot g row) = s'.slot g row') : (s.put g row i).remap f = s'.put g row' i := by
  have moved (hs : ∀ k, s ≠ .generated k) (hs' : ∀ k, s' ≠ .generated k) :
      (s.put g row i).remap f = s'.put g row' i := by
    rw [put_of_ne hs, put_of_ne hs', Code.remap, List.map_singleton,
      Instruction.mapSlot_withSlot hx, h]
  rcases hs with rfl | ⟨hs, hs'⟩
  · by_cases hgen : ∃ k, s' = .generated k
    · obtain ⟨k, rfl⟩ := hgen
      exact Code.remap_plain (put_generated_plain k) f
    · have hne : ∀ k, s' ≠ .generated k := fun k hk => hgen ⟨k, hk⟩
      exact moved hne hne
  · exact moved hs hs'

/-- Redirecting the slot of a site redirects the site. -/
theorem remap_put_redirect {source dest : Site} (hx : i.slot? = some x)
    (hsource : s.slot g row = source.slot g row → s = source)
    (hgen : (∀ k, source ≠ .generated k) ∧ ∀ k, dest ≠ .generated k) :
    (s.put g row i).remap (Code.redirect (source.slot g row) (dest.slot g row)) =
      (redirect source dest s).put g row i := by
  by_cases hs : s = source
  · subst hs
    rw [redirect, if_pos rfl]
    exact remap_put hx (.inr hgen) (if_pos rfl)
  · rw [redirect, if_neg hs]
    exact remap_put hx (.inl rfl) (if_neg fun he => hs (hsource he))

end Site

namespace Code

theorem exists_of_mem_remap {code : Code} (hi : i ∈ code.remap f) (hx : i.slot? = some y) :
    ∃ j ∈ code, ∃ x, j.slot? = some x ∧ y = f x := by
  obtain ⟨j, hj, rfl⟩ := List.mem_map.1 hi
  cases hjx : j.slot? with
  | none =>
    rw [Instruction.mapSlot_eq_self hjx, hjx] at hx
    cases hx
  | some x =>
    simp only [Instruction.mapSlot, hjx] at hx
    rw [Instruction.slot_withSlot hjx, Option.some.injEq] at hx
    exact ⟨j, hj, x, hjx, hx.symm⟩

/-- The code with every slot taken for a site. -/
def placed (g : Premises) (row : Row) (σ : Nat → Site) (base : Code) : Code :=
  base.flatMap fun i =>
    match i.slot? with
    | some x => (σ x).put g row i
    | none => [i]

theorem placed_cons_some (hx : i.slot? = some x) :
    placed g row σ (i :: base) = (σ x).put g row i ++ placed g row σ base := by
  simp only [placed, List.flatMap_cons, hx]

theorem placed_cons_none (hx : i.slot? = none) :
    placed g row σ (i :: base) = i :: placed g row σ base := by
  simp only [placed, List.flatMap_cons, hx, List.singleton_append]

theorem remap_placed (h : ∀ i ∈ base, ∀ x, i.slot? = some x →
      ((σ x).put g row i).remap f = (σ' x).put g row' i) :
    (placed g row σ base).remap f = placed g row' σ' base := by
  induction base with
  | nil => rfl
  | cons i base ih =>
    have ih := ih fun j hj => h j (List.mem_cons_of_mem _ hj)
    cases hx : i.slot? with
    | none =>
      rw [placed_cons_none hx, placed_cons_none hx, ← ih]
      simp only [remap, List.map_cons, Instruction.mapSlot_eq_self hx]
    | some x =>
      rw [placed_cons_some hx, placed_cons_some hx, ← ih, ← h i List.mem_cons_self x hx]
      exact List.map_append

theorem placed_congr (h : ∀ i ∈ base, ∀ x, i.slot? = some x → σ x = σ' x) :
    placed g row σ base = placed g row σ' base := by
  refine List.flatMap_congr fun i hi => ?_
  cases hx : i.slot? with
  | none => rfl
  | some x => simp only [h i hi x hx]

theorem placed_eq_self (h : ∀ i ∈ base, ∀ x, i.slot? = some x →
      (∀ k, σ x ≠ .generated k) ∧ (σ x).slot g row = x) : placed g row σ base = base := by
  refine (List.flatMap_congr fun i hi => ?_).trans (List.flatMap_singleton' base)
  cases hx : i.slot? with
  | none => rfl
  | some x =>
    obtain ⟨hgen, hslot⟩ := h i hi x hx
    simp only [Site.put_of_ne hgen, hslot, Instruction.withSlot_self hx]

/-- Code in the place of the instructions at one slot. -/
theorem flatMap_placed {replacement : Code} {y : Nat}
    (h : ∀ i ∈ base, ∀ x, i.slot? = some x →
      ((σ x).put g row i).flatMap (fun j => if j.slot? = some y then replacement else [j]) =
        (σ' x).put g row i) :
    (placed g row σ base).flatMap (fun j => if j.slot? = some y then replacement else [j]) =
      placed g row σ' base := by
  unfold placed
  rw [List.flatMap_assoc]
  refine List.flatMap_congr fun i hi => ?_
  cases hx : i.slot? with
  | none => simp [hx]
  | some x => exact h i hi x hx

theorem flatMap_plain {code replacement : Code} {y : Nat} (h : ∀ i ∈ code, i.slot? = none) :
    code.flatMap (fun j => if j.slot? = some y then replacement else [j]) = code := by
  refine (List.flatMap_congr fun i hi => ?_).trans (List.flatMap_singleton' code)
  rw [h i hi, if_neg (by simp)]

/-- And every instruction of the base with a slot is in the placed code at its site. -/
theorem withSlot_mem_placed (hi : i ∈ base) (hx : i.slot? = some x)
    (hne : ∀ k, σ x ≠ .generated k) :
    i.withSlot ((σ x).slot g row) ∈ placed g row σ base := by
  refine List.mem_flatMap.2 ⟨i, hi, ?_⟩
  simp only [hx, Site.put_of_ne hne, List.mem_singleton]

end Code
end Reparam
