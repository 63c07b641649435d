import Mathlib.Data.List.Basic
import Reparam.Apply.Retype

/-! Retyping the calls behind the loads of a parameter that became an object of another class. Only
the owners of calls change, and which calls they are does not depend on how slots are numbered. -/
namespace Reparam

variable {x0 x : Nat} {old new : String} {loaded : Bool} {code : Code} {i : Instruction}
  {f : Nat → Nat}

namespace Instruction

theorem isBoundary_mapSlot (f : Nat → Nat) (i : Instruction) :
    (i.mapSlot f).isBoundary = i.isBoundary := by
  cases i <;> rfl

/-- No load of another slot is taken for one of the given slot. -/
theorem isLoadOf_mapSlot (h : ∀ x, i.slot? = some x → (f x = f x0 ↔ x = x0)) :
    (i.mapSlot f).isLoadOf (f x0) = i.isLoadOf x0 := by
  cases i with
  | load x kind =>
    have hx := h x rfl
    change (f x == f x0) = (x == x0)
    rw [Bool.eq_iff_iff, beq_iff_eq, beq_iff_eq, hx]
  | _ => rfl

end Instruction

namespace Code

theorem retypeCalls_remap (h : ∀ i ∈ code, ∀ x, i.slot? = some x → (f x = f x0 ↔ x = x0)) :
    retypeCalls (f x0) old new loaded (code.remap f) =
      ((retypeCalls x0 old new loaded code).1, (retypeCalls x0 old new loaded code).2.remap f) := by
  induction code generalizing loaded with
  | nil => rfl
  | cons i code ih =>
    have ih (loaded : Bool) := @ih loaded fun j hj => h j (List.mem_cons_of_mem _ hj)
    have hload := Instruction.isLoadOf_mapSlot (h i List.mem_cons_self)
    have hcons : remap f (i :: code) = i.mapSlot f :: remap f code := rfl
    rw [hcons]
    unfold retypeCalls
    rw [Instruction.isBoundary_mapSlot, hload, ih]
    cases i with
    | invoke owner name descriptor =>
      by_cases hc : (decide (owner = old) && loaded) = true
      · simp only [Instruction.mapSlot, Instruction.slot?, hc, if_true]
        rfl
      · simp only [Instruction.mapSlot, Instruction.slot?, hc]
        rfl
    | _ => rfl

/-- Retyping to the same class changes nothing. -/
theorem retypeCalls_self (x0 : Nat) (name : String) (loaded : Bool) (code : Code) :
    (retypeCalls x0 name name loaded code).2 = code := by
  induction code generalizing loaded with
  | nil => rfl
  | cons i code ih =>
    unfold retypeCalls
    cases i with
    | invoke owner method descriptor =>
      simp only
      split
      · rename_i hc
        rw [Bool.and_eq_true, decide_eq_true_eq] at hc
        rw [ih, hc.1]
      · rw [ih]
    | _ => simp only [ih]

/-- Instructions with a slot stay as they are. -/
theorem mem_of_mem_retypeCalls (hi : i ∈ (retypeCalls x0 old new loaded code).2)
    (hx : i.slot? = some x) : i ∈ code := by
  induction code generalizing loaded with
  | nil => cases hi
  | cons j code ih =>
    unfold retypeCalls at hi
    have tail (loaded : Bool) {k : Instruction}
        (hi : i ∈ k :: (retypeCalls x0 old new loaded code).2) (hk : i = k → k = j) :
        i ∈ j :: code := by
      rcases List.mem_cons.1 hi with he | hi
      · exact List.mem_cons.2 (.inl (he.trans (hk he)))
      · exact List.mem_cons_of_mem _ (ih hi)
    cases j with
    | invoke owner name descriptor =>
      simp only at hi
      split at hi
      · refine tail _ hi ?_
        rintro rfl
        cases hx
      · exact tail _ hi fun _ => rfl
    | _ => exact tail _ hi fun _ => rfl

/-- Retypes the calls behind the loads of a parameter if it was an object and still is one. -/
def retyped (slot : Nat) (old new : ValueType) (code : Code) : Code :=
  match old, new with
  | .object oldName, .object newName => (retypeCalls slot oldName newName false code).2
  | _, _ => code

variable {told tnew : ValueType}

theorem retyped_self (slot : Nat) (t : ValueType) (code : Code) :
    code.retyped slot t t = code := by
  cases t with
  | object name => exact retypeCalls_self slot name false code
  | _ => rfl

theorem retyped_remap (h : ∀ i ∈ code, ∀ x, i.slot? = some x → (f x = f x0 ↔ x = x0)) :
    (code.remap f).retyped (f x0) told tnew = (code.retyped x0 told tnew).remap f := by
  unfold retyped
  split
  · rw [retypeCalls_remap h]
  · rfl

theorem mem_of_mem_retyped (hi : i ∈ code.retyped x0 told tnew) (hx : i.slot? = some x) :
    i ∈ code := by
  unfold retyped at hi
  split at hi
  · exact mem_of_mem_retypeCalls hi hx
  · exact hi

end Code
end Reparam
