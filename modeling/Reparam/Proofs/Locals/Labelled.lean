import Reparam.Proofs.Locals.Housed

/-! What is known about the parameters of a body in which every parameter has its local, while a
script is applied: their types, or the names of the locals of those that were there before. -/
namespace Reparam

section Lists

variable {α β : Type} {R : α → β → Prop} {xs zs : List α} {ys : List β} {x : α} {y : β}
  {f : α → α} {g : β → β} {order : List Nat}

theorem forall₂_insertIdx (h : List.Forall₂ R xs ys) (hxy : R x y) (i : Nat) :
    List.Forall₂ R (xs.insertIdx i x) (ys.insertIdx i y) := by
  induction h generalizing i with
  | nil =>
    cases i with
    | zero => exact .cons hxy .nil
    | succ i => exact .nil
  | cons h hs ih =>
    cases i with
    | zero => exact .cons hxy (.cons h hs)
    | succ i => exact .cons h (ih i)

theorem forall₂_modify (h : List.Forall₂ R xs ys) (hfg : ∀ x y, R x y → R (f x) (g y)) (i : Nat) :
    List.Forall₂ R (xs.modify i f) (ys.modify i g) := by
  induction h generalizing i with
  | nil => cases i <;> exact .nil
  | cons h hs ih =>
    cases i with
    | zero => exact .cons (hfg _ _ h) hs
    | succ i => exact .cons h (ih i)

theorem forall₂_eraseIdx (h : List.Forall₂ R xs ys) (i : Nat) :
    List.Forall₂ R (xs.eraseIdx i) (ys.eraseIdx i) := by
  induction h generalizing i with
  | nil => exact .nil
  | cons h hs ih =>
    cases i with
    | zero => exact hs
    | succ i => exact .cons h (ih i)

theorem forall₂_getElem {k : Nat} (h : List.Forall₂ R xs ys) (hx : xs[k]? = some x) :
    ∃ y, ys[k]? = some y ∧ R x y := by
  induction h generalizing k with
  | nil => cases hx
  | cons h hs ih =>
    cases k with
    | zero =>
      cases hx
      exact ⟨_, rfl, h⟩
    | succ k => exact ih hx

/-- Lists that go together go together in another order. -/
theorem forall₂_order (h : List.Forall₂ R xs ys) (horder : order.map (xs[·]?) = zs.map some) :
    ∃ ys', order.map (ys[·]?) = ys'.map some ∧ List.Forall₂ R zs ys' := by
  induction order generalizing zs with
  | nil =>
    obtain rfl : zs = [] := by simpa using horder.symm
    exact ⟨[], rfl, .nil⟩
  | cons k order ih =>
    obtain _ | ⟨z, zs⟩ := zs
    · cases horder
    · rw [List.map_cons, List.map_cons, List.cons.injEq] at horder
      obtain ⟨y, hy, hR⟩ := forall₂_getElem h horder.1
      obtain ⟨ys', hys', hRs⟩ := ih horder.2
      exact ⟨y :: ys', by rw [List.map_cons, hy, hys', List.map_cons], .cons hR hRs⟩

end Lists

variable {α : Type} {fresh : ValueType → α} {retype : ValueType → α → α}
  {R : α → ValueType × String → Prop} {a : Applier} {receiver : Nat}

/-- Every parameter has its local, and what is known of each parameter agrees with it. -/
def Labelled (w : Widths) (receiver : Nat) (R : α → ValueType × String → Prop) (labels : List α)
    (p : Progress) : Prop :=
  ∃ params, List.Forall₂ R labels params ∧ Housed w receiver params p

/-- What is known of parameters stays in line with them, if it holds of an inserted parameter
whatever its name and of a retyped one with the name it had. -/
theorem Labelled.carries (hw : ∀ t, 0 < a.widths t) (hfresh : ∀ t name, R (fresh t) (t, name))
    (hretype : ∀ t x q, R x q → R (retype t x) (t, q.2)) :
    Carries a fresh retype (Labelled a.widths receiver R) where
  length_params := by
    rintro labels p ⟨params, hagree, h⟩
    rw [h.length_params, hagree.length_eq]
  length_entries := by
    rintro labels p ⟨params, hagree, h⟩
    rw [h.length_entries, hagree.length_eq]
  of_code := by
    rintro labels p p' code ⟨params, hagree, h⟩ hbody htable
    exact ⟨params, hagree, h.of_code hbody htable⟩
  insert := by
    rintro labels p p' index t ⟨params, hagree, h⟩ hindex hp
    rw [hagree.length_eq] at hindex
    obtain ⟨name, h⟩ := h.insertIdx hw hindex hp
    exact ⟨_, forall₂_insertIdx hagree (hfresh t name) index, h⟩
  replace := by
    rintro labels p p' index t ⟨params, hagree, h⟩ hindex hp
    rw [hagree.length_eq] at hindex
    exact ⟨_, forall₂_modify hagree (hretype t) index, h.modify hw hindex hp⟩
  drop := by
    rintro labels p p' index d ⟨params, hagree, h⟩ hindex hp
    rw [hagree.length_eq] at hindex
    exact ⟨_, forall₂_eraseIdx hagree index, h.eraseIdx hw hindex hp⟩
  permute := by
    rintro labels labels' p p' order ⟨params, hagree, h⟩ hperm horder hp
    rw [hagree.length_eq] at hperm
    obtain ⟨params', hparams, hagree'⟩ := forall₂_order hagree horder
    exact ⟨params', hagree', h.permute hw hperm hparams hp⟩

end Reparam
