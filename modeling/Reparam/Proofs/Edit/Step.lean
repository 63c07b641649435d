import Reparam.Proofs.Edit.Naturality

/-! What an edit does when it fits, as a relation between the list before it and the list after. -/
namespace Reparam

variable {α : Type} {fresh : ValueType → α} {retype : ValueType → α → α} {e : Edit}
  {xs ys : List α}

namespace Edit

inductive Step (fresh : ValueType → α) (retype : ValueType → α → α) :
    Edit → List α → List α → Prop where
  | insert {xs : List α} {index : Nat} (t : ValueType) (h : index ≤ xs.length) :
    Step fresh retype (.insert index t) xs (xs.insertIdx index (fresh t))
  | replace {xs : List α} {index : Nat} (t : ValueType) (h : index < xs.length) :
    Step fresh retype (.replace index t) xs (xs.modify index (retype t))
  | swap {xs : List α} {a b : Nat} (ha : a < xs.length) (hb : b < xs.length) :
    Step fresh retype (.swap a b) xs (exchange xs a b)
  | move {xs : List α} {source dest : Nat} (hs : source < xs.length) (hd : dest < xs.length) :
    Step fresh retype (.move source dest) xs (relocate xs source dest)
  | remove {xs : List α} {index : Nat} (h : index < xs.length) :
    Step fresh retype (.remove index) xs (xs.eraseIdx index)
  | substitute {xs : List α} {target source : Nat} (hne : target ≠ source)
    (ht : target < xs.length) (hs : source < xs.length) :
    Step fresh retype (.substitute target source) xs (xs.eraseIdx target)
  | inline {xs : List α} {target : Nat} (generator : Nat) (h : target < xs.length) :
    Step fresh retype (.inline target generator) xs (xs.eraseIdx target)

theorem Step.apply_eq (h : Step fresh retype e xs ys) : e.apply fresh retype xs = .ok ys := by
  cases h <;> simp_all [apply]

theorem step_of_apply (h : e.apply fresh retype xs = .ok ys) : Step fresh retype e xs ys := by
  cases e <;> simp only [apply] at h <;> split at h <;> try cases h
  case insert.isTrue.refl hi => exact .insert _ (by simpa using hi)
  case replace.isTrue.refl hi => exact .replace _ (by simpa using hi)
  case swap.isTrue.refl hi =>
    rw [Bool.and_eq_true, decide_eq_true_eq, decide_eq_true_eq] at hi
    exact .swap hi.1 hi.2
  case move.isTrue.refl hi =>
    rw [Bool.and_eq_true, decide_eq_true_eq, decide_eq_true_eq] at hi
    exact .move hi.1 hi.2
  case remove.isTrue.refl hi => exact .remove (by simpa using hi)
  case substitute.isFalse hne =>
    split at h <;> cases h
    rename_i hi
    rw [Bool.and_eq_true, decide_eq_true_eq, decide_eq_true_eq] at hi
    exact .substitute hne hi.1 hi.2
  case inline.isTrue.refl hi => exact .inline _ (by simpa using hi)

theorem Step.map {β : Type} {f : α → β} {fresh' : ValueType → β} {retype' : ValueType → β → β}
    (hf : ∀ t, f (fresh t) = fresh' t) (hr : ∀ t x, f (retype t x) = retype' t (f x))
    (h : Step fresh retype e xs ys) : Step fresh' retype' e (xs.map f) (ys.map f) := by
  refine step_of_apply ?_
  rw [apply_map hf hr, h.apply_eq]
  rfl

/-- Only an insertion brings in an element. -/
theorem Step.countP_le {p : α → Bool} (hp : ∀ t x, p (retype t x) = p x)
    (h : Step fresh retype e xs ys) :
    ys.countP p ≤ xs.countP p + if e.kind = .insert then 1 else 0 := by
  cases h with
  | @insert _ i t hi =>
    rw [(List.perm_insertIdx (fresh t) xs hi).countP_eq, List.countP_cons]
    simp only [kind, if_true]
    split <;> omega
  | @replace _ i t hi =>
    have hcount (zs : List α) : zs.countP p = (zs.map p).countP id := by
      rw [List.countP_map]
      rfl
    rw [hcount, map_modify_of_eq (hp t), ← hcount]
    exact Nat.le_add_right ..
  | swap ha hb =>
    rw [exchange_perm.countP_eq]
    exact Nat.le_add_right ..
  | move hs hd =>
    rw [(relocate_perm hd).countP_eq]
    exact Nat.le_add_right ..
  | remove | substitute | inline =>
    exact Nat.le_trans ((List.eraseIdx_sublist ..).countP_le) (Nat.le_add_right ..)

theorem Step.length_le (h : Step fresh retype e xs ys) :
    ys.length ≤ xs.length + if e.kind = .insert then 1 else 0 := by
  simpa using h.countP_le (p := fun _ => true) fun _ _ => rfl

theorem Step.primary_lt (h : Step fresh retype e xs ys) :
    e.primary < xs.length + if e.kind = .insert then 1 else 0 := by
  cases h with
  | insert t hi => exact Nat.lt_succ_of_le hi
  | replace t hi => exact hi
  | swap ha hb => exact ha
  | move hs hd => exact hs
  | remove hi => exact hi
  | substitute hne ht hs => exact ht
  | inline generator hi => exact hi

end Edit

theorem Script.run_cons {s : Script} (h : e.Step fresh retype xs ys) :
    Script.run fresh retype (e :: s) xs = s.run fresh retype ys := by
  simp only [run, h.apply_eq]

theorem Script.run_cons_ok {s : Script} (h : Script.run fresh retype (e :: s) xs = .ok ys) :
    ∃ zs, e.Step fresh retype xs zs ∧ s.run fresh retype zs = .ok ys := by
  simp only [run] at h
  split at h
  · exact ⟨_, Edit.step_of_apply ‹_›, h⟩
  · cases h

theorem Script.run_append {s t : Script} (h : s.run fresh retype xs = .ok ys) :
    (s ++ t).run fresh retype xs = t.run fresh retype ys := by
  induction s generalizing xs with
  | nil =>
    cases h
    rfl
  | cons e rest ih =>
    obtain ⟨zs, he, hr⟩ := run_cons_ok h
    rw [List.cons_append, run_cons he, ih hr]

theorem Script.count_cons (e : Edit) (s : Script) (kind : EditKind) :
    Script.count (e :: s) kind = s.count kind + if e.kind = kind then 1 else 0 := by
  simp only [count, List.countP_cons, decide_eq_true_eq]

/-- Where no list gets longer than a limit, every edit starts below it. -/
theorem Script.run_primary_lt {s : Script} {limit : Nat} (h : s.run fresh retype xs = .ok ys)
    (hlimit : xs.length + s.count .insert ≤ limit) : ∀ e ∈ s, e.primary < limit := by
  induction s generalizing xs with
  | nil => simp
  | cons e rest ih =>
    obtain ⟨zs, he, hr⟩ := run_cons_ok h
    rw [count_cons] at hlimit
    have hprimary := he.primary_lt
    have hlength := he.length_le
    exact List.forall_mem_cons.2 ⟨by omega, ih hr (by omega)⟩

end Reparam
