import Mathlib.Algebra.BigOperators.Group.List.Basic
import Reparam.Proofs.Diff.Applying

/-! How long the script of a comparison gets. Every edit is charged to a parameter that the round it
comes from takes off one of the two lists, and no parameter is charged twice. -/
namespace Reparam

variable {α : Type} {d d' : Draft} {e : Edit} {names : NameTieBreak} {cfg : Setting} {round : Round}
  {reference target span : List Placed} {moves : List (Placed × Nat)} {script : Script}

/-- How many edits a stage adds at most. -/
def Stage.charge : Stage → Nat
  | .rearrange reference target | .window reference target => reference.length + target.length
  | .stuck .. => 0
  | _ => 1

/-- The edits that a list of stages adds at most. -/
def charges (l : List Stage) : Nat := (l.map (·.charge)).sum

@[simp] theorem charges_nil : charges [] = 0 := rfl

@[simp] theorem charges_cons (stage : Stage) (l : List Stage) :
    charges (stage :: l) = stage.charge + charges l := List.sum_cons

@[simp] theorem charges_append (l l' : List Stage) :
    charges (l ++ l') = charges l + charges l' := by
  simp [charges]

/-- Stages that add one edit each. -/
theorem charges_map {f : α → Stage} (h : ∀ x, (f x).charge = 1) (xs : List α) :
    charges (xs.map f) = xs.length := by
  induction xs with
  | nil => rfl
  | cons x xs ih => rw [List.map_cons, charges_cons, h, ih, List.length_cons, Nat.add_comm]

namespace Rearrangement

/-- Each parameter of a type that occurs once is moved once at most. -/
theorem placeUnique_length {shifts : List Shift} {span' : List Placed}
    (h : placeUnique target moves span = .ok (shifts, span')) : shifts.length ≤ moves.length := by
  induction moves generalizing span shifts with
  | nil =>
    cases h
    exact Nat.le_refl _
  | cons m moves ih =>
    obtain ⟨p, dest⟩ := m
    rw [placeUnique] at h
    split at h
    · cases h
      exact Nat.zero_le _
    · split at h
      · exact Nat.le_succ_of_le (ih h)
      · split at h
        · exact Nat.le_succ_of_le (ih h)
        · split at h
          · split at h
            · rename_i hrest
              cases h
              exact Nat.succ_le_succ (ih hrest)
            · cases h
          · cases h

/-- Each place is settled by one move at most. -/
theorem settle_length {shifts : List Shift} (h : settle span target = .ok shifts) :
    shifts.length ≤ target.length := by
  induction target generalizing span shifts with
  | nil =>
    rw [settle] at h
    cases h
    exact Nat.le_refl _
  | cons wanted target ih =>
    obtain _ | ⟨p, span⟩ := span
    · cases h
    rw [settle] at h
    split at h
    · exact Nat.le_succ_of_le (ih h)
    · split at h
      · cases h
      · split at h
        · rename_i hrest
          cases h
          exact Nat.succ_le_succ (ih hrest)
        · cases h

theorem uniqueMoves_length (reference target : List Placed) :
    (uniqueMoves reference target).length ≤ reference.length := by
  rw [uniqueMoves, List.length_mergeSort]
  exact Nat.le_trans (List.length_filterMap_le ..) (List.length_filter_le ..)

end Rearrangement

/-- Of two rounds of moves, the first is charged to the reference and the second to the target. -/
theorem rearrangement_length {r : Rearrangement} (h : rearrangement reference target = .ok r) :
    r.shifts.length ≤ reference.length + target.length := by
  unfold rearrangement at h
  split at h
  · cases h
  · rename_i shifts span hplace
    have hunique := Nat.le_trans (Rearrangement.placeUnique_length hplace)
      (Rearrangement.uniqueMoves_length reference target)
    split at h
    · cases h
      exact Nat.le_add_right_of_le hunique
    · split at h
      · rename_i more hsettle
        cases h
        rw [List.length_append]
        exact Nat.add_le_add hunique (Rearrangement.settle_length hsettle)
      · cases h

namespace SinglePass

theorem Findings.toScript_length (f : Findings) : f.toScript.length =
    f.insertions.length + f.replacements.length + f.swaps.length + f.removals.length := by
  simp [toScript, Nat.add_assoc]

/-- A pass finds no more than it takes off the two lists. -/
theorem walk_length (whole : List Mark) (index cursor : Nat) (olds news : List Mark) :
    (walk whole index cursor olds news).toScript.length ≤
      (walk whole index cursor olds news).consumed + news.length := by
  simp only [Findings.toScript_length]
  fun_induction walk whole index cursor olds news with
  | case1 => exact Nat.le_refl _
  | case2 => simp [numbered_length]
  | case3 index cursor old olds new news hv ih =>
    simp only [Findings.consume, List.length_cons]
    omega
  | case4 index cursor old olds new news hv rest ih =>
    simp only [rest, Findings.consume, List.length_cons, List.length_drop] at ih ⊢
    omega
  | case5 index cursor old olds new news further hv rest ih =>
    have hlt := verdict_insert hv
    simp only [rest, List.length_append, numbered_length, List.length_cons, List.length_take,
      List.length_drop] at ih ⊢
    omega
  | case6 index cursor old olds new news hv rest ih =>
    simp only [rest, Findings.consume, List.length_cons] at ih ⊢
    omega
  | case7 index cursor old olds new news hv rest ih =>
    simp only [rest, Findings.consume, List.length_cons]
    omega

theorem compare_length {f : Findings} (h : compare reference target = .ok f) :
    f.toScript.length ≤ f.consumed + target.length ∧ f.consumed ≤ reference.length := by
  simp only [compare, compareMarks] at h
  split at h
  · cases h
    have hlength := walk_length (reference.map fun p => ⟨p.type, p.synthetic⟩) 0 0
      (reference.map fun p => ⟨p.type, p.synthetic⟩) (target.map fun p => ⟨p.type, p.synthetic⟩)
    rw [List.length_map] at hlength
    refine ⟨hlength, Nat.le_trans walk_consumed_le ?_⟩
    rw [List.length_map]
  · cases h

end SinglePass

namespace Draft

/-- A step of the comparison that succeeds adds no more than a number of edits. -/
def Adds (n : Nat) (d : Draft) (r : Except DiffError Draft) : Prop :=
  ∀ d', r = .ok d' → d'.script.length ≤ d.script.length + n

theorem emit_adds : Adds 1 d (d.emit e) := by
  intro d' h
  unfold emit at h
  split at h
  · cases h
    rw [List.length_append, List.length_singleton]
  · cases h

theorem Adds.bind {β : Type} {n : Nat} {x : Except DiffError β} {f : β → Except DiffError Draft}
    (h : ∀ y, Adds n d (f y)) : Adds n d (x >>= f) := by
  intro d' hd
  obtain ⟨y, -, hy⟩ := exists_of_bind hd
  exact h y d' hy

theorem Adds.foldlM {f : Draft → α → Except DiffError Draft} {cost : α → Nat}
    (h : ∀ d x, Adds (cost x) d (f d x)) (xs : List α) (d : Draft) :
    Adds (xs.map cost).sum d (xs.foldlM f d) := by
  induction xs generalizing d with
  | nil =>
    intro d' hd
    cases hd
    exact Nat.le_refl _
  | cons x xs ih =>
    intro d' hd
    rw [List.foldlM_cons] at hd
    obtain ⟨mid, hmid, hd⟩ := exists_of_bind hd
    have hfirst := h d x mid hmid
    have hrest := ih mid d' hd
    rw [List.map_cons, List.sum_cons]
    omega

/-- One edit for each element at most. -/
theorem Adds.foldlM_length {f : Draft → α → Except DiffError Draft}
    (h : ∀ d x, Adds 1 d (f d x)) (xs : List α) (d : Draft) :
    Adds xs.length d (xs.foldlM f d) := by
  have hsum := Adds.foldlM h xs d
  rwa [List.map_const', List.sum_replicate, Nat.nsmul_eq_mul, Nat.mul_one] at hsum

theorem remove_adds {ordinal : Nat} : Adds 1 d (d.remove ordinal) :=
  Adds.bind fun _ => emit_adds

theorem reorder_adds {source dest : Nat} : Adds 1 d (d.reorder source dest) := by
  simp only [reorder]
  split
  · intro d' h
    cases h
    exact Nat.le_succ _
  · split <;> exact emit_adds

theorem shift_adds {s : Shift} : Adds 1 d (d.shift s) :=
  Adds.bind fun _ => Adds.bind fun _ => reorder_adds

theorem rearrange_adds :
    Adds (reference.length + target.length) d (d.rearrange reference target) := by
  intro d' h
  obtain ⟨r, hr, h⟩ := exists_of_bind h
  have hshifts := Adds.foldlM_length (fun _ _ => shift_adds) r.shifts d d' h
  have hlength := rearrangement_length hr
  omega

/-- The edits that the pass found are charged to what it took off both lists, and the removals of
the parameters that it did not come to are charged to those. -/
theorem compareWindow_adds :
    Adds (reference.length + target.length) d (d.compareWindow reference target) := by
  intro d' h
  unfold compareWindow at h
  split at h
  · cases h
    exact Nat.le_add_right ..
  · rename_i first more
    obtain ⟨start, -, h⟩ := exists_of_bind h
    obtain ⟨f, hf, h⟩ := exists_of_bind h
    obtain ⟨mid, hmid, h⟩ := exists_of_bind h
    obtain ⟨hfound, hconsumed⟩ := SinglePass.compare_length hf
    have hemitted := Adds.foldlM_length (fun _ _ => emit_adds) _ d mid hmid
    have hremoved := Adds.foldlM_length (fun _ _ => remove_adds) _ mid d' h
    rw [List.length_map] at hemitted
    rw [List.length_map, List.length_reverse, List.length_drop] at hremoved
    omega

theorem perform_adds {stage : Stage} : Adds stage.charge d (d.perform stage) := by
  cases stage with
  | remove ordinal => exact remove_adds
  | insertBehind ordinal t => exact Adds.bind fun _ => emit_adds
  | insertAt index t => exact emit_adds
  | moveTo ordinal dest => exact Adds.bind fun _ => reorder_adds
  | replace ordinal t => exact Adds.bind fun _ => emit_adds
  | swap a b => exact Adds.bind fun _ => Adds.bind fun _ => emit_adds
  | rearrange reference target => exact rearrange_adds
  | window reference target => exact compareWindow_adds
  | stuck ordinal t remaining =>
    intro d' h
    cases h

end Draft

namespace Round

theorem charges_peeled (reference target : List Placed) :
    charges (peelBoth reference target).stages ≤ reference.length + target.length := by
  obtain ⟨f, g, hpeel⟩ := peelBoth_eq reference target
  have hreference := List.length_eq_length_filter_add (l := reference) f
  have htarget := List.length_eq_length_filter_add (l := target) g
  have hordering : charges (ordering (reference.filter fun p => !f p)
      (target.filter fun q => !g q)) ≤
        (reference.filter fun p => !f p).length + (target.filter fun q => !g q).length := by
    obtain ⟨hkept, hwanted⟩ := trim_sublist (reference.filter fun p => !f p)
      (target.filter fun q => !g q)
    have hkept := hkept.length_le
    have hwanted := hwanted.length_le
    unfold ordering
    split
    · exact Nat.zero_le _
    · simp only [charges_cons, charges_nil, Stage.charge]
      omega
  rw [hpeel, Peeled.stages_eq, charges_append, charges_append, insertions,
    charges_map fun _ => rfl, charges_map fun _ => rfl, List.length_reverse]
  dsimp only
  omega

/-- A round takes as many parameters off as it may add edits, or more. -/
theorem Shape.charges_le (h : round.Shape cfg reference target) :
    charges round.stages + (round.reference.length + round.target.length) ≤
      reference.length + target.length := by
  cases h with
  | keep | dropFirst | insertBehind | replace | replaceSecond | swap | dropSecond =>
    simp only [charges_cons, charges_nil, Stage.charge, List.length_cons, List.length_nil]
    omega
  | @move p p₁ q q₁ dest ps qs hsize hnames hdest =>
    have herase : ((q :: q₁ :: qs).eraseP (·.sameType p₁)).length ≤ (q :: q₁ :: qs).length :=
      List.length_eraseP_le
    simp only [charges_cons, charges_nil, Stage.charge, List.length_drop, List.length_cons]
      at herase ⊢
    omega
  | rearrange => exact charges_peeled reference target
  | window p ps target m k =>
    simp only [cut, charges_cons, charges_nil, Stage.charge, List.length_take, List.length_drop,
      List.length_cons]
    omega

end Round

/-- All rounds together are charged to the parameters of the two lists. -/
theorem charges_plan (cfg : Setting) (reference target : List Placed) :
    charges (plan cfg reference target) ≤ reference.length + target.length := by
  fun_induction plan cfg reference target with
  | case1 target => rw [charges_map fun _ => rfl, List.length_nil, Nat.zero_add]
  | case2 target p ps round ih =>
    have hround : charges round.stages + (round.reference.length + round.target.length) ≤
      (p :: ps).length + target.length := nextRound_shape.charges_le
    rw [charges_append]
    omega

/-- The script of a comparison is never longer than to remove the whole reference and to insert the
whole target, and it neither substitutes nor inlines. -/
theorem diff_length_le {reference target : List Parameter}
    (h : diff names reference target = .ok script) :
    script.length ≤ reference.length + target.length ∧
      ∀ e ∈ script, e.kind ≠ .substitute ∧ e.kind ≠ .inline := by
  refine ⟨?_, fun e he => ⟨((diff_eq_ok h).1 e he).kind_ne, ((diff_eq_ok h).1 e he).kind_ne_inline⟩⟩
  obtain ⟨report, hreport, h⟩ := exists_of_bind h
  cases h
  obtain ⟨d, hd, -, rfl⟩ := diffReported_eq_ok hreport
  have hadds : d.script.length ≤ 0 + charges (stages names reference target) :=
    Draft.Adds.foldlM (fun _ _ => Draft.perform_adds) _ _ d hd
  have hplan : charges (stages names reference target) ≤ _ := charges_plan ..
  rw [length_ofList, length_ofList] at hplan
  rw [Nat.zero_add] at hadds
  exact Nat.le_trans hadds hplan

theorem diff_length_le_on_unlike_types :
    let types : List ValueType := [.int, .int]
    let wanted : List ValueType := [.long, .boolean, .long, .long]
    let script : Script := [.remove 1, .replace 0 .long, .insert 1 .boolean, .insert 2 .long,
      .insert 3 .long]
    diff .never (types.map .unnamed) (wanted.map .unnamed) = .ok script ∧ script.length ≤ 2 + 4 ∧
      ∀ e ∈ script, e.kind ≠ .substitute ∧ e.kind ≠ .inline := by
  intro types wanted script
  have hdiff : diff .never (types.map .unnamed) (wanted.map .unnamed) = .ok script := by
    decide +kernel
  exact ⟨hdiff, diff_length_le hdiff⟩

end Reparam
