import Reparam.Diff.SinglePass
import Reparam.Proofs.Edit.Frame

/-! What a single pass found, run as a script, turns the elements that it consumed into the target.
Each kind of edit is followed on its own: up to the removals a place counts what came before it in
the list with all insertions, and a removal counts what stays of that. -/
namespace Reparam.SinglePass

variable {γ : Type} {fresh : ValueType → γ} {retype : ValueType → γ → γ} {whole : List Mark}
  {index cursor further : Nat} {old new : Mark} {olds news : List Mark} {xs ys : List γ}
  {t : ValueType} {x y : γ} {s : Script}

theorem verdict_keep (h : verdict whole cursor old new olds news = .keep) : old.type = new.type := by
  unfold verdict at h
  split at h
  · rename_i he
    rw [he]
  · split at h
    · cases h
    · split at h
      · cases h
      · split at h
        · cases h
        · split at h
          · assumption
          · cases h

theorem verdict_swap (h : verdict whole cursor old new olds news = .swap) :
    ∃ old' olds' news', olds = old' :: olds' ∧ news = old :: news' ∧ old'.type = new.type := by
  unfold verdict at h
  split at h
  · cases h
  · split at h
    · rename_i he
      unfold exchanged at he
      split at he
      · rename_i old' olds' new' news'
        obtain ⟨ht, rfl⟩ : old'.type = new.type ∧ new' = old := by simpa using he
        exact ⟨old', olds', news', rfl, rfl, ht⟩
      · cases he
    · split at h
      · cases h
      · split at h
        · cases h
        · split at h <;> cases h

theorem verdict_insert (h : verdict whole cursor old new olds news = .insert further) :
    further < news.length := by
  unfold verdict at h
  split at h
  · cases h
  · split at h
    · cases h
    · split at h
      · rename_i he
        cases h
        exact (List.findIdx?_eq_some_iff_getElem.1 he).1
      · split at h
        · cases h
        · split at h <;> cases h

/-- Behind any list of a given length the script turns one list into another. -/
def Runs (fresh : ValueType → γ) (retype : ValueType → γ → γ) (s : Script) (index : Nat)
    (xs ys : List γ) : Prop :=
  ∀ pre : List γ, pre.length = index → s.run fresh retype (pre ++ xs) = .ok (pre ++ ys)

theorem Runs.nil : Runs fresh retype [] index xs xs := by
  intro pre hpre
  rfl

theorem Runs.behind (as : List γ) (h : Runs fresh retype s (index + as.length) xs ys) :
    Runs fresh retype s index (as ++ xs) (as ++ ys) := by
  intro pre hpre
  have hrun := h (pre ++ as) (by simp [hpre])
  simpa using hrun

theorem Runs.replace (h : Runs fresh retype s (index + 1) xs ys) :
    Runs fresh retype (.replace index t :: s) index (x :: xs) (retype t x :: ys) := by
  intro pre hpre
  have hstep : (Edit.replace 0 t).Step fresh retype [x] [retype t x] := .replace t (by simp)
  have hframe := hstep.frame pre xs
  have hrest := h (pre ++ [retype t x]) (by simp [hpre])
  simp only [Edit.offset, Edit.mapIndices, Nat.zero_add, List.append_assoc,
    List.singleton_append, hpre] at hframe hrest
  rw [Script.run_cons hframe, hrest]

theorem Runs.swap (h : Runs fresh retype s (index + 2) xs ys) :
    Runs fresh retype (.swap index (index + 1) :: s) index (x :: y :: xs) (y :: x :: ys) := by
  intro pre hpre
  have hstep : (Edit.swap 0 1).Step fresh retype [x, y] [y, x] := .swap (by simp) (by simp)
  have hframe := hstep.frame pre xs
  have hrest := h (pre ++ [y, x]) (by simp [hpre])
  simp only [Edit.offset, Edit.mapIndices, Nat.zero_add, List.append_assoc, List.cons_append,
    List.nil_append, Nat.add_comm 1, hpre] at hframe hrest
  rw [Script.run_cons hframe, hrest]

theorem Runs.remove (h : Runs fresh retype s index xs ys) :
    Runs fresh retype (.remove index :: s) index (x :: xs) ys := by
  intro pre hpre
  have hstep : (Edit.remove 0).Step fresh retype [x] [] := .remove (by simp)
  have hframe := hstep.frame pre xs
  simp only [Edit.offset, Edit.mapIndices, Nat.zero_add, List.append_assoc, List.cons_append,
    List.nil_append, hpre] at hframe
  rw [Script.run_cons hframe, h pre hpre]

theorem Runs.insert (h : Runs fresh retype s (index + 1) xs ys) :
    Runs fresh retype (.insert index t :: s) index xs (fresh t :: ys) := by
  intro pre hpre
  have hstep : (Edit.insert 0 t).Step fresh retype [] [fresh t] := .insert t (Nat.zero_le _)
  have hframe := hstep.frame pre xs
  have hrest := h (pre ++ [fresh t]) (by simp [hpre])
  simp only [Edit.offset, Edit.mapIndices, Nat.zero_add, List.append_nil, List.append_assoc,
    List.singleton_append, hpre] at hframe hrest
  rw [Script.run_cons hframe, hrest]

theorem Runs.numbered {marks : List Mark} (h : Runs fresh retype s (index + marks.length) xs ys) :
    Runs fresh retype ((numbered index marks).map (fun (i, t) => .insert i t) ++ s) index xs
      (marks.map (fun m => fresh m.type) ++ ys) := by
  induction marks generalizing index with
  | nil => simpa [SinglePass.numbered] using h
  | cons m marks ih =>
    have hrest : Runs fresh retype s (index + 1 + marks.length) xs ys := by
      rwa [Nat.add_assoc, Nat.add_comm 1]
    have hnumbered : SinglePass.numbered index (m :: marks) =
        (index, m.type) :: SinglePass.numbered (index + 1) marks := by
      simp [SinglePass.numbered]
    rw [hnumbered]
    exact (ih hrest).insert

/-- The four phases of a script made of findings. -/
structure Phases (fresh : ValueType → γ) (retype : ValueType → γ → γ) (f : Findings)
    (index cursor : Nat) (xs inserted replaced swapped ys : List γ) : Prop where
  insertions : Runs fresh retype (f.insertions.map fun (i, t) => .insert i t) index xs inserted
  replacements :
    Runs fresh retype (f.replacements.map fun (i, t) => .replace i t) index inserted replaced
  swaps : Runs fresh retype (f.swaps.map fun (a, b) => .swap a b) index replaced swapped
  removals : Runs fresh retype (f.removals.map .remove) cursor swapped ys

theorem numbered_length (index : Nat) (marks : List Mark) :
    (numbered index marks).length = marks.length := by
  simp [numbered]

theorem walk_consumed_le : (walk whole index cursor olds news).consumed ≤ olds.length := by
  fun_induction walk whole index cursor olds news with
  | case1 => exact Nat.zero_le _
  | case2 => exact Nat.zero_le _
  | case3 index cursor old olds new news hv ih => exact Nat.succ_le_succ ih
  | case4 index cursor old olds new news hv rest ih =>
    obtain ⟨old', olds', news', rfl, rfl, -⟩ := verdict_swap hv
    exact Nat.succ_le_succ (Nat.succ_le_succ ih)
  | case5 index cursor old olds new news further hv rest ih => exact ih
  | case6 index cursor old olds new news hv rest ih => exact Nat.succ_le_succ ih
  | case7 index cursor old olds new news hv rest ih => exact Nat.succ_le_succ ih

/-- A pass comes to the end of the target. -/
theorem walk_balance : news.length + (walk whole index cursor olds news).removals.length =
    (walk whole index cursor olds news).consumed +
      (walk whole index cursor olds news).insertions.length := by
  fun_induction walk whole index cursor olds news with
  | case1 => rfl
  | case2 => simp [numbered_length]
  | case3 index cursor old olds new news hv ih =>
    simp only [Findings.consume, List.length_cons]
    omega
  | case4 index cursor old olds new news hv rest ih =>
    obtain ⟨old', olds', news', rfl, rfl, -⟩ := verdict_swap hv
    simp only [rest, Findings.consume, List.length_cons, List.drop_succ_cons, List.drop_zero] at ih ⊢
    omega
  | case5 index cursor old olds new news further hv rest ih =>
    have hlt := verdict_insert hv
    simp only [rest, List.length_append, numbered_length, List.length_cons, List.length_take,
      List.length_drop] at ih ⊢
    omega
  | case6 index cursor old olds new news hv rest ih =>
    simp only [rest, Findings.consume, List.length_cons] at ih ⊢
    omega
  | case7 index cursor old olds new news hv rest ih =>
    simp only [rest, Findings.consume, List.length_cons]
    omega

/-- The elements that a pass consumes become as many as the target has. If they came with the types
that the pass compared, they end up with the target's. -/
theorem walk_phases (ty : γ → ValueType) (hf : ∀ t, ty (fresh t) = t)
    (hr : ∀ t x, ty (retype t x) = t)
    (hx : xs.length = (walk whole index cursor olds news).consumed) :
    ∃ inserted replaced swapped ys,
      Phases fresh retype (walk whole index cursor olds news) index cursor xs inserted replaced
        swapped ys ∧ ys.length = news.length ∧
      (xs.map ty <+: olds.map (·.type) → ys.map ty = news.map (·.type)) := by
  fun_induction walk whole index cursor olds news generalizing xs with
  | case1 =>
    obtain rfl : xs = [] := List.length_eq_zero_iff.1 hx
    exact ⟨[], [], [], [], ⟨.nil, .nil, .nil, .nil⟩, rfl, fun _ => rfl⟩
  | case2 index cursor news =>
    obtain rfl : xs = [] := List.length_eq_zero_iff.1 hx
    have hall := (@Runs.nil _ fresh retype (index + news.length) []).numbered
    rw [List.append_nil, List.append_nil] at hall
    refine ⟨_, _, _, _, ⟨hall, .nil, .nil, .nil⟩, by simp, fun _ => ?_⟩
    simp [hf]
  | case3 index cursor old olds new news hv ih =>
    obtain ⟨x, xs, rfl⟩ := List.exists_cons_of_length_eq_add_one hx
    obtain ⟨inserted, replaced, swapped, ys, hp, hlen, hty⟩ := ih (Nat.succ.inj hx)
    refine ⟨x :: inserted, x :: replaced, x :: swapped, x :: ys, ⟨hp.insertions.behind [x],
      hp.replacements.behind [x], hp.swaps.behind [x], hp.removals.behind [x]⟩, by simp [hlen], ?_⟩
    intro hprefix
    obtain ⟨hx, hprefix⟩ := List.cons_prefix_cons.1 hprefix
    simp [hx, hty hprefix, verdict_keep hv]
  | case4 index cursor old olds new news hv rest =>
    rename_i ih
    obtain ⟨old', olds', news', rfl, rfl, hold⟩ := verdict_swap hv
    obtain ⟨x, xs, rfl⟩ := List.exists_cons_of_length_eq_add_one hx
    obtain ⟨y, xs, rfl⟩ := List.exists_cons_of_length_eq_add_one (Nat.succ.inj hx)
    obtain ⟨inserted, replaced, swapped, ys, hp, hlen, hty⟩ := ih (Nat.succ.inj (Nat.succ.inj hx))
    refine ⟨x :: y :: inserted, x :: y :: replaced, y :: x :: swapped, y :: x :: ys,
      ⟨hp.insertions.behind [x, y], hp.replacements.behind [x, y], hp.swaps.swap,
        hp.removals.behind [y, x]⟩, by simpa using hlen, ?_⟩
    intro hprefix
    obtain ⟨hx, hprefix⟩ := List.cons_prefix_cons.1 hprefix
    obtain ⟨hy, hprefix⟩ := List.cons_prefix_cons.1 hprefix
    simpa [hx, hy, hold] using hty hprefix
  | case5 index cursor old olds new news further hv rest =>
    rename_i ih
    have hlt := verdict_insert hv
    have htake : (new :: news.take further).length = further + 1 := by
      rw [List.length_cons, List.length_take, Nat.min_eq_left (Nat.le_of_lt hlt)]
    obtain ⟨inserted, replaced, swapped, ys, hp, hlen, hty⟩ := ih hx
    have hnew : ((new :: news.take further).map fun m => fresh m.type).length = further + 1 := by
      rw [List.length_map, htake]
    refine ⟨_, _, _, _, ⟨?_, .behind _ (by rw [hnew]; exact hp.replacements),
      .behind _ (by rw [hnew]; exact hp.swaps), .behind _ (by rw [hnew]; exact hp.removals)⟩, ?_, ?_⟩
    · rw [List.map_append]
      refine Runs.numbered ?_
      rw [htake, ← Nat.add_assoc]
      exact hp.insertions
    · rw [List.length_append, hnew, hlen, List.length_drop, List.length_cons]
      omega
    · intro hprefix
      rw [List.map_append, hty hprefix, List.map_map]
      simp [Function.comp_def, hf]
  | case6 index cursor old olds new news hv rest =>
    rename_i ih
    obtain ⟨x, xs, rfl⟩ := List.exists_cons_of_length_eq_add_one hx
    obtain ⟨inserted, replaced, swapped, ys, hp, hlen, hty⟩ := ih (Nat.succ.inj hx)
    refine ⟨x :: inserted, x :: replaced, x :: swapped, ys, ⟨hp.insertions.behind [x],
      hp.replacements.behind [x], hp.swaps.behind [x], hp.removals.remove⟩, hlen, ?_⟩
    intro hprefix
    exact hty (List.cons_prefix_cons.1 hprefix).2
  | case7 index cursor old olds new news hv rest =>
    rename_i ih
    obtain ⟨x, xs, rfl⟩ := List.exists_cons_of_length_eq_add_one hx
    obtain ⟨inserted, replaced, swapped, ys, hp, hlen, hty⟩ := ih (Nat.succ.inj hx)
    refine ⟨x :: inserted, retype new.type x :: replaced, retype new.type x :: swapped,
      retype new.type x :: ys, ⟨hp.insertions.behind [x], hp.replacements.replace,
        hp.swaps.behind [_], hp.removals.behind [_]⟩, by simp [hlen], ?_⟩
    intro hprefix
    simp [hr, hty (List.cons_prefix_cons.1 hprefix).2]

theorem Phases.run {f : Findings} {inserted replaced swapped : List γ}
    (h : Phases fresh retype f 0 0 xs inserted replaced swapped ys) :
    f.toScript.run fresh retype xs = .ok ys := by
  have hins := h.insertions [] rfl
  have hrep := h.replacements [] rfl
  have hswap := h.swaps [] rfl
  have hrem := h.removals [] rfl
  rw [List.nil_append, List.nil_append] at hins hrep hswap hrem
  rw [Findings.toScript, List.append_assoc, List.append_assoc, Script.run_append hins,
    Script.run_append hrep, Script.run_append hswap, hrem]

/-- A comparison in a single pass always succeeds. Its script settles the elements that were
consumed. -/
theorem compareMarks_run (reference target : List Mark) :
    ∃ f, compareMarks reference target = .ok f ∧ f.consumed ≤ reference.length ∧
      ∀ (γ : Type) (fresh : ValueType → γ) (retype : ValueType → γ → γ) (ty : γ → ValueType)
        (xs : List γ), (∀ t, ty (fresh t) = t) → (∀ t x, ty (retype t x) = t) →
        xs.length = f.consumed → ∃ ys, f.toScript.run fresh retype xs = .ok ys ∧
          ys.length = target.length ∧
          (xs.map ty <+: reference.map (·.type) → ys.map ty = target.map (·.type)) := by
  refine ⟨walk reference 0 0 reference target, ?_, walk_consumed_le, ?_⟩
  · rw [compareMarks, if_pos walk_balance]
  · intro γ fresh retype ty xs hf hr hx
    obtain ⟨inserted, replaced, swapped, ys, hp, hlen, hty⟩ := walk_phases ty hf hr hx
    exact ⟨ys, hp.run, hlen, hty⟩

/-- The script of a comparison turns the types that it consumed into the target's and leaves those
behind them alone. -/
theorem compareMarks_replay (reference target : List Mark) :
    ∃ f, compareMarks reference target = .ok f ∧ f.consumed ≤ reference.length ∧
      f.toScript.replay (reference.map (·.type)) =
        .ok (target.map (·.type) ++ (reference.map (·.type)).drop f.consumed) := by
  obtain ⟨f, hcompare, hle, hrun⟩ := compareMarks_run reference target
  have hconsumed : ((reference.map (·.type)).take f.consumed).length = f.consumed := by
    rw [List.length_take, List.length_map, Nat.min_eq_left hle]
  obtain ⟨ys, hys, -, htypes⟩ := hrun ValueType (fun t => t) (fun t _ => t) (fun t => t)
    ((reference.map (·.type)).take f.consumed) (fun _ => rfl) (fun _ _ => rfl) hconsumed
  rw [List.map_id', List.map_id'] at htypes
  have hall := Script.run_behind hys ((reference.map (·.type)).drop f.consumed)
  rw [List.take_append_drop, htypes (List.take_prefix ..)] at hall
  exact ⟨f, hcompare, hle, hall⟩

/-- A single pass over any two lists comes to a result, of parameters with names and of types
alike. Its script turns the reference types that it consumed into the target's types and leaves the
others where they are. -/
theorem compare_settles (reference target : List Placed) (types types' : List ValueType) :
    (∃ f, compare reference target = .ok f ∧ f.consumed ≤ reference.length ∧
      f.toScript.replay (reference.map (·.type)) =
        .ok (target.map (·.type) ++ (reference.map (·.type)).drop f.consumed)) ∧
    ∃ f, compareTypes types types' = .ok f ∧ f.consumed ≤ types.length ∧
      f.toScript.replay types = .ok (types' ++ types.drop f.consumed) := by
  constructor
  · simpa [compare, Function.comp_def] using compareMarks_replay
      (reference.map fun p => ⟨p.type, p.synthetic⟩) (target.map fun p => ⟨p.type, p.synthetic⟩)
  · simpa [compareTypes, Function.comp_def] using compareMarks_replay
      (types.map (⟨·, false⟩)) (types'.map (⟨·, false⟩))

end Reparam.SinglePass
