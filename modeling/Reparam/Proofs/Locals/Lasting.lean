import Reparam.Proofs.Locals.WellFormed
import Reparam.Proofs.Apply.Rewriting

/-! Scripts that are applied one after the other leave a body well-formed, and so none of them
misses a local. The parameters that are left keep the names of their locals. -/
namespace Reparam

open Tracking

variable {α : Type} {fresh : ValueType → α} {retype : ValueType → α → α} {xs : List α}
  {a : Applier} {I : List α → Progress → Prop} {s : Script} {scripts : List Script} {m m' : Method}
  {changed : Changed} {w : Widths} {table : SlotTable} {receiver : Nat}
  {params : List (ValueType × String)} {labels : List (Option String)}

/-- An application that goes well follows the script. -/
theorem Carries.apply (hc : Carries a fresh retype I) (hforgetful : Forgetful fresh retype)
    (h : ∀ before, SlotTable.ofSignature a.widths m.body.signature = .ok before →
      I xs { body := m.body, table := before }) (hp : a.apply s m = (.ok changed, m')) :
    ∃ ys p, s.run fresh retype xs = .ok ys ∧ I ys p ∧ m' = ⟨p.body, p.table⟩ := by
  obtain ⟨f, p, hflat, hrun, rfl⟩ := Applier.apply_eq_ok hp
  obtain ⟨before, -, -, -, -, -, -, hbefore, -⟩ := Applier.run_eq_ok hrun
  have hlength : m.body.signature.params.length = xs.length := hc.length_params (h before hbefore)
  rw [hlength] at hflat
  obtain ⟨tr, hfollow, hf⟩ := flatten_eq_ok hflat
  obtain ⟨ys, hys, hI⟩ := hc.run h hrun
  have hsame := (reached_of_follow hfollow).run_toFlat hforgetful hf
  rw [hys, Except.ok.injEq] at hsame
  have hfollowed := @follow_run 0 _ _ _ hforgetful xs s (.initial xs.length)
  rw [hfollow, initial_labels, Except.map, ← hsame] at hfollowed
  exact ⟨ys, p, hfollowed.symm, hI, rfl⟩

/-- Origins take the course that the elements of any list do which keep what they are. -/
theorem Script.originsFrom_map {serial : Nat} {f : Origin → α}
    (hf : ∀ serial t, f (.inserted serial) = fresh t) (s : Script) (os : List Origin) :
    (s.originsFrom serial os).map (List.map f) = s.run fresh (fun _ x => x) (os.map f) := by
  induction s generalizing serial os with
  | nil => rfl
  | cons e s ih =>
    have natural := @Edit.apply_map _ _ f (fun _ => .inserted serial) (fun _ o => o) fresh
      (fun _ x => x) (hf serial) (fun _ _ => rfl) e os
    simp only [originsFrom, Script.run, natural]
    cases e.apply (fun _ => Origin.inserted serial) (fun _ o => o) os with
    | error err => rfl
    | ok os => exact ih os

/-- Scripts that go through one after the other, each with an applier of its own. -/
inductive Applied (w : Widths) : List Script → Method → Method → Prop where
  | nil (m : Method) : Applied w [] m m
  | cons {a : Applier} {s : Script} {scripts : List Script} {m mid m' : Method} {changed : Changed}
    (ha : a.widths = w) (h : a.apply s m = (.ok changed, mid)) (rest : Applied w scripts mid m') :
    Applied w (s :: scripts) m m'

/-- Every parameter has its local, and the parameters with a label have it as the name. -/
def Named (w : Widths) (receiver : Nat) : List (Option String) → Progress → Prop :=
  Labelled w receiver fun label q => ∀ name, label = some name → q.2 = name

theorem Named.carries (hw : ∀ t, 0 < a.widths t) :
    Carries a (fun _ => none) (fun _ x => x) (Named a.widths receiver) :=
  Labelled.carries hw (fun _ _ _ h => nomatch h) fun _ _ _ h => h

theorem Named.apply (hw : ∀ t, 0 < a.widths t)
    (hm : Named a.widths receiver labels { body := m.body, table })
    (h : a.apply s m = (.ok changed, m')) :
    ∃ labels', s.run (fun _ => none) (fun _ x => x) labels = .ok labels' ∧
      Named a.widths receiver labels' { body := m'.body, table := m'.slots } := by
  have hinitial : ∀ before, SlotTable.ofSignature a.widths m.body.signature = .ok before →
      Named a.widths receiver labels { body := m.body, table := before } := by
    intro before hbefore
    obtain ⟨params, hlabels, hhoused⟩ := hm
    have hsame := hhoused.table.symm.trans hbefore
    rw [Except.ok.injEq] at hsame
    exact ⟨params, hlabels, hsame ▸ hhoused⟩
  obtain ⟨labels', p, hrun, ⟨params, hlabels, hhoused⟩, rfl⟩ :=
    (Named.carries hw).apply ⟨fun _ _ _ => rfl, fun _ _ => rfl⟩ hinitial h
  exact ⟨labels', hrun, params, hlabels, hhoused.of_code rfl rfl⟩

/-- The labels go through the scripts as the parameters do. -/
theorem Applied.named (hw : ∀ t, 0 < w t) (h : Applied w scripts m m')
    (hm : Named w receiver labels { body := m.body, table }) :
    ∃ labels' table', Script.run (fun _ => none) (fun _ x => x) scripts.flatten labels =
      .ok labels' ∧ Named w receiver labels' { body := m'.body, table := table' } := by
  induction h generalizing labels table with
  | nil => exact ⟨labels, table, rfl, hm⟩
  | cons ha h rest ih =>
    subst ha
    obtain ⟨mid, hfirst, hmid⟩ := hm.apply hw h
    obtain ⟨labels', table', hrest, hnamed⟩ := ih hmid
    exact ⟨labels', table', by rw [List.flatten_cons, Script.run_append hfirst, hrest], hnamed⟩

/-- The local of a parameter is found under its name at its slot. -/
theorem Housed.namesAt (hw : ∀ t, 0 < w t) {p : Progress} (h : Housed w receiver params p)
    {k x : Nat} {q : ValueType × String} (hq : params[k]? = some q)
    (hx : p.table.slotOf? k = some x) : p.body.namesAt x = [q.2] := by
  obtain ⟨-, rfl⟩ := (SlotTable.slotOf_eq_some h.table h.types).1 hx
  rw [h.receiver]
  have hlaid : (laid w receiver params)[k]? =
      some ⟨q.2, q.1, receiver + span w (params.take k), w q.1⟩ := by
    rw [laid_getElem, hq, Option.map_some]
  have hone := congrArg (List.map Declaration.name) (h.filter_at hw (List.mem_of_getElem? hlaid))
  rwa [List.map_map] at hone

/-- An application to a well-formed body never misses a local. -/
theorem Body.WellFormed.apply_error (hw : ∀ t, 0 < a.widths t) {err : ApplyError}
    (h : m.body.WellFormed a.widths table) (hp : a.apply s m = (.error err, m'))
    (ordinal slot : Nat) : err ≠ .missingLocal ordinal slot := by
  obtain ⟨params, hhoused⟩ := h.housed hw
  unfold Applier.apply at hp
  split at hp
  · unfold Applier.applyFlat at hp
    split at hp
    · cases hp
    · rename_i stopped hrun
      cases hp
      exact (hhoused.run_error hw hrun).not_missingLocal ordinal slot
  · cases hp
    exact ApplyError.noConfusion

/-- The name of a parameter by its origin, if it was there from the start. -/
def nameOf (params : List (ValueType × String)) : Origin → Option String
  | .reference k => (params[k]?).map (·.2)
  | .inserted _ => none

/-- Scripts leave every parameter with its local, and those that were there before with its name. -/
theorem Applied.housed (hw : ∀ t, 0 < w t) (h : Applied w scripts m m')
    (hm : Housed w receiver params { body := m.body, table }) :
    ∃ params' table' left, Housed w receiver params' { body := m'.body, table := table' } ∧
      Script.origins scripts.flatten params.length = .ok left ∧ left.length = params'.length ∧
      ∀ (j k : Nat) q, left[j]? = some (.reference k) → params[k]? = some q →
        ∃ q', params'[j]? = some q' ∧ q'.2 = q.2 := by
  have hlabels : ((List.range params.length).map Origin.reference).map (nameOf params) =
      params.map fun q => some q.2 := by
    have hrange := congrArg (List.map (Option.map Prod.snd)) (map_range_getElem params)
    simpa [nameOf, Function.comp_def] using hrange
  have hnamed : Named w receiver (params.map fun q => some q.2) { body := m.body, table } :=
    ⟨params, List.forall₂_map_left_iff.2 (List.forall₂_same.2 fun _ _ _ h => by simpa using h), hm⟩
  obtain ⟨labels', table', hrun, params', hagree, hhoused⟩ := h.named hw hnamed
  have horigins := @Script.originsFrom_map _ (fun _ => none) 0 (nameOf params) (fun _ _ => rfl)
    scripts.flatten ((List.range params.length).map Origin.reference)
  rw [hlabels, hrun, ← Script.origins] at horigins
  cases hleft : Script.origins scripts.flatten params.length with
  | error err =>
    rw [hleft] at horigins
    cases horigins
  | ok left =>
    rw [hleft, Except.map, Except.ok.injEq] at horigins
    refine ⟨params', table', left, hhoused, rfl, ?_, fun j k q hj hq => ?_⟩
    · rw [← hagree.length_eq, ← horigins, List.length_map]
    · have hlabel : labels'[j]? = some (some q.2) := by simp [← horigins, hj, nameOf, hq]
      obtain ⟨q', hq', hname⟩ := forall₂_getElem hagree hlabel
      exact ⟨q', hq', hname _ rfl⟩

/-- A declared body is well-formed, and a well-formed body stays so over any run of scripts. Each
parameter that is left has its local, with the name that it had, at its new slot, and no script that
is applied next misses a local. -/
theorem applied_stays_wellFormed (hw : ∀ t, 0 < w t) :
    (∀ (signature : Signature) (code : Code) (table : SlotTable),
      SlotTable.ofSignature w signature = .ok table →
        (Body.declaring w signature code).WellFormed w table) ∧
    ∀ (scripts : List Script) (m m' : Method) (table : SlotTable),
      m.body.WellFormed w table → Applied w scripts m m' →
      ∃ table' left, m'.body.WellFormed w table' ∧
        Script.origins scripts.flatten m.body.signature.params.length = .ok left ∧
        left.length = m'.body.signature.params.length ∧
        (∀ (j k x : Nat), left[j]? = some (.reference k) → table.slotOf? k = some x →
          ∃ x', table'.slotOf? j = some x' ∧ m'.body.namesAt x' = m.body.namesAt x) ∧
        ∀ (a : Applier) (s : Script) (err : ApplyError) (m'' : Method), a.widths = w →
          a.apply s m' = (.error err, m'') → ∀ ordinal slot, err ≠ .missingLocal ordinal slot := by
  refine ⟨fun signature code table h => ?_, fun scripts m m' table h happlied => ?_⟩
  · obtain ⟨params, hhoused⟩ := Housed.declaring h
    exact hhoused.wellFormed hw
  · obtain ⟨params, hhoused⟩ := h.housed hw
    obtain ⟨params', table', left, hhoused', hleft, hlength, hnames⟩ := happlied.housed hw hhoused
    have hwellFormed := hhoused'.wellFormed hw
    rw [hhoused.length_params, hhoused'.length_params]
    refine ⟨table', left, hwellFormed, hleft, hlength, fun j k x hj hx => ?_, ?_⟩
    · have hk := ((SlotTable.slotOf_eq_some hhoused.table hhoused.types).1 hx).1
      have hq := List.getElem?_eq_getElem hk
      obtain ⟨q', hq', hname⟩ := hnames j k _ hj hq
      have hx' := (SlotTable.slotOf_eq_some hhoused'.table hhoused'.types).2
        ⟨(List.getElem?_eq_some_iff.1 hq').1, rfl⟩
      refine ⟨_, hx', ?_⟩
      rw [hhoused.namesAt hw hq hx, hhoused'.namesAt hw hq' hx', hname]
    · rintro a s err m'' rfl hp
      exact hwellFormed.apply_error hw hp

theorem applied_stays_wellFormed_on_swap :
    Applied standardWidths [swapCaller] caller swappedCaller ∧
      ∃ table', swappedCaller.body.WellFormed standardWidths table' ∧
        ∃ x', table'.slotOf? 0 = some x' ∧
          swappedCaller.body.namesAt x' = caller.body.namesAt 2 := by
  have happlied : Applied standardWidths [swapCaller] caller swappedCaller :=
    .cons rfl apply_swapCaller (.nil _)
  obtain ⟨table', left, hwellFormed, hleft, -, hnames, -⟩ :=
    (applied_stays_wellFormed standardWidths_pos).2 [swapCaller] caller swappedCaller
      ⟨0, [⟨0, 2⟩, ⟨2, 1⟩]⟩ (by decide) happlied
  cases hleft
  exact ⟨happlied, table', hwellFormed, hnames 0 1 2 rfl rfl⟩

end Reparam
