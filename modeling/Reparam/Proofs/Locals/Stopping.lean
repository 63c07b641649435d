import Reparam.Proofs.Apply.Replaying
import Reparam.Proofs.Locals.Labelled

/-! Why an application stops on a body in which every parameter has its local. It never misses a
local, and it runs out of slots only if the parameters that come in or grow have no room. -/
namespace Reparam

/-- The causes for which an application may stop. Those that only some scripts or bodies give rise
to come with what has to hold. -/
inductive Setback (short misfit live inlining : Prop) : ApplyError → Prop where
  | shortage (required : Nat) (h : short) :
    Setback short misfit live inlining (.slotAllocation required)
  | outOfRange (ordinal length : Nat) (h : misfit) :
    Setback short misfit live inlining (.ordinalOutOfRange ordinal length)
  | script (error : ScriptError) (h : misfit) : Setback short misfit live inlining (.script error)
  | live (ordinal slot position : Nat) (h : live) :
    Setback short misfit live inlining (.unsupportedRemoval ordinal slot position)
  | missing (generator ordinal : Nat) (h : inlining) :
    Setback short misfit live inlining (.missingGenerator generator ordinal)
  | written (ordinal position : Nat) (h : inlining) :
    Setback short misfit live inlining (.inlineWrite ordinal position)

variable {a : Applier} {w : Widths} {short short' misfit misfit' live live' : Prop}
  {inlining inlining' : Prop}
  {err : ApplyError} {p p' : Progress} {stopped : Stopped} {receiver index source target d : Nat}
  {params front back : List (ValueType × String)} {q : ValueType × String} {t : ValueType}
  {types types' : List ValueType} {reorders : List Reorder} {order : List Nat}

theorem Setback.imp (h : Setback short misfit live inlining err) (hs : short → short')
    (hm : misfit → misfit') (hl : live → live') (hi : inlining → inlining') :
    Setback short' misfit' live' inlining' err := by
  cases h with
  | shortage required h => exact .shortage required (hs h)
  | outOfRange ordinal length h => exact .outOfRange ordinal length (hm h)
  | script error h => exact .script error (hm h)
  | live ordinal slot position h => exact .live ordinal slot position (hl h)
  | missing generator ordinal h => exact .missing generator ordinal (hi h)
  | written ordinal position h => exact .written ordinal position (hi h)

theorem Setback.not_missingLocal (h : Setback short misfit live inlining err) (ordinal slot : Nat) :
    err ≠ .missingLocal ordinal slot := by
  cases h <;> simp

namespace Progress

theorem rebuild_eq_error (h : p.rebuild w = .error stopped) :
    ∃ required, stopped.error = .slotAllocation required ∧
      slotLimit < p.body.signature.receiverSlots + totalWidth w p.body.signature.types := by
  unfold rebuild at h
  split at h
  · cases h
  · rename_i shortage hshort
    cases h
    exact ⟨_, rfl, SlotTable.lt_of_ofSignature_error hshort⟩

theorem entry_eq_error (h : p.entry index = .error stopped) :
    stopped.error = .ordinalOutOfRange index p.table.length ∧ p.table.entries.length ≤ index := by
  unfold entry at h
  split at h
  · cases h
  · rename_i hnone
    cases h
    exact ⟨rfl, List.getElem?_eq_none_iff.1 hnone⟩

end Progress

theorem totalWidth_insertIdx (w : Widths) (h : index ≤ types.length) :
    totalWidth w (types.insertIdx index t) = totalWidth w types + w t := by
  rw [totalWidth_perm (List.perm_insertIdx t types h), totalWidth_cons, Nat.add_comm]

theorem totalWidth_eraseIdx_le (w : Widths) (types : List ValueType) (index : Nat) :
    totalWidth w (types.eraseIdx index) ≤ totalWidth w types := by
  by_cases h : index < types.length
  · have := totalWidth_perm (w := w) (perm_cons_eraseIdx (List.getElem?_eq_getElem h))
    rw [totalWidth_cons] at this
    omega
  · rw [List.eraseIdx_of_length_le (Nat.le_of_not_lt h)]

theorem totalWidth_modify_le (w : Widths) (types : List ValueType) (index : Nat) (t : ValueType) :
    totalWidth w (types.modify index fun _ => t) ≤ totalWidth w types + w t := by
  by_cases h : index < types.length
  · have := totalWidth_perm (w := w) (perm_modify (List.getElem?_eq_getElem h) fun _ => t)
    have := totalWidth_eraseIdx_le w types index
    rw [totalWidth_cons] at *
    omega
  · rw [List.modify_eq_self (Nat.le_of_not_lt h)]
    exact Nat.le_add_right ..

namespace Tabled

variable {s : Signature}

theorem receiverSlots_eq (h : Tabled w s types p) :
    p.body.signature.receiverSlots = s.receiverSlots := by
  rw [Signature.receiverSlots, Signature.receiverSlots, h.isStatic]

theorem totalWidth_le (h : Tabled w s types p) :
    s.receiverSlots + totalWidth w types ≤ slotLimit := by
  rw [← h.receiverSlots_eq, ← h.types]
  exact (SlotTable.eq_of_ofSignature h.table).2

theorem length_params (h : Tabled w s types p) :
    p.body.signature.params.length = types.length := by
  rw [← h.types, Signature.types, Parameter.types, List.length_map]

theorem length_entries (h : Tabled w s types p) : p.table.entries.length = types.length := by
  rw [SlotTable.entries_length h.table, h.types]

theorem insert_error (h : Tabled a.widths s types p) (hp : a.insert p index t = .error stopped) :
    Setback (slotLimit < s.receiverSlots + totalWidth a.widths types + a.widths t)
      (types.length < index) live inlining stopped.error := by
  by_cases hindex : index ≤ p.body.signature.params.length
  · simp only [Applier.insert, if_pos hindex] at hp
    rcases error_of_bind hp with hp | ⟨q, hq, hp⟩
    · obtain ⟨required, he, hlimit⟩ := Progress.rebuild_eq_error hp
      rw [Progress.reconcile, Progress.tally_body] at hlimit
      have htypes := Signature.types_insertIdx p.body.signature index
        (.generated t (a.injectedStem ++ toString index))
      rw [h.length_params] at hindex
      have hwidth := totalWidth_insertIdx (t := t) a.widths hindex
      rw [h.types] at htypes
      rw [he, ← h.receiverSlots_eq, Nat.add_assoc, ← hwidth]
      exact .shortage required (htypes ▸ hlimit)
    · cases hp
  · simp only [Applier.insert, if_neg hindex] at hp
    cases hp
    refine .outOfRange _ _ ?_
    rw [← h.length_params]
    omega

theorem replace_error (h : Tabled a.widths s types p) (hp : a.replace p index t = .error stopped) :
    Setback (slotLimit < s.receiverSlots + totalWidth a.widths types + a.widths t)
      (types.length ≤ index) live inlining stopped.error := by
  unfold Applier.replace at hp
  rcases error_of_bind hp with hp | ⟨entry, hentry, hp⟩
  · obtain ⟨he, hindex⟩ := Progress.entry_eq_error hp
    rw [h.length_entries] at hindex
    rw [he]
    exact .outOfRange _ _ hindex
  · dsimp only at hp
    split at hp
    · rename_i hnone
      cases hp
      refine .outOfRange _ _ ?_
      rw [← h.length_params]
      exact List.getElem?_eq_none_iff.1 hnone
    · rename_i param hparam
      generalize hresized : Applier.resize entry (a.widths t) _ = r at hp
      rcases error_of_bind hp with hp | ⟨q, hq, hp⟩
      · obtain ⟨required, he, hlimit⟩ := Progress.rebuild_eq_error hp
        obtain ⟨code, hcode⟩ := a.exists_adaptCode entry.slot param.type t r
        rw [hcode, ← hresized, Applier.resize_body] at hlimit
        have htypes := Signature.types_set p.body.signature index { param with type := t }
        have hwidth := totalWidth_modify_le a.widths types index t
        rw [← List.set_eq_modify] at hwidth
        rw [h.types] at htypes
        rw [he, ← h.receiverSlots_eq]
        refine .shortage required (Nat.lt_of_lt_of_le (htypes ▸ hlimit) ?_)
        exact Nat.le_trans (Nat.add_le_add_left hwidth _) (Nat.le_of_eq (Nat.add_assoc ..).symm)
      · cases hp

end Tabled

namespace Housed

/-- A parameter that is not there. -/
theorem entry_error (h : Housed w receiver params p) (hp : p.entry index = .error stopped) :
    stopped.error = .ordinalOutOfRange index p.table.length ∧ params.length ≤ index := by
  obtain ⟨he, hlength⟩ := Progress.entry_eq_error hp
  rw [h.length_entries] at hlength
  exact ⟨he, hlength⟩

/-- Dropping a parameter that is there always goes well. -/
theorem dropParameter_error (h : Housed a.widths receiver params p)
    (hp : p.dropParameter a.widths index d = .error stopped) :
    Setback False (params.length ≤ index) live inlining stopped.error := by
  unfold Progress.dropParameter at hp
  rcases error_of_bind hp with hp | ⟨entry, hentry, hp⟩
  · obtain ⟨he, hindex⟩ := h.entry_error hp
    rw [he]
    exact .outOfRange _ _ hindex
  · have hindex : index < params.length := by
      rw [← h.length_entries]
      exact (List.getElem?_eq_some_iff.1 (Progress.entry_eq_ok hentry)).1
    obtain ⟨front, back, hparams, rfl⟩ :=
      exists_append_of_getElem? (List.getElem?_eq_getElem hindex)
    rw [hparams] at h
    have hat := Progress.entry_eq_ok hentry
    rw [h.entry_at, Option.some.injEq] at hat
    subst hat
    dsimp only at hp
    obtain ⟨i, l, hi, -⟩ :=
      h.exists_localIndex (p.body.signature.params[front.length]?.bind (·.name))
    rw [hi] at hp
    rcases error_of_bind hp with hp | ⟨q, hq, hp⟩
    · obtain ⟨required, he, hlimit⟩ := Progress.rebuild_eq_error hp
      rw [Progress.reconcile, Progress.tally_body] at hlimit
      simp only [Progress.withoutParameter, Progress.retarget, Progress.tally_body] at hlimit
      have htypes := Signature.types_eraseIdx p.body.signature front.length
      have hwidth := totalWidth_eraseIdx_le a.widths p.body.signature.types front.length
      have hfits := (SlotTable.eq_of_ofSignature h.table).2
      have hshort : slotLimit < p.body.signature.receiverSlots +
          totalWidth a.widths (p.body.signature.types.eraseIdx front.length) := htypes ▸ hlimit
      omega
    · cases hp

theorem remove_error (h : Housed a.widths receiver params p)
    (hp : a.remove p index = .error stopped) :
    Setback False (params.length ≤ index) (a.rejectLiveRemovals = true) inlining stopped.error := by
  unfold Applier.remove at hp
  rcases error_of_bind hp with hp | ⟨entry, -, hp⟩
  · obtain ⟨he, hindex⟩ := h.entry_error hp
    rw [he]
    exact .outOfRange _ _ hindex
  · dsimp only at hp
    split at hp
    · split at hp
      · rename_i hreject
        cases hp
        exact .live _ _ _ hreject
      · exact h.dropParameter_error hp
    · exact h.dropParameter_error hp

theorem inline_error {generator : Nat} (h : Housed a.widths receiver params p)
    (hp : a.inline p index generator = .error stopped) :
    Setback False (params.length ≤ index) live True stopped.error := by
  unfold Applier.inline at hp
  rcases error_of_bind hp with hp | ⟨entry, -, hp⟩
  · obtain ⟨he, hindex⟩ := h.entry_error hp
    rw [he]
    exact .outOfRange _ _ hindex
  · dsimp only at hp
    split at hp
    · cases hp
      exact .written _ _ trivial
    · split at hp
      · cases hp
        exact .missing _ _ trivial
      · rcases error_of_bind hp with hp | ⟨q, hq, hp⟩
        · exact h.dropParameter_error hp
        · cases hp

theorem substitute_error (hw : ∀ t, 0 < a.widths t) (h : Housed a.widths receiver params p)
    (hp : a.substitute p target source = .error stopped) :
    Setback False (target = source ∨ params.length ≤ target ∨ params.length ≤ source) live inlining
      stopped.error := by
  by_cases hne : target = source
  · simp only [Applier.substitute, if_pos hne] at hp
    cases hp
    exact .script _ (.inl hne)
  · simp only [Applier.substitute, if_neg hne] at hp
    rcases error_of_bind hp with hp | ⟨entry, hentry, hp⟩
    · obtain ⟨he, hindex⟩ := h.entry_error hp
      rw [he]
      exact .outOfRange _ _ (.inr (.inr hindex))
    · rcases error_of_bind hp with hp | ⟨q, hq, hp⟩
      · exact (h.dropParameter_error hp).imp id (fun h => .inr (.inl h)) id id
      · rcases error_of_bind hp with hp | ⟨entry', -, hp⟩
        · obtain ⟨gone, i, l, hgone, -⟩ := Progress.dropParameter_eq_ok hq
          have htarget : target < params.length := by
            rw [← h.length_entries]
            exact (List.getElem?_eq_some_iff.1 hgone).1
          obtain ⟨he, hindex⟩ := (h.eraseIdx hw htarget hq).entry_error hp
          rw [List.length_eraseIdx_of_lt htarget] at hindex
          rw [he]
          refine .outOfRange _ _ (.inr (.inr ?_))
          split at hindex <;> omega
        · cases hp

/-- Parameters fit in every order. -/
theorem permute_error (h : Housed a.widths receiver params p)
    (hperm : order.Perm (List.range params.length)) : a.permute order p ≠ .error stopped := by
  intro hp
  unfold Applier.permute at hp
  split at hp
  · cases hp
  · rcases error_of_bind hp with hp | ⟨q, hq, hp⟩
    · obtain ⟨required, -, hlimit⟩ := Progress.rebuild_eq_error hp
      have hfits := (SlotTable.eq_of_ofSignature h.table).2
      have hall : (List.range p.body.signature.params.length).filterMap
          (p.body.signature.params[·]?) = p.body.signature.params :=
        filterMap_getElem_of_map (map_range_getElem _)
      rw [← h.length_params] at hperm
      have htypes := ((hperm.filterMap (p.body.signature.params[·]?)).map (·.type))
      rw [hall] at htypes
      have hwidth := totalWidth_perm (w := a.widths) htypes
      change slotLimit < p.body.signature.receiverSlots + totalWidth a.widths
        ((order.filterMap (p.body.signature.params[·]?)).map (·.type)) at hlimit
      rw [hwidth] at hlimit
      exact Nat.not_lt_of_le hfits hlimit
    · cases hp

end Housed

/-! Whole phases. -/

/-- The slots that an edit may add. -/
def Edit.extraWidth (w : Widths) : Edit → Nat
  | insert _ t | replace _ t => w t
  | _ => 0

def Script.extraWidth (w : Widths) (s : Script) : Nat := (s.map (·.extraWidth w)).sum

theorem Edit.Step.totalWidth_le {e : Edit} (h : e.Step (fun t => t) (fun t _ => t) types types') :
    totalWidth w types' ≤ totalWidth w types + e.extraWidth w := by
  cases h with
  | insert t h => exact Nat.le_of_eq (totalWidth_insertIdx w h)
  | replace t h => exact totalWidth_modify_le ..
  | swap ha hb => exact Nat.le_of_eq (totalWidth_perm exchange_perm)
  | move hs hd => exact Nat.le_of_eq (totalWidth_perm (relocate_perm hd))
  | remove h => exact totalWidth_eraseIdx_le ..
  | substitute hne ht hs => exact totalWidth_eraseIdx_le ..
  | inline generator h => exact totalWidth_eraseIdx_le ..

theorem Script.totalWidth_le {s : Script} (h : s.replay types = .ok types') :
    totalWidth w types' ≤ totalWidth w types + s.extraWidth w := by
  induction s generalizing types with
  | nil =>
    cases h
    exact Nat.le_refl _
  | cons e s ih =>
    obtain ⟨mid, hstep, hrest⟩ := Script.run_cons_ok h
    have hfirst := hstep.totalWidth_le (w := w)
    have hlater := ih hrest
    have hwidth : Script.extraWidth w (e :: s) = e.extraWidth w + Script.extraWidth w s := rfl
    omega

theorem foldlM_setback {β : Type} {step : Progress → β → Except Stopped Progress} {edit : β → Edit}
    {edits : List β} {I : List ValueType → Progress → Prop}
    (hok : ∀ {types p p' e}, I types p → step p e = .ok p' →
      ∃ types', (edit e).Step (fun t => t) (fun t _ => t) types types' ∧ I types' p')
    (herror : ∀ {types p e stopped}, I types p → step p e = .error stopped →
      Setback (slotLimit < receiver + totalWidth w types + (edit e).extraWidth w)
        (¬ ∃ types', (edit e).Step (fun t => t) (fun t _ => t) types types') live inlining
        stopped.error)
    (h : I types p) (hp : edits.foldlM step p = .error stopped) :
    Setback (slotLimit < receiver + totalWidth w types + Script.extraWidth w (edits.map edit))
      (¬ ∃ types', Script.replay (edits.map edit) types = .ok types') live inlining
      stopped.error := by
  induction edits generalizing types p with
  | nil => cases hp
  | cons e edits ih =>
    rw [List.foldlM_cons] at hp
    have hwidth : Script.extraWidth w ((e :: edits).map edit) =
        (edit e).extraWidth w + Script.extraWidth w (edits.map edit) := rfl
    rcases error_of_bind hp with hp | ⟨q, hq, hp⟩
    · refine (herror h hp).imp (fun hs => by omega) (fun hm hfits => hm ?_) id id
      obtain ⟨types', hreplay⟩ := hfits
      obtain ⟨mid, hstep, -⟩ := Script.run_cons_ok hreplay
      exact ⟨mid, hstep⟩
    · obtain ⟨mid, hstep, hI⟩ := hok h hq
      have hle := hstep.totalWidth_le (w := w)
      refine (ih hI hp).imp (fun hs => by omega) (fun hm hfits => hm ?_) id id
      obtain ⟨types', hreplay⟩ := hfits
      exact ⟨types', (Script.run_cons hstep).symm.trans hreplay⟩

theorem Applier.orderOf_error {α : Type} {fresh : ValueType → α} {retype : ValueType → α → α}
    {ys : List α} {length : Nat} (h : orderOf length reorders order = .error err)
    (hlength : ys.length = length) : (∃ ordinal, err = .ordinalOutOfRange ordinal length) ∧
      ¬ ∃ zs, Script.run fresh retype (reorders.map (·.toEdit)) ys = .ok zs := by
  induction reorders generalizing order ys with
  | nil => cases h
  | cons r reorders ih =>
    cases r with
    | swap i j =>
      simp only [orderOf] at h
      split at h
      · obtain ⟨herr, hrest⟩ := ih h ((exchange_length ys i j).trans hlength)
        refine ⟨herr, ?_⟩
        rintro ⟨zs, hrun⟩
        refine hrest ⟨zs, ?_⟩
        have hstep : (Edit.swap i j).Step fresh retype ys (exchange ys i j) :=
          .swap (by omega) (by omega)
        exact (Script.run_cons hstep).symm.trans hrun
      · cases h
        refine ⟨⟨_, rfl⟩, ?_⟩
        rintro ⟨zs, hrun⟩
        obtain ⟨mid, hstep, -⟩ := Script.run_cons_ok hrun
        cases hstep
        omega
    | move source dest =>
      simp only [orderOf] at h
      split at h
      · have hs : source < ys.length := by omega
        have hd : dest < ys.length := by omega
        obtain ⟨herr, hrest⟩ := ih h ((relocate_length hs hd).trans hlength)
        refine ⟨herr, ?_⟩
        rintro ⟨zs, hrun⟩
        refine hrest ⟨zs, ?_⟩
        have hstep : (Edit.move source dest).Step fresh retype ys (relocate ys source dest) :=
          .move hs hd
        exact (Script.run_cons hstep).symm.trans hrun
      · cases h
        refine ⟨⟨_, rfl⟩, ?_⟩
        rintro ⟨zs, hrun⟩
        obtain ⟨mid, hstep, -⟩ := Script.run_cons_ok hrun
        cases hstep
        omega

namespace Tabled

variable {s : Signature}

theorem insertAll_error {edits : List (Nat × ValueType)} (h : Tabled a.widths s types p)
    (hp : a.insertAll edits p = .error stopped) :
    let script : Script := (ascendingByFirst edits).map fun (i, t) => .insert i t
    Setback (slotLimit < s.receiverSlots + totalWidth a.widths types + script.extraWidth a.widths)
      (¬ ∃ types', script.replay types = .ok types') live inlining stopped.error := by
  refine foldlM_setback (fun h hq => (carries a s).insert_step h hq) (fun h hq => ?_) h hp
  refine (h.insert_error hq).imp id (fun hlt ⟨types', hstep⟩ => ?_) id id
  cases hstep with
  | insert t hle => exact Nat.not_lt_of_le hle hlt

theorem replaceAll_error {edits : List (Nat × ValueType)} (h : Tabled a.widths s types p)
    (hp : a.replaceAll edits p = .error stopped) :
    let script : Script := edits.map fun (i, t) => .replace i t
    Setback (slotLimit < s.receiverSlots + totalWidth a.widths types + script.extraWidth a.widths)
      (¬ ∃ types', script.replay types = .ok types') live inlining stopped.error := by
  refine foldlM_setback (fun h hq => (carries a s).replace_step h hq) (fun h hq => ?_) h hp
  refine (h.replace_error hq).imp id ?_ id id
  rintro hle ⟨types', hstep⟩
  cases hstep with
  | replace t hlt => exact Nat.not_lt_of_le hle hlt

end Tabled

/-- A body in which every parameter has its local, and the types of its parameters. -/
def Typed (w : Widths) (receiver : Nat) : List ValueType → Progress → Prop :=
  Labelled w receiver fun t q => t = q.1

theorem typed_iff : Typed w receiver types p ↔
    p.body.signature.types = types ∧ ∃ params, Housed w receiver params p := by
  have hagree (params : List (ValueType × String)) :
      List.Forall₂ (fun t q => t = q.1) types params ↔ types = params.map (·.1) := by
    rw [← List.forall₂_eq_eq_eq, List.forall₂_map_right_iff]
  constructor
  · rintro ⟨params, htypes, h⟩
    rw [hagree] at htypes
    exact ⟨h.types.trans htypes.symm, params, h⟩
  · rintro ⟨htypes, params, h⟩
    exact ⟨params, (hagree params).2 (htypes.symm.trans h.types), h⟩

namespace Typed

theorem carries (hw : ∀ t, 0 < a.widths t) :
    Carries a (fun t => t) (fun t _ => t) (Typed a.widths receiver) :=
  Labelled.carries hw (fun _ _ => rfl) fun _ _ _ _ => rfl

theorem length_eq (h : Housed w receiver params p) :
    p.body.signature.types.length = params.length := by rw [h.types, List.length_map]

theorem tabled (h : Typed w receiver types p) :
    ∃ s : Signature, s.receiverSlots = receiver ∧ Tabled w s types p := by
  obtain ⟨rfl, params, h⟩ := typed_iff.1 h
  exact ⟨p.body.signature, h.receiver, rfl, rfl, rfl, h.table⟩

theorem insertAll_error {edits : List (Nat × ValueType)} (h : Typed a.widths receiver types p)
    (hp : a.insertAll edits p = .error stopped) :
    let s : Script := (ascendingByFirst edits).map fun (i, t) => .insert i t
    Setback (slotLimit < receiver + totalWidth a.widths types + s.extraWidth a.widths)
      (¬ ∃ types', s.replay types = .ok types') live inlining stopped.error := by
  obtain ⟨s, rfl, htabled⟩ := h.tabled
  exact htabled.insertAll_error hp

theorem replaceAll_error {edits : List (Nat × ValueType)} (h : Typed a.widths receiver types p)
    (hp : a.replaceAll edits p = .error stopped) :
    let s : Script := edits.map fun (i, t) => .replace i t
    Setback (slotLimit < receiver + totalWidth a.widths types + s.extraWidth a.widths)
      (¬ ∃ types', s.replay types = .ok types') live inlining stopped.error := by
  obtain ⟨s, rfl, htabled⟩ := h.tabled
  exact htabled.replaceAll_error hp

theorem fits (h : Typed a.widths receiver types p) :
    receiver + totalWidth a.widths types ≤ slotLimit := by
  obtain ⟨rfl, params, h⟩ := typed_iff.1 h
  rw [← h.receiver]
  exact (SlotTable.eq_of_ofSignature h.table).2

theorem removeAll_error (hw : ∀ t, 0 < a.widths t) {indices : List Nat}
    (h : Typed a.widths receiver types p) (hp : a.removeAll indices p = .error stopped) :
    Setback False
      (¬ ∃ types', Script.replay ((descending indices).map .remove) types = .ok types')
      (a.rejectLiveRemovals = true) inlining stopped.error := by
  have hwidth : Script.extraWidth a.widths ((descending indices).map .remove) = 0 := by
    simp [Script.extraWidth, Function.comp_def, Edit.extraWidth]
  have hfits := h.fits
  have hset : Setback (slotLimit < receiver + totalWidth a.widths types +
      Script.extraWidth a.widths ((descending indices).map .remove))
      (¬ ∃ types', Script.replay ((descending indices).map .remove) types = .ok types')
      (a.rejectLiveRemovals = true) inlining stopped.error := by
    refine foldlM_setback (fun h hq => (carries hw).remove_step h hq) (fun h hq => ?_) h hp
    obtain ⟨rfl, params, h⟩ := typed_iff.1 h
    refine (h.remove_error hq).imp False.elim ?_ id id
    rintro hle ⟨types', hstep⟩
    cases hstep with
    | remove hlt => exact Nat.not_lt_of_le hle (length_eq h ▸ hlt)
  exact hset.imp (fun hs => by omega) id id id

theorem inlineAll_error (hw : ∀ t, 0 < a.widths t) {edits : List (Nat × Nat)}
    (h : Typed a.widths receiver types p) (hp : a.inlineAll edits p = .error stopped) :
    Setback False (¬ ∃ types', Script.replay
        ((descendingByFirst edits).map fun (i, g) => .inline i g) types = .ok types')
      live (edits ≠ []) stopped.error := by
  have hedits : edits ≠ [] := by
    rintro rfl
    rw [Applier.inlineAll_nil] at hp
    cases hp
  have hwidth : Script.extraWidth a.widths
      ((descendingByFirst edits).map fun (i, g) => .inline i g) = 0 := by
    simp [Script.extraWidth, Function.comp_def, Edit.extraWidth]
  have hfits := h.fits
  have hset : Setback (slotLimit < receiver + totalWidth a.widths types +
      Script.extraWidth a.widths ((descendingByFirst edits).map fun (i, g) => .inline i g))
      (¬ ∃ types', Script.replay
        ((descendingByFirst edits).map fun (i, g) => .inline i g) types = .ok types')
      live (edits ≠ []) stopped.error := by
    refine foldlM_setback (fun h hq => (carries hw).inline_step h hq) (fun h hq => ?_) h hp
    obtain ⟨rfl, params, h⟩ := typed_iff.1 h
    refine (h.inline_error hq).imp False.elim ?_ id fun _ => hedits
    rintro hle ⟨types', hstep⟩
    cases hstep with
    | inline generator hlt => exact Nat.not_lt_of_le hle (length_eq h ▸ hlt)
  exact hset.imp (fun hs => by omega) id id id

theorem reorderAll_error (h : Typed a.widths receiver types p)
    (hp : a.reorderAll reorders p = .error stopped) :
    Setback False (¬ ∃ types', Script.replay (reorders.map (·.toEdit)) types = .ok types')
      live inlining stopped.error := by
  obtain ⟨rfl, params, h⟩ := typed_iff.1 h
  unfold Applier.reorderAll at hp
  dsimp only at hp
  split at hp
  · rename_i order horder
    obtain ⟨-, hperm⟩ := @Applier.orderOf_eq_ok _ _ _ _ (fun _ => 0) (fun _ k => k) horder
      List.length_range
    rw [h.length_params] at hperm
    exact (h.permute_error hperm hp).elim
  · rename_i err horder
    cases hp
    have hlength : p.body.signature.types.length = p.body.signature.params.length := by
      simp [Signature.types, Parameter.types]
    obtain ⟨⟨ordinal, rfl⟩, hmisfit⟩ := Applier.orderOf_error horder hlength
    exact .outOfRange _ _ hmisfit

/-- Of two substitutions for one target the second one may find its source in the place of the
target, so a substitution may be refused even if it replays. -/
theorem substituteAll_error (hw : ∀ t, 0 < a.widths t) {edits : List (Nat × Nat)} {gone : List Nat}
    (h : Typed a.widths receiver types p) (hp : a.substituteAll edits gone p = .error stopped) :
    Setback False (edits ≠ []) live inlining stopped.error := by
  induction edits generalizing types p gone with
  | nil => cases hp
  | cons e edits ih =>
    rcases error_of_bind hp with hp | ⟨place, -, hp⟩
    · obtain ⟨ordinal, length, herr⟩ := Progress.currentOrdinal_eq_error hp
      rw [herr]
      exact .outOfRange _ _ (List.cons_ne_nil _ _)
    rcases error_of_bind hp with hp | ⟨q, hq, hp⟩
    · obtain ⟨rfl, params, h⟩ := typed_iff.1 h
      exact (h.substitute_error hw hp).imp id (fun _ => List.cons_ne_nil _ _) id id
    · obtain ⟨-, -, -, hI⟩ := (carries hw).substitute h hq
      exact (ih hI hp).imp id (fun _ => List.cons_ne_nil _ _) id id

end Typed

theorem extraWidth_insertions (w : Widths) (edits : List (Nat × ValueType)) :
    Script.extraWidth w ((ascendingByFirst edits).map fun (i, t) => .insert i t) =
      totalWidth w (edits.map (·.2)) := by
  rw [← totalWidth_perm ((List.mergeSort_perm edits fun p q => p.1 ≤ q.1).map (·.2))]
  simp [Script.extraWidth, totalWidth, ascendingByFirst, Function.comp_def, Edit.extraWidth]

theorem extraWidth_replacements (w : Widths) (edits : List (Nat × ValueType)) :
    Script.extraWidth w (edits.map fun (i, t) => .replace i t) =
      totalWidth w (edits.map (·.2)) := by
  simp [Script.extraWidth, totalWidth, Function.comp_def, Edit.extraWidth]

/-- One phase after another stops for a cause of the first, or of what follows if the first goes
well and so does its replay. -/
theorem Setback.bind {α β : Type} {x : Except Stopped α} {k : α → Except Stopped β}
    {y : Except ScriptError (List ValueType)}
    {r : List ValueType → Except ScriptError (List ValueType)}
    (hp : x >>= k = .error stopped)
    (hfirst : x = .error stopped →
      Setback short ((¬ ∃ types', y = .ok types') ∨ misfit) live inlining stopped.error)
    (hrest : ∀ p, x = .ok p → ∃ types, y = .ok types ∧ (k p = .error stopped →
      Setback short ((¬ ∃ types', r types = .ok types') ∨ misfit) live inlining stopped.error)) :
    Setback short ((¬ ∃ types', (y >>= r) = .ok types') ∨ misfit) live inlining stopped.error := by
  rcases error_of_bind hp with hp | ⟨p, hx, hp⟩
  · refine (hfirst hp).imp id (Or.imp_left fun hno ⟨types', hfits⟩ => hno ?_) id id
    obtain ⟨types, hy, -⟩ := exists_of_bind hfits
    exact ⟨types, hy⟩
  · obtain ⟨types, rfl, hnext⟩ := hrest p hx
    exact hnext hp

/-- Why a whole application stops. -/
theorem Housed.run_error (hw : ∀ t, 0 < a.widths t) {f : FlatScript} {b : Body} {table : SlotTable}
    (h : Housed a.widths receiver params { body := b, table }) (hp : a.run f b = .error stopped) :
    Setback (slotLimit < receiver + totalWidth a.widths b.signature.types +
        totalWidth a.widths (f.insertions.map (·.2)) +
        totalWidth a.widths (f.replacements.map (·.2)))
      ((¬ ∃ types', f.replay b.signature.types = .ok types') ∨ f.substitutions ≠ [])
      (a.rejectLiveRemovals = true) (f.inlines ≠ []) stopped.error := by
  have hc := @Typed.carries a receiver hw
  have hI : Typed a.widths receiver b.signature.types { body := b, table } :=
    typed_iff.2 ⟨rfl, params, h⟩
  unfold Applier.run at hp
  rw [h.table] at hp
  unfold FlatScript.replay FlatScript.run
  refine Setback.bind hp (fun h1 => ?_) fun p1 h1 => ?_
  · refine (hI.insertAll_error h1).imp (fun hs => ?_) .inl False.elim False.elim
    rw [extraWidth_insertions] at hs
    omega
  obtain ⟨types1, hr1, hI1⟩ := hc.insertAll hI h1
  have hwidth := Script.totalWidth_le (w := a.widths) hr1
  rw [extraWidth_insertions] at hwidth
  refine ⟨types1, hr1, fun hp => Setback.bind hp (fun h2 => ?_) fun p2 h2 => ?_⟩
  · refine (hI1.replaceAll_error h2).imp (fun hs => ?_) .inl False.elim False.elim
    rw [extraWidth_replacements] at hs
    omega
  obtain ⟨types2, hr2, hI2⟩ := hc.replaceAll hI1 h2
  refine ⟨types2, hr2, fun hp => Setback.bind hp (fun h3 => ?_) fun p3 h3 => ?_⟩
  · refine (hI2.substituteAll_error hw h3).imp False.elim (fun hne => .inr ?_) False.elim False.elim
    rintro hnil
    rw [hnil] at hne
    exact hne List.mergeSort_nil
  obtain ⟨types3, hr3, hI3⟩ := hc.substituteAll (pairwise_descendingByFirst _) (by simp) hI2 h3
  refine ⟨types3, hr3, fun hp => Setback.bind hp (fun h4 => ?_) fun p4 h4 => ?_⟩
  · exact (hI3.reorderAll_error h4).imp False.elim .inl False.elim False.elim
  obtain ⟨types4, hr4, hI4⟩ := hc.reorderAll hI3 h4
  refine ⟨types4, hr4, fun hp => Setback.bind hp (fun h5 => ?_) fun p5 h5 => ?_⟩
  · exact (hI4.removeAll_error hw h5).imp False.elim .inl id False.elim
  obtain ⟨types5, hr5, hI5⟩ := hc.removeAll hI4 h5
  refine ⟨types5, hr5, fun hp => ?_⟩
  rcases error_of_bind hp with h6 | ⟨p6, h6, hp⟩
  · exact (hI5.inlineAll_error hw h6).imp False.elim .inl False.elim id
  · cases hp

theorem Setback.not_live (ordinal slot position : Nat) :
    ¬ Setback short misfit False inlining (.unsupportedRemoval ordinal slot position) := by
  rintro ⟨⟩
  assumption

/-- A parameter in use is refused by the removals, once all phases before them went well. -/
theorem Housed.run_unsupported (hw : ∀ t, 0 < a.widths t) {f : FlatScript} {b : Body}
    {table : SlotTable} (h : Housed a.widths receiver params { body := b, table })
    {ordinal slot position : Nat} {left : Body}
    (hp : a.run f b = .error ⟨.unsupportedRemoval ordinal slot position, left⟩) :
    ∃ p1 p2 p3 p4, a.insertAll f.insertions { body := b, table } = .ok p1 ∧
      a.replaceAll f.replacements p1 = .ok p2 ∧
      a.substituteAll (descendingByFirst f.substitutions) [] p2 = .ok p3 ∧
      a.reorderAll f.settledReorders p3 = .ok p4 ∧
      a.removeAll f.removals p4 = .error ⟨.unsupportedRemoval ordinal slot position, left⟩ := by
  have hc := @Typed.carries a receiver hw
  have hI : Typed a.widths receiver b.signature.types { body := b, table } :=
    typed_iff.2 ⟨rfl, params, h⟩
  have hnot (short misfit inlining : Prop) :=
    @Setback.not_live short misfit inlining ordinal slot position
  unfold Applier.run at hp
  rw [h.table] at hp
  rcases error_of_bind hp with hp | ⟨p1, h1, hp⟩
  · exact (hnot _ _ True (hI.insertAll_error hp)).elim
  obtain ⟨types1, -, hI1⟩ := hc.insertAll hI h1
  rcases error_of_bind hp with hp | ⟨p2, h2, hp⟩
  · exact (hnot _ _ True (hI1.replaceAll_error hp)).elim
  obtain ⟨types2, -, hI2⟩ := hc.replaceAll hI1 h2
  rcases error_of_bind hp with hp | ⟨p3, h3, hp⟩
  · exact (hnot _ _ True (hI2.substituteAll_error hw hp)).elim
  obtain ⟨types3, -, hI3⟩ := hc.substituteAll (pairwise_descendingByFirst _) (by simp) hI2 h3
  rcases error_of_bind hp with hp | ⟨p4, h4, hp⟩
  · exact (hnot _ _ True (hI3.reorderAll_error hp)).elim
  obtain ⟨types4, -, hI4⟩ := hc.reorderAll hI3 h4
  rcases error_of_bind hp with hp | ⟨p5, h5, hp⟩
  · exact ⟨p1, p2, p3, p4, h1, h2, h3, h4, hp⟩
  obtain ⟨types5, -, hI5⟩ := hc.removeAll hI4 h5
  rcases error_of_bind hp with hp | ⟨p6, h6, hp⟩
  · exact (hnot _ _ _ (hI5.inlineAll_error hw hp)).elim
  · cases hp

end Reparam
