import Reparam.Proofs.Apply.Keeping
import Reparam.Proofs.Apply.Replaying
import Reparam.Proofs.Locals.Labelled

/-! What an application notes of the things that it changes. Every step raises flags and lowers none,
and code that it changes is always among what it notes. -/
namespace Reparam

variable {a : Applier} {w : Widths} {flags flags' : Changed} {p p' q : Progress} {b : Body}
  {f : FlatScript} {index target source generator d : Nat} {t : ValueType} {order : List Nat}

/-- All that one of two applications changed. -/
def Changed.or (c d : Changed) : Changed :=
  ⟨c.signature || d.signature, c.slots || d.slots, c.instructions || d.instructions,
    c.frames || d.frames⟩

theorem Changed.or_none (c : Changed) : c.or {} = c := by
  simp [or]

theorem Changed.none_or (c : Changed) : ({} : Changed).or c = c := by
  simp [or]

/-! Counts of changed instructions. -/

namespace Code

theorem remap_of_count (f : Nat → Nat) (code : Code) (h : code.remapCount f = 0) :
    code.remap f = code := by
  refine (List.map_congr_left fun i hi => ?_).trans (List.map_id code)
  have hstays := List.countP_eq_zero.1 h i hi
  cases hx : i.slot? with
  | none => exact Instruction.mapSlot_eq_self hx f
  | some x =>
    rw [hx, Option.any_some, bne_iff_ne, not_not] at hstays
    rw [Instruction.mapSlot, hx]
    dsimp only
    rw [hstays, Instruction.withSlot_self hx, id]

theorem retypeCalls_of_count {slot : Nat} {old new : String} {loaded : Bool} {code : Code}
    (h : (retypeCalls slot old new loaded code).1 = 0) :
    (retypeCalls slot old new loaded code).2 = code := by
  induction code generalizing loaded with
  | nil => rfl
  | cons i code ih =>
    unfold retypeCalls at h ⊢
    dsimp only at h ⊢
    cases i with
    | invoke owner name descriptor =>
      dsimp only at h ⊢
      split at h
      · cases h
      · rw [if_neg ‹_›, ih h]
    | _ => rw [ih h]

theorem insertAdapters_of_count {slot : Nat} {adapter code : Code}
    (h : (insertAdapters slot adapter code).1 = 0) :
    (insertAdapters slot adapter code).2 = code := by
  induction code with
  | nil => rfl
  | cons i code ih =>
    simp only [insertAdapters] at h ⊢
    split at h
    · cases h
    · rw [if_neg ‹_›, ih h]

end Code

/-- Notes all that the flags say, and maybe that the code changed. If not, the code is as it was. -/
def Notes (flags : Changed) (p p' : Progress) : Prop :=
  ∃ touched : Bool, p'.changed = (p.changed.or flags).or { instructions := touched } ∧
    (touched = false → p'.body.code = p.body.code)

namespace Notes

theorem of_code_eq (hcode : p'.body.code = p.body.code)
    (hchanged : p'.changed = p.changed.or flags) : Notes flags p p' :=
  ⟨false, hchanged.trans (Changed.or_none _).symm, fun _ => hcode⟩

/-- Changes apart from the code that are noted later or not at all. -/
theorem silent (hcode : p'.body.code = p.body.code) (hchanged : p'.changed = p.changed) :
    Notes {} p p' :=
  of_code_eq hcode (hchanged.trans (Changed.or_none _).symm)

theorem trans (h : Notes flags p q) (h' : Notes flags' q p') : Notes (flags.or flags') p p' := by
  obtain ⟨touched, hchanged, hcode⟩ := h
  obtain ⟨touched', hchanged', hcode'⟩ := h'
  refine ⟨touched || touched', ?_, fun hnone => ?_⟩
  · rw [hchanged', hchanged]
    simp only [Changed.or, Bool.or_false, Bool.or_assoc, Bool.or_left_comm touched]
  · obtain ⟨hno, hno'⟩ := Bool.or_eq_false_iff.1 hnone
    exact (hcode' hno').trans (hcode hno)

theorem silent_trans (h : Notes {} p q) (h' : Notes flags q p') : Notes flags p p' := by
  have hboth := h.trans h'
  rwa [Changed.none_or] at hboth

theorem trans_silent (h : Notes flags p q) (h' : Notes {} q p') : Notes flags p p' := by
  have hboth := h.trans h'
  rwa [Changed.or_none] at hboth

/-- Changes of code that are counted. -/
theorem tally {b : Body} {count : Nat} (h : count = 0 → b.code = p.body.code) :
    Notes {} p ({ p with body := b }.tally count) := by
  unfold Progress.tally
  split
  · exact silent (h ‹_›) rfl
  · refine ⟨true, ?_, nofun⟩
    simp [Changed.or]

theorem instructions (h : Notes flags p p') (hnone : p'.changed.instructions = false) :
    p.changed.instructions = false ∧ p'.body.code = p.body.code := by
  obtain ⟨touched, hchanged, hcode⟩ := h
  rw [hchanged] at hnone
  simp only [Changed.or, Bool.or_eq_false_iff] at hnone
  exact ⟨hnone.1.1, hcode hnone.2⟩

theorem slots_eq (h : Notes flags p p') : p'.changed.slots = (p.changed.slots || flags.slots) := by
  obtain ⟨touched, hchanged, -⟩ := h
  simp [hchanged, Changed.or]

theorem slots_same (h : Notes flags p p') (hflag : flags.slots = false) :
    p'.changed.slots = p.changed.slots := by
  rw [h.slots_eq, hflag, Bool.or_false]

theorem signature_of (h : Notes flags p p') (hflag : flags.signature = true) :
    p'.changed.signature = true := by
  obtain ⟨touched, hchanged, -⟩ := h
  simp [hchanged, Changed.or, hflag]

theorem frames_of (h : Notes flags p p') (hflag : flags.frames = true) :
    p'.changed.frames = true := by
  obtain ⟨touched, hchanged, -⟩ := h
  simp [hchanged, Changed.or, hflag]

end Notes

/-! What the parts of a step note. -/

namespace Progress

theorem notes_reconcile (s : Snapshot) : Notes {} p (p.reconcile w s) :=
  .tally (Code.remap_of_count _ _)

theorem notes_retarget (source dest : Nat) : Notes {} p (p.retarget source dest) :=
  .tally (Code.remap_of_count _ _)

theorem notes_remapSlots (f : Nat → Nat) : Notes {} p (p.remapSlots f) :=
  .tally (Code.remap_of_count _ _)

theorem notes_rebuild (h : p.rebuild w = .ok p') : Notes {} p p' := by
  unfold rebuild at h
  split at h
  · cases h
    exact .silent rfl rfl
  · cases h

theorem notes_changedSignature (p : Progress) : Notes { signature := true } p p.changedSignature :=
  .of_code_eq rfl (by simp [changedSignature, Changed.or])

theorem notes_changedFrames (p : Progress) :
    Notes { signature := true, frames := true } p p.changedFrames :=
  .of_code_eq rfl (by simp [changedFrames, Changed.or])

theorem notes_dropParameter (h : p.dropParameter w index d = .ok p') :
    Notes { signature := true, frames := true } p p' := by
  unfold dropParameter at h
  obtain ⟨entry, -, h⟩ := exists_of_bind h
  dsimp only at h
  split at h
  · cases h
  · rename_i i hi
    obtain ⟨q, hq, h⟩ := exists_of_bind h
    cases h
    have hparted : Notes {} p ((p.retarget entry.slot d).withoutParameter index i) :=
      (p.notes_retarget entry.slot d).trans_silent (.silent rfl rfl)
    exact ((hparted.silent_trans (notes_reconcile _)).silent_trans
      (notes_rebuild hq)).silent_trans q.notes_changedFrames

end Progress

namespace Applier

open Progress

theorem notes_insert (h : a.insert p index t = .ok p') : Notes { signature := true } p p' := by
  have hindex := le_of_insert h
  simp only [insert, if_pos hindex] at h
  obtain ⟨q, hq, h⟩ := exists_of_bind h
  cases h
  generalize hdeclared : Progress.mk _ _ _ = r at hq
  have hr : Notes {} p r := hdeclared ▸ .silent rfl rfl
  exact ((hr.silent_trans (notes_reconcile _)).silent_trans
    (notes_rebuild hq)).silent_trans q.notes_changedSignature

theorem notes_resize (entry : SlotEntry) (width : Nat) (p : Progress) :
    Notes {} p (resize entry width p) := by
  unfold resize
  split
  · exact .silent rfl rfl
  · exact notes_remapSlots _

theorem notes_adaptCode (slot : Nat) (old new : ValueType) (p : Progress) :
    Notes {} p (a.adaptCode slot old new p) := by
  unfold adaptCode
  split
  · refine .tally fun hcount => ?_
    obtain ⟨hcalls, hloads⟩ := Nat.add_eq_zero_iff.1 hcount
    have hretyped := Code.retypeCalls_of_count hcalls
    dsimp only at hloads ⊢
    split at hloads
    · rw [Code.insertAdapters_of_count hloads, hretyped]
    · exact hretyped
  · exact .silent rfl rfl

theorem notes_replace (h : a.replace p index t = .ok p') :
    Notes { signature := true, frames := true } p p' := by
  unfold replace at h
  obtain ⟨entry, -, h⟩ := exists_of_bind h
  dsimp only at h
  split at h
  · cases h
  · rename_i param hparam
    obtain ⟨q, hq, h⟩ := exists_of_bind h
    cases h
    generalize hretyped : Progress.mk _ _ _ = r at hq
    have hr : Notes {} p r := hretyped ▸ .silent rfl rfl
    exact (((hr.silent_trans (notes_resize _ _ _)).silent_trans
      (notes_adaptCode _ _ _ _)).silent_trans (notes_rebuild hq)).silent_trans q.notes_changedFrames

theorem notes_substitute (h : a.substitute p target source = .ok p') :
    Notes { signature := true, frames := true } p p' := by
  obtain ⟨-, q, entry, hq, -, rfl⟩ := substitute_eq_ok h
  exact (notes_dropParameter hq).trans_silent (q.notes_retarget _ _)

theorem notes_remove (h : a.remove p index = .ok p') :
    Notes { signature := true, frames := true } p p' :=
  notes_dropParameter (remove_eq_ok h)

theorem notes_expand (slot : Nat) (replacement : Code) (p : Progress) :
    Notes {} p (expand slot replacement p) := by
  refine .tally fun hcount => ?_
  have hnone := List.eq_nil_of_length_eq_zero hcount
  have hkeep : ∀ i ∈ p.body.code, (if i.slot? = some slot then replacement else [i]) = [i] := by
    intro i hi
    obtain ⟨k, hk⟩ := List.getElem?_of_mem hi
    refine if_neg fun hslot => ?_
    have hmem := Code.mem_positionsOf.2 ⟨i, hk, hslot⟩
    rw [hnone] at hmem
    cases hmem
  exact (List.flatMap_congr hkeep).trans (List.flatMap_singleton' _)

theorem notes_inline (h : a.inline p index generator = .ok p') :
    Notes { signature := true, frames := true } p p' := by
  obtain ⟨entry, q, replacement, -, -, hq, rfl⟩ := inline_eq_ok h
  exact (notes_dropParameter hq).trans_silent (notes_expand _ _ _)

/-- A reordering notes whether it moves a slot. -/
theorem notes_permute (h : a.permute order p = .ok p') :
    (order = List.range order.length ∧ p' = p) ∨
      order ≠ List.range order.length ∧
        Notes ⟨true, !(movedSlots p.table p'.table order).isEmpty, false, true⟩ p p' := by
  unfold permute at h
  split at h
  · cases h
    exact .inl ⟨‹_›, rfl⟩
  · refine .inr ⟨‹_›, ?_⟩
    obtain ⟨q, hq, h⟩ := exists_of_bind h
    dsimp only at h
    have htable : p'.table = q.table := by
      split at h <;> cases h <;> exact Progress.remapSlots_table ..
    rw [htable]
    generalize movedSlots p.table q.table order = moves at h
    refine (notes_rebuild hq).silent_trans ((notes_remapSlots (destination moves)).silent_trans ?_)
    cases moves with
    | nil =>
      cases h
      exact notes_changedFrames _
    | cons move moves =>
      cases h
      exact .of_code_eq rfl (by simp [Changed.or, changedSlots, changedFrames])

/-- What is not noted is as it was. -/
structure Honest (b : Body) (p : Progress) : Prop where
  signature : p.changed.signature = false →
    p.body.signature = b.signature ∧ p.body.locals = b.locals
  instructions : p.changed.instructions = false → p.body.code = b.code

theorem Honest.of_notes (h : Honest b p) (hn : Notes flags p p') (hflag : flags.signature = true) :
    Honest b p' where
  signature hnone := by
    rw [hn.signature_of hflag] at hnone
    cases hnone
  instructions hnone := by
    obtain ⟨hbefore, hcode⟩ := hn.instructions hnone
    exact hcode.trans (h.instructions hbefore)

theorem keeps_honest (a : Applier) (b : Body) : Keeps a (Honest b) where
  insert h hp := h.of_notes (notes_insert hp) rfl
  replace h hp := h.of_notes (notes_replace hp) rfl
  substitute h hp := h.of_notes (notes_substitute hp) rfl
  permute h hp := by
    rcases notes_permute hp with ⟨-, rfl⟩ | ⟨-, hn⟩
    · exact h
    · exact h.of_notes hn rfl
  remove h hp := h.of_notes (notes_remove hp) rfl
  inline h hp := h.of_notes (notes_inline hp) rfl

theorem run_honest (h : a.run f b = .ok p') : Honest b p' := by
  obtain ⟨before, p, -, hp, rfl⟩ :=
    (keeps_honest a b).phases (fun _ _ => ⟨fun _ => ⟨rfl, rfl⟩, fun _ => rfl⟩) h
  split
  · exact hp
  · exact ⟨hp.signature, hp.instructions⟩

/-! Stale frames. -/

theorem nil_of_mergeSort {α : Type} {xs : List α} {le : α → α → Bool} (h : xs.mergeSort le = []) :
    xs = [] := by
  have hperm := List.mergeSort_perm xs le
  rw [h] at hperm
  exact hperm.symm.eq_nil

/-- Steps that make frames stale were not taken if the frames are not stale. -/
theorem eq_nil_of_frames {α : Type} {step : Progress → α → Except Stopped Progress} {edits : List α}
    (hstep : ∀ {p p' e}, step p e = .ok p' → p'.changed.frames = true)
    (h : edits.foldlM step p = .ok p') (hnone : p'.changed.frames = false) :
    edits = [] ∧ p' = p := by
  induction edits generalizing p with
  | nil =>
    cases h
    exact ⟨rfl, rfl⟩
  | cons e edits ih =>
    rw [List.foldlM_cons] at h
    obtain ⟨q, hq, h⟩ := exists_of_bind h
    -- what follows comes to nothing, so this step is the last one
    obtain ⟨-, rfl⟩ := ih h
    rw [hstep hq] at hnone
    cases hnone

theorem substituteAll_of_frames {edits : List (Nat × Nat)} {gone : List Nat}
    (h : a.substituteAll edits gone p = .ok p') (hnone : p'.changed.frames = false) :
    edits = [] ∧ p' = p := by
  induction edits generalizing p gone with
  | nil =>
    cases h
    exact ⟨rfl, rfl⟩
  | cons e edits ih =>
    obtain ⟨place, q, -, hq, h⟩ := substituteAll_cons_ok h
    obtain ⟨-, rfl⟩ := ih h
    rw [(notes_substitute hq).frames_of rfl] at hnone
    cases hnone

/-- An application after which frames are not stale has inserted parameters, at most. Reorders that
it went through undo each other. -/
theorem run_of_frames (h : a.run f b = .ok p') (hnone : p'.changed.frames = false) :
    f.replacements = [] ∧ f.substitutions = [] ∧ f.removals = [] ∧ f.inlines = [] ∧
    ∃ before p order, SlotTable.ofSignature a.widths b.signature = .ok before ∧
      a.insertAll f.insertions { body := b, table := before } = .ok p ∧
      orderOf p.body.signature.params.length f.settledReorders
        (List.range p.body.signature.params.length) = .ok order ∧
      order = List.range order.length := by
  obtain ⟨before, p1, p2, p3, p4, p5, p6, hbefore, h1, h2, h3, h4, h5, h6, rfl⟩ := run_phases h
  replace hnone : p6.changed.frames = false := by
    split at hnone <;> exact hnone
  obtain ⟨hinlines, rfl⟩ := eq_nil_of_frames (fun hq => (notes_inline hq).frames_of rfl) h6 hnone
  obtain ⟨hremovals, rfl⟩ := eq_nil_of_frames (fun hq => (notes_remove hq).frames_of rfl) h5 hnone
  obtain ⟨order, horder, h4⟩ := reorderAll_eq_ok h4
  obtain ⟨hrange, rfl⟩ : order = List.range order.length ∧ p6 = p3 := by
    refine (notes_permute h4).resolve_right ?_
    rintro ⟨-, hn⟩
    rw [hn.frames_of rfl] at hnone
    cases hnone
  obtain ⟨hsubstitutions, rfl⟩ := substituteAll_of_frames h3 hnone
  obtain ⟨hreplacements, rfl⟩ :=
    eq_nil_of_frames (fun hq => (notes_replace hq).frames_of rfl) h2 hnone
  exact ⟨hreplacements, nil_of_mergeSort hsubstitutions, nil_of_mergeSort hremovals,
    nil_of_mergeSort hinlines, before, p6, order, hbefore, h1, horder, hrange⟩

end Applier

/-! Parameters that are as they were. -/

/-- The parameters that a script leaves as they are, by their ordinals before it, and nothing in the
place of every other one. -/
def FlatScript.untouched (f : FlatScript) (n : Nat) : Except ScriptError (List (Option Nat)) :=
  f.run (fun _ => none) (fun _ _ => none) ((List.range n).map some)

/-- An ordinal stands where the parameter is that had it before. -/
def Traced (w : Widths) (params : List Parameter) (labels : List (Option Nat)) (p : Progress) :
    Prop :=
  List.Forall₂ (fun label param => ∀ k, label = some k → params[k]? = some param) labels
    p.body.signature.params ∧ SlotTable.ofSignature w p.body.signature = .ok p.table

theorem Traced.carries (a : Applier) (params : List Parameter) :
    Carries a (fun _ => none) (fun _ _ => none) (Traced a.widths params) where
  length_params h := h.1.length_eq.symm
  length_entries h := by
    rw [SlotTable.entries_length h.2, h.1.length_eq]
    exact List.length_map _
  of_code h hbody htable := by
    unfold Traced
    rw [hbody, htable]
    exact h
  insert h hindex hp := by
    obtain ⟨declared, position, -, -, -, hbody, htable⟩ := Applier.insert_eq_ok hp
    unfold Traced
    rw [hbody]
    refine ⟨forall₂_insertIdx h.1 ?_ _, htable⟩
    rintro k ⟨⟩
  replace {labels p p' index t} h hindex hp := by
    obtain ⟨entry, param, r, -, -, hr, hbody, htable⟩ := Applier.replace_eq_ok hp
    obtain ⟨code, hcode⟩ := a.exists_adaptCode entry.slot param.type t r
    rw [hcode, hr] at hbody
    unfold Traced
    rw [hbody]
    refine ⟨?_, htable⟩
    change List.Forall₂ _ _ (List.set _ _ _)
    rw [List.set_eq_modify]
    refine forall₂_modify h.1 ?_ _
    rintro _ _ - k ⟨⟩
  drop h hindex hp := by
    obtain ⟨entry, i, l, -, -, -, hbody, htable⟩ := Progress.dropParameter_eq_ok hp
    unfold Traced
    rw [hbody]
    exact ⟨forall₂_eraseIdx h.1 _, htable⟩
  permute {labels labels' p p' order} h hperm horder hp := by
    rcases Applier.permute_eq_ok hp with ⟨hrange, rfl⟩ | ⟨hbody, htable⟩
    · rw [eq_of_order_range hperm horder hrange]
      exact h
    · obtain ⟨params', hparams, hagree⟩ := forall₂_order h.1 horder
      unfold Traced
      rw [hbody]
      refine ⟨?_, htable⟩
      change List.Forall₂ _ _ (order.filterMap _)
      rw [filterMap_getElem_of_map hparams]
      exact hagree

/-- At first every parameter is as it was. -/
theorem Traced.initial {before : SlotTable}
    (h : SlotTable.ofSignature w b.signature = .ok before) :
    Traced w b.signature.params ((List.range b.signature.params.length).map some)
      { body := b, table := before } := by
  refine ⟨List.forall₂_iff_get.2 ⟨by simp, fun i hi hi' k hk => ?_⟩, h⟩
  obtain rfl : i = k := by simpa using hk
  exact List.getElem?_eq_getElem hi'

theorem filterMap_insertIdx_none (labels : List (Option Nat)) (i : Nat) :
    (labels.insertIdx i none).filterMap id = labels.filterMap id := by
  induction labels generalizing i with
  | nil => cases i <;> rfl
  | cons label labels ih =>
    cases i with
    | zero => rfl
    | succ i => rw [List.insertIdx_succ_cons, List.filterMap_cons, List.filterMap_cons, ih]

/-- Insertions leave the parameters that there are in their order. -/
theorem filterMap_run_insert {retype : ValueType → Option Nat → Option Nat}
    {edits : List (Nat × ValueType)} {labels labels' : List (Option Nat)}
    (h : Script.run (fun _ => none) retype (edits.map fun (i, t) => .insert i t) labels =
      .ok labels') : labels'.filterMap id = labels.filterMap id := by
  induction edits generalizing labels with
  | nil =>
    cases h
    rfl
  | cons e edits ih =>
    obtain ⟨mid, hstep, h⟩ := Script.run_cons_ok h
    cases hstep with
    | insert _ hindex =>
      rw [ih h, filterMap_insertIdx_none]

/-- If frames are not stale, a script does nothing but its insertions. -/
theorem Carries.run_of_frames {α : Type} {fresh : ValueType → α} {retype : ValueType → α → α}
    {I : List α → Progress → Prop} {xs : List α} (hc : Carries a fresh retype I)
    (h : ∀ before, SlotTable.ofSignature a.widths b.signature = .ok before →
      I xs { body := b, table := before }) (hp : a.run f b = .ok p')
    (hnone : p'.changed.frames = false) :
    f.run fresh retype xs = Script.run fresh retype
      ((ascendingByFirst f.insertions).map fun (i, t) => .insert i t) xs := by
  obtain ⟨hreplacements, hsubstitutions, hremovals, hinlines, before, p, order, hbefore, hinserted,
    horder, hrange⟩ := Applier.run_of_frames hp hnone
  obtain ⟨ys, hys, hI⟩ := hc.insertAll (h before hbefore) hinserted
  rw [hc.length_params hI] at horder
  obtain ⟨zs, hzs, hperm, hplaces⟩ :=
    @Applier.orderOf_run _ fresh retype _ _ _ _ _ horder (.refl _) (map_range_getElem ys)
  rw [eq_of_order_range hperm hplaces hrange] at hzs
  simp only [FlatScript.run, hys, hreplacements, hsubstitutions, hremovals, hinlines, bind,
    Except.bind, descendingByFirst, descending, List.mergeSort_nil, List.map_nil]
  simp only [FlatScript.substituteAll, Script.run, hzs]

/-- No change goes unnoticed. Signature and locals are as before if no change of the signature is
noted, and so is the code if none of the instructions is. Every parameter that a script leaves as it
is, is still there as it was, and if frames are not stale these are all parameters, in their order. -/
theorem applyFlat_notes_changes {m m' : Method} {changed : Changed}
    (h : a.applyFlat f m = (.ok changed, m')) :
    let params := m.body.signature.params
    let params' := m'.body.signature.params
    (changed.signature = false →
      m'.body.signature = m.body.signature ∧ m'.body.locals = m.body.locals) ∧
    (changed.instructions = false → m'.body.code = m.body.code) ∧
    ∃ left : List (Option Nat), f.untouched params.length = .ok left ∧
      left.length = params'.length ∧
      (∀ j k : Nat, left[j]? = some (some k) → ∃ q, params[k]? = some q ∧ params'[j]? = some q) ∧
      (changed.frames = false → left.filterMap id = List.range params.length) := by
  obtain ⟨p, hp, rfl, rfl⟩ := Applier.applyFlat_eq_ok h
  intro params params'
  have hhonest := Applier.run_honest hp
  have hinitial : ∀ before, SlotTable.ofSignature a.widths m.body.signature = .ok before →
      Traced a.widths params ((List.range params.length).map some)
        { body := m.body, table := before } := fun _ hbefore => Traced.initial hbefore
  have hcarries := Traced.carries a params
  obtain ⟨left, hleft, hagree, -⟩ := hcarries.run hinitial hp
  refine ⟨hhonest.signature, hhonest.instructions, left, hleft, hagree.length_eq, ?_,
    fun hnone => ?_⟩
  · intro j k hj
    obtain ⟨q, hq, hsame⟩ := forall₂_getElem hagree hj
    exact ⟨q, hsame k rfl, hq⟩
  · rw [hcarries.run_of_frames hinitial hp hnone] at hleft
    rw [filterMap_run_insert hleft, List.filterMap_map]
    exact List.filterMap_some

/-- A method that reads its only parameter. -/
def readOnly : Method where
  body :=
    { signature := ⟨[⟨.int, some "x", false⟩], none, true⟩
      locals := [⟨"x", .int, 0, {}⟩]
      code := [.load 0 .int, .ret] }

/-- The same method with a second parameter. -/
def readFormer : Method where
  body :=
    { signature := ⟨[⟨.int, some "x", false⟩, .generated .int "injected_1"], none, true⟩
      locals := [⟨"x", .int, 0, {}⟩, ⟨"injected_1", .int, 1, {}⟩]
      code := [.load 0 .int, .ret] }
  slots := ⟨0, [⟨0, 1⟩, ⟨1, 1⟩]⟩

theorem insert_behind : Applier.insert {} ⟨readOnly.body, ⟨0, [⟨0, 1⟩]⟩, {}⟩ 1 .int =
    .ok ⟨readFormer.body, readFormer.slots, { signature := true }⟩ := by
  have htake : Snapshot.take standardWidths readOnly.body = ⟨[⟨"x", .int, 0, 1⟩], [0]⟩ :=
    congrArg₂ Snapshot.mk (List.mergeSort_singleton ..) (List.mergeSort_singleton ..)
  have hchanges : Snapshot.changes ⟨[⟨"x", .int, 0, 1⟩], [0]⟩ standardWidths readFormer.body =
      ⟨[], [(⟨"injected_1", .int, 1, 1⟩, 1)]⟩ :=
    congrArg (Snapshot.Changes.mk _) (List.mergeSort_singleton ..)
  change (do
    let p : Progress := ⟨readFormer.body, ⟨0, [⟨0, 1⟩]⟩, {}⟩
    let snapshot := Snapshot.take standardWidths readOnly.body
    return (← (p.reconcile standardWidths snapshot).rebuild standardWidths).changedSignature) = _
  simp only [htake, Progress.reconcile, Snapshot.reconcile, Snapshot.reconcileCount, hchanges]
  rfl

theorem applyFlat_behind : Applier.applyFlat {} { insertions := [(1, .int)] } readOnly =
    (.ok ⟨true, true, false, false⟩, readFormer) := by
  have hbefore : SlotTable.ofSignature standardWidths readOnly.body.signature =
      .ok ⟨0, [⟨0, 1⟩]⟩ := rfl
  simp [Applier.applyFlat, Applier.run, hbefore, FlatScript.settledReorders, insert_behind,
    Progress.changedSlots, readFormer]

theorem applyFlat_thereAndBack : Applier.applyFlat {} { reorders := [.swap 0 1, .swap 0 1] }
    readSecond = (.ok {}, readSecond) := by
  have hbefore : SlotTable.ofSignature standardWidths readSecond.body.signature =
      .ok readSecond.slots := rfl
  let p : Progress := ⟨readSecond.body, readSecond.slots, {}⟩
  have hreorders : Applier.reorderAll {} [.swap 0 1, .swap 0 1] p = .ok p := rfl
  simp [Applier.applyFlat, Applier.run, hbefore, FlatScript.settledReorders, ascendingByFirst, p,
    hreorders]

/-- A new last parameter leaves the code and the other parameter alone, and parameters that change
places and go back are as before. -/
theorem applyFlat_notes_changes_on_behind :
    (Applier.applyFlat {} { insertions := [(1, .int)] } readOnly =
        (.ok ⟨true, true, false, false⟩, readFormer) ∧
      readFormer.body.code = readOnly.body.code ∧
      ∃ left, FlatScript.untouched { insertions := [(1, .int)] } 1 = .ok left ∧
        left.filterMap id = [0]) ∧
    ∃ m', Applier.applyFlat {} { reorders := [.swap 0 1, .swap 0 1] } readSecond = (.ok {}, m') ∧
      m'.body.signature = readSecond.body.signature ∧ m'.body.locals = readSecond.body.locals := by
  obtain ⟨-, hcode, left, hleft, -, -, horder⟩ := applyFlat_notes_changes applyFlat_behind
  obtain ⟨hsignature, -⟩ := applyFlat_notes_changes applyFlat_thereAndBack
  exact ⟨⟨applyFlat_behind, hcode rfl, left, hleft, horder rfl⟩, readSecond,
    applyFlat_thereAndBack, hsignature rfl⟩

end Reparam
