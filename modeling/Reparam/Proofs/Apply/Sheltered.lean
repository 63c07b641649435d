import Reparam.Proofs.Apply.Keeping
import Reparam.Proofs.Apply.Living

/-! Code in reach never addresses the slot of references to removed parameters. What is out of reach
stays so: the code that comes in has no labels, and no instruction that control stops at goes. -/
namespace Reparam

variable {a : Applier} {p p' : Progress} {f : Nat → Nat} {x y slot : Nat} {live live' : Bool}
  {code added : Code} {i : Instruction} {new gone : Declaration}

namespace Code

/-- Code that is not jumped into and does not address a slot. -/
def Inert (x : Nat) (code : Code) : Prop := ∀ i ∈ code, i.label? = none ∧ i.slot? ≠ some x

theorem not_mem_liveSlotsFrom_cons : x ∉ liveSlotsFrom live (i :: code) ↔
    ((live || i.label?.isSome) = true → i.slot? ≠ some x) ∧
      x ∉ liveSlotsFrom ((live || i.label?.isSome) && !i.isExit) code := by
  rw [liveSlotsFrom, reachableFrom, List.zip_cons_cons, List.filterMap_cons, ← liveSlotsFrom]
  cases live || i.label?.isSome
  · simp
  · cases i.slot? with
    | none => simp
    | some y => simp [eq_comm]

/-- With less of it in reach, code addresses no more slots. -/
theorem not_mem_liveSlotsFrom_of_le (hlive : live' = true → live = true)
    (h : x ∉ liveSlotsFrom live code) : x ∉ liveSlotsFrom live' code := by
  induction code generalizing live live' with
  | nil => exact h
  | cons i code ih =>
    rw [not_mem_liveSlotsFrom_cons] at h ⊢
    refine ⟨fun hhere => h.1 ?_, ih ?_ h.2⟩
    · revert hhere hlive
      cases live' <;> simp_all
    · revert hlive
      cases live' <;> cases i.label?.isSome <;> simp_all

theorem Inert.append (hadded : added.Inert x) (h : x ∉ liveSlotsFrom live code) :
    x ∉ liveSlotsFrom live (added ++ code) := by
  induction added generalizing live with
  | nil => exact h
  | cons i added ih =>
    obtain ⟨⟨hlabel, hslot⟩, hadded⟩ := List.forall_mem_cons.1 hadded
    rw [List.cons_append, not_mem_liveSlotsFrom_cons]
    refine ⟨fun _ => hslot, ih hadded (not_mem_liveSlotsFrom_of_le ?_ h)⟩
    simp only [hlabel, Option.isSome_none, Bool.or_false, Bool.and_eq_true]
    exact And.left

theorem not_mem_liveSlots_remap (hf : ∀ y, f y = x → y = x) (h : x ∉ code.liveSlots) :
    x ∉ (code.remap f).liveSlots := by
  rw [liveSlots_remap, List.mem_map]
  rintro ⟨y, hy, he⟩
  exact h (hf y he ▸ hy)

theorem not_mem_liveSlotsFrom_insertAdapters (hadded : added.Inert x)
    (h : x ∉ liveSlotsFrom live code) :
    x ∉ liveSlotsFrom live (insertAdapters slot added code).2 := by
  induction code generalizing live with
  | nil => exact h
  | cons i code ih =>
    rw [not_mem_liveSlotsFrom_cons] at h
    simp only [insertAdapters]
    split
    · rw [List.cons_append, not_mem_liveSlotsFrom_cons]
      exact ⟨h.1, hadded.append (ih h.2)⟩
    · rw [not_mem_liveSlotsFrom_cons]
      exact ⟨h.1, ih h.2⟩

/-- An instruction with a slot is neither jumped to nor does control stop at it. -/
theorem passes_of_slot (hy : i.slot? = some y) : i.label? = none ∧ i.isExit = false := by
  cases i <;> first | exact ⟨rfl, rfl⟩ | cases hy

theorem not_mem_liveSlotsFrom_expand (hadded : added.Inert x) (h : x ∉ liveSlotsFrom live code) :
    x ∉ liveSlotsFrom live (code.flatMap fun i => if i.slot? = some slot then added else [i]) := by
  induction code generalizing live with
  | nil => exact h
  | cons i code ih =>
    rw [not_mem_liveSlotsFrom_cons] at h
    rw [List.flatMap_cons]
    split
    · rename_i hslot
      obtain ⟨hlabel, hexit⟩ := passes_of_slot hslot
      rw [hlabel, hexit, Option.isSome_none, Bool.or_false, Bool.not_false, Bool.and_true] at h
      exact hadded.append (ih h.2)
    · rw [List.singleton_append, not_mem_liveSlotsFrom_cons]
      exact ⟨h.1, ih h.2⟩

end Code

/-! Slots in reach stay far below the reserved ones. -/

theorem settled_eq_unreachable (hf : ∀ y ≤ maxSlot, f y ≤ maxSlot + slotLimit)
    (h : Snapshot.settled f y = unreachableSlot) : y = unreachableSlot := by
  unfold Snapshot.settled at h
  split at h
  · exact h
  · rename_i hy
    have hle := hf y (by simpa [isReserved] using hy)
    rw [h] at hle
    exact absurd hle (by decide)

theorem moveUp_le (hwidth : new.width ≤ slotLimit) (hy : y ≤ maxSlot) :
    Snapshot.moveUp y new ≤ maxSlot + slotLimit := by
  unfold Snapshot.moveUp
  split <;> omega

theorem moveDown_le (y : Nat) (gone : Declaration) : Snapshot.moveDown y gone ≤ y := by
  unfold Snapshot.moveDown
  split <;> omega

/-- No code in reach addresses the slot of references to removed parameters. -/
def Sheltered (p : Progress) : Prop := unreachableSlot ∉ p.body.code.liveSlots

namespace Sheltered

theorem insert {index : Nat} {t : ValueType} (h : Sheltered p) (hp : a.insert p index t = .ok p') :
    Sheltered p' := by
  obtain ⟨new, -, hwidth, hcode, -⟩ := Applier.insert_moves hp
  have hlimit : new.width ≤ slotLimit := hwidth ▸ Applier.width_of_insert hp
  rw [Sheltered, hcode]
  exact Code.not_mem_liveSlots_remap
    (fun y => settled_eq_unreachable fun y hy => moveUp_le hlimit hy) h

/-- Inserted adapters and retyped calls bring no such reference into reach. -/
theorem adaptCode {slot : Nat} {old new : ValueType}
    (ha : ∀ code, a.adapters slot new old = some code → code.Inert unreachableSlot)
    (h : Sheltered p) : Sheltered (a.adaptCode slot old new p) := by
  cases old with
  | object oldName =>
    cases new with
    | object newName =>
      have hretyped : unreachableSlot ∉
          (Code.retypeCalls slot oldName newName false p.body.code).2.liveSlots := by
        rw [Code.liveSlots,
          Code.liveSlotsFrom_alike (Code.alike_retypeCalls ..) true, List.map_id]
        exact h
      simp only [Sheltered, Applier.adaptCode, Progress.tally_body]
      cases hadapter : a.adapters slot (.object newName) (.object oldName) with
      | none => exact hretyped
      | some adapter =>
        exact Code.not_mem_liveSlotsFrom_insertAdapters (ha adapter hadapter) hretyped
    | _ => exact h
  | _ => exact h

theorem replace {index : Nat} {t : ValueType}
    (ha : ∀ slot actual expected code, a.adapters slot actual expected = some code →
      code.Inert unreachableSlot)
    (h : Sheltered p) (hp : a.replace p index t = .ok p') : Sheltered p' := by
  have hlimit := Applier.width_of_replace hp
  obtain ⟨entry, param, q, -, -, hq, hbody, -⟩ := Applier.replace_eq_ok hp
  have hresized : Sheltered q := by
    rw [Sheltered, hq]
    refine Code.not_mem_liveSlots_remap (fun y hy => ?_) h
    unfold Site.resized at hy
    split at hy
    · rename_i hle
      simp only [Bool.and_eq_true, Bool.not_eq_true', isReserved, decide_eq_false_iff_not] at hle
      have hy' : y - entry.width + a.widths t ≤ maxSlot + slotLimit := by omega
      rw [hy] at hy'
      exact absurd hy' (by decide)
    · exact hy
  rw [Sheltered, hbody]
  exact hresized.adaptCode (ha _ _ _)

theorem dropParameter {w : Widths} {index d : Nat} {entry : SlotEntry} (h : Sheltered p)
    (hd : isReserved d = true) (he : p.table.entries[index]? = some entry)
    (hunused : d = unreachableSlot → entry.slot ∉ p.body.code.liveSlots)
    (hp : p.dropParameter w index d = .ok p') : Sheltered p' := by
  obtain ⟨entry', gone, he', hcode, -, -⟩ := Progress.dropParameter_moves hd hp
  rw [he, Option.some.injEq] at he'
  subst he'
  rw [Sheltered, hcode]
  refine Code.not_mem_liveSlots_remap (fun y => settled_eq_unreachable fun y hy => ?_) ?_
  · have := moveDown_le y gone
    omega
  · rw [Code.retarget, Code.liveSlots_remap, List.mem_map]
    rintro ⟨y, hy, hto⟩
    unfold Code.redirect at hto
    split at hto
    · rename_i hslot
      exact hunused hto (hslot ▸ hy)
    · exact h (hto ▸ hy)

theorem park {w : Widths} {index : Nat} (h : Sheltered p)
    (hp : p.dropParameter w index placeholderSlot = .ok p') : Sheltered p' := by
  obtain ⟨entry, -, -, he, -⟩ := Progress.dropParameter_eq_ok hp
  exact h.dropParameter rfl he (fun hd => absurd hd (by decide)) hp

theorem substitute {target source : Nat} (h : Sheltered p)
    (hp : a.substitute p target source = .ok p') : Sheltered p' := by
  obtain ⟨-, q, entry, hq, hentry, rfl⟩ := Applier.substitute_eq_ok hp
  obtain ⟨-, -, -, -, -, htable⟩ := Progress.dropParameter_moves rfl hq
  obtain ⟨t, hslot⟩ := SlotTable.slot_add_le htable hentry
  rw [Sheltered, Progress.retarget, Progress.tally_body]
  refine Code.not_mem_liveSlots_remap (fun y hy => ?_) (h.park hq)
  unfold Code.redirect at hy
  split at hy
  · rw [hy] at hslot
    exact absurd (Nat.le_of_add_right_le hslot) (by decide)
  · exact hy

theorem permute {order : List Nat} (h : Sheltered p) (hp : a.permute order p = .ok p') : Sheltered p' := by
  rcases Applier.permute_moves hp with rfl | ⟨f, hcode, -, hf⟩
  · exact h
  · rw [Sheltered, hcode]
    refine Code.not_mem_liveSlots_remap (fun y hy => ?_) h
    rcases hf y with hsame | ⟨t, hslot⟩
    · exact hsame.symm.trans hy
    · rw [hy] at hslot
      exact absurd (Nat.le_of_add_right_le hslot) (by decide)

theorem remove {index : Nat} (hreject : a.rejectLiveRemovals = true) (h : Sheltered p)
    (hp : a.remove p index = .ok p') : Sheltered p' := by
  obtain ⟨entry, -, -, he, -⟩ := Progress.dropParameter_eq_ok (Applier.remove_eq_ok hp)
  exact h.dropParameter rfl he (fun _ => Applier.not_live_of_remove hreject he hp)
    (Applier.remove_eq_ok hp)

theorem inline {index generator : Nat}
    (hg : ∀ k code, a.generators.generate? k = some code → code.Inert unreachableSlot)
    (h : Sheltered p) (hp : a.inline p index generator = .ok p') : Sheltered p' := by
  obtain ⟨q, replacement, hq, hreplacement, rfl⟩ := Applier.inline_eq_expand hp
  have hinert : Code.Inert unreachableSlot replacement := by
    rcases hreplacement with rfl | hgenerated
    · exact List.forall_mem_nil _
    · exact hg _ _ hgenerated
  rw [Sheltered, Applier.expand, Progress.tally_body]
  exact Code.not_mem_liveSlotsFrom_expand hinert (h.park hq)

theorem keeps (hreject : a.rejectLiveRemovals = true)
    (ha : ∀ slot actual expected code, a.adapters slot actual expected = some code →
      code.Inert unreachableSlot)
    (hg : ∀ k code, a.generators.generate? k = some code → code.Inert unreachableSlot) :
    a.Keeps Sheltered where
  insert := insert
  replace := replace ha
  substitute := substitute
  permute := permute
  remove := remove hreject
  inline := inline hg

end Sheltered

theorem Code.not_mem_liveSlots_iff : x ∉ code.liveSlots ↔ ∀ (k : Nat) i, code[k]? = some i →
    code.reachable[k]? = some true → i.slot? ≠ some x := by
  rw [mem_liveSlots]
  constructor
  · intro h k i hi hlive hx
    exact h ⟨k, mem_positionsOf.2 ⟨i, hi, hx⟩, by rw [hlive]; rfl⟩
  · rintro h ⟨k, hk, hlive⟩
    obtain ⟨i, hi, hx⟩ := mem_positionsOf.1 hk
    refine h k i hi ?_ hx
    cases hk : code.reachable[k]? <;> simp_all

/-- No instruction in reach refers to a removed parameter after a script was applied, if none did
before and removals of parameters in use are refused. Code of adapters and generators may come in as
long as it brings neither labels nor such references. -/
theorem apply_avoids_unreachable {s : Script} {m m' : Method} {changed : Changed}
    (hreject : a.rejectLiveRemovals = true)
    (ha : ∀ slot actual expected code, a.adapters slot actual expected = some code →
      code.Inert unreachableSlot)
    (hg : ∀ k code, a.generators.generate? k = some code → code.Inert unreachableSlot)
    (hm : ∀ (k : Nat) i, m.body.code[k]? = some i → m.body.code.reachable[k]? = some true →
      i.slot? ≠ some unreachableSlot)
    (h : a.apply s m = (.ok changed, m')) :
    ∀ (k : Nat) i, m'.body.code[k]? = some i → m'.body.code.reachable[k]? = some true →
      i.slot? ≠ some unreachableSlot := by
  obtain ⟨f, p, -, hrun, rfl⟩ := Applier.apply_eq_ok h
  have hinitial : ∀ before, SlotTable.ofSignature a.widths m.body.signature = .ok before →
      Sheltered { body := m.body, table := before } := fun _ _ => Code.not_mem_liveSlots_iff.2 hm
  obtain ⟨p6, hsheltered, hbody, -⟩ := (Sheltered.keeps hreject ha hg).run hinitial hrun
  rw [← Code.not_mem_liveSlots_iff]
  change unreachableSlot ∉ p.body.code.liveSlots
  rw [hbody]
  exact hsheltered

/-- A method with a parameter that only code out of reach reads. -/
def skipper : Method where
  body :=
    { signature := ⟨[.unnamed .int], none, true⟩
      locals := [⟨"x", .int, 0, {}⟩]
      code := [.jump 7, .load 0 .int, .label 7, .ret] }

/-- The same method without its parameter. -/
def skipped : Method where
  body :=
    { signature := ⟨[], none, true⟩
      locals := []
      code := [.jump 7, .load unreachableSlot .int, .label 7, .ret] }

theorem remove_skip : Applier.remove {} ⟨skipper.body, ⟨0, [⟨0, 1⟩]⟩, {}⟩ 0 =
    .ok ⟨skipped.body, {}, ⟨true, false, true, true⟩⟩ := by
  have htake : Snapshot.take standardWidths skipper.body = ⟨[⟨"x", .int, 0, 1⟩], [0]⟩ :=
    congrArg₂ Snapshot.mk (List.mergeSort_singleton ..) (List.mergeSort_singleton ..)
  have hchanges : Snapshot.changes ⟨[⟨"x", .int, 0, 1⟩], [0]⟩ standardWidths skipped.body =
      ⟨[⟨"x", .int, 0, 1⟩], []⟩ := congrArg (Snapshot.Changes.mk _) List.mergeSort_nil
  change (do
    let p : Progress := ⟨skipped.body, ⟨0, [⟨0, 1⟩]⟩, ⟨false, false, true, false⟩⟩
    let snapshot := Snapshot.take standardWidths skipper.body
    return (← (p.reconcile standardWidths snapshot).rebuild standardWidths).changedFrames) = _
  simp only [htake, Progress.reconcile, Snapshot.reconcile, Snapshot.reconcileCount, hchanges]
  rfl

theorem apply_skip : Applier.apply {} [.remove 0] skipper =
    (.ok ⟨true, true, true, true⟩, skipped) := by
  have hlength : skipper.body.signature.params.length = 1 := rfl
  have hbefore : SlotTable.ofSignature standardWidths skipper.body.signature =
      .ok ⟨0, [⟨0, 1⟩]⟩ := rfl
  simp [Applier.apply, hlength, flatten_remove_zero, Applier.applyFlat, Applier.run, hbefore,
    FlatScript.settledReorders, remove_skip, Progress.changedSlots, skipped]

/-- Nothing that runs reads what is left of the parameter. -/
theorem apply_avoids_unreachable_on_skip :
    Applier.apply {} [.remove 0] skipper = (.ok ⟨true, true, true, true⟩, skipped) ∧
      ∀ (k : Nat) i, skipped.body.code[k]? = some i →
        skipped.body.code.reachable[k]? = some true → i.slot? ≠ some unreachableSlot := by
  refine ⟨apply_skip, apply_avoids_unreachable rfl ?_ ?_ ?_ apply_skip⟩
  · intro slot actual expected code h
    cases h
  · intro k code h
    cases h
  · exact Code.not_mem_liveSlots_iff.1 (by decide)

end Reparam
