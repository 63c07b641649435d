import Reparam.Proofs.Flatten.Reordering
import Reparam.Proofs.Apply.Running
import Reparam.Proofs.Locals.Laid

/-! Parameters that become objects of another class. The calls and the adapters around their loads are
told by the position in the code as it was, so that no adapter that comes in is adapted in turn. -/
namespace Reparam

variable {code : Code} {i : Instruction} {slot k ordinal index : Nat} {old new : String}
  {loaded : Bool} {a : Applier} {p : Progress} {b : Body} {m : Method} {table : SlotTable}
  {param : Parameter} {t : ValueType}

/-- The same call on another class; what is no call stays as it is. -/
def Instruction.withOwner (owner : String) : Instruction → Instruction
  | invoke _ name descriptor => invoke owner name descriptor
  | i => i

namespace Code

/-- A load of the slot stands before a position, with no boundary in between. -/
def LoadedAt (code : Code) (slot k : Nat) : Prop :=
  ∃ j < k, code[j]?.any (·.isLoadOf slot) ∧ ∀ l < k, j < l → ¬ code[l]?.any (·.isBoundary)

instance (code : Code) (slot : Nat) : DecidablePred (code.LoadedAt slot) := fun k =>
  inferInstanceAs (Decidable (∃ j < k, code[j]?.any (·.isLoadOf slot) ∧
    ∀ l < k, j < l → ¬ code[l]?.any (·.isBoundary)))

/-- What stands for an instruction once a parameter has another class: calls on the old class that
follow a load of the parameter are on the new one. -/
def ownedAt (code : Code) (slot : Nat) (old new : String) (k : Nat) (i : Instruction) : Instruction :=
  if i.owner? = some old ∧ code.LoadedAt slot k then i.withOwner new else i

/-- An adapter stands behind a load that is not checked for null by the next instruction. -/
def adapterAt (code : Code) (slot : Nat) (adapter : Code) (k : Nat) (i : Instruction) : Code :=
  if i.isLoadOf slot ∧ ¬ code[k + 1]?.any (·.isNullCheck) then adapter else []

/-- The code around a parameter that became an object of another class, read off the code before in
one go. -/
def adapted (code : Code) (slot : Nat) (old new : String) (adapter : Code) : Code :=
  (code.mapIdx fun k i => code.ownedAt slot old new k i :: code.adapterAt slot adapter k i).flatten

theorem not_loadedAt_zero (code : Code) (slot : Nat) : ¬ code.LoadedAt slot 0 := by
  rintro ⟨j, hj, -⟩
  exact Nat.not_lt_zero j hj

theorem loadedAt_succ (hi : code[k]? = some i) : code.LoadedAt slot (k + 1) ↔
    i.isBoundary = false ∧ (code.LoadedAt slot k ∨ i.isLoadOf slot = true) := by
  constructor
  · rintro ⟨j, hj, hload, hrun⟩
    rcases Nat.lt_or_eq_of_le (Nat.le_of_lt_succ hj) with hlt | rfl
    · have hhere := hrun k (Nat.lt_succ_self k) hlt
      refine ⟨by simpa [hi] using hhere, .inl ⟨j, hlt, hload, fun l hl => ?_⟩⟩
      exact hrun l (Nat.lt_succ_of_lt hl)
    · have hload : i.isLoadOf slot = true := by simpa [hi] using hload
      refine ⟨?_, .inr hload⟩
      cases i <;> first | rfl | cases hload
  · rintro ⟨hboundary, ⟨j, hj, hload, hrun⟩ | hload⟩
    · refine ⟨j, Nat.lt_succ_of_lt hj, hload, fun l hl hjl => ?_⟩
      rcases Nat.lt_or_eq_of_le (Nat.le_of_lt_succ hl) with hlt | rfl
      · exact hrun l hlt hjl
      · simp [hi, hboundary]
    · refine ⟨k, Nat.lt_succ_self k, by simpa [hi] using hload, fun l hl hkl => ?_⟩
      omega

theorem retypeCalls_cons (slot : Nat) (old new : String) (loaded : Bool) (i : Instruction)
    (code : Code) : (retypeCalls slot old new loaded (i :: code)).2 =
      (if i.owner? = some old ∧ loaded = true then i.withOwner new else i) ::
        (retypeCalls slot old new (!i.isBoundary && (loaded || i.isLoadOf slot)) code).2 := by
  cases i with
  | invoke owner name descriptor =>
    by_cases hcall : owner = old ∧ loaded = true
    · simp [retypeCalls, Instruction.owner?, Instruction.withOwner, hcall]
    · have hother : (decide (owner = old) && loaded) = false := by simpa using hcall
      simp [retypeCalls, Instruction.owner?, hcall, hother]
  | _ => rfl

/-- The scan for calls knows at every position whether the parameter was loaded before it. -/
theorem retypeCalls_behind (pre code : Code)
    (hloaded : loaded = true ↔ (pre ++ code).LoadedAt slot pre.length) :
    (retypeCalls slot old new loaded code).2 =
      code.mapIdx fun k i => ownedAt (pre ++ code) slot old new (pre.length + k) i := by
  induction code generalizing pre loaded with
  | nil => rfl
  | cons i code ih =>
    have hsplit : pre ++ i :: code = (pre ++ [i]) ++ code := by simp
    have hi : (pre ++ i :: code)[pre.length]? = some i := by simp
    have hnext : (!i.isBoundary && (loaded || i.isLoadOf slot)) = true ↔
        ((pre ++ [i]) ++ code).LoadedAt slot (pre ++ [i]).length := by
      rw [← hsplit, List.length_append, List.length_singleton, loadedAt_succ hi, ← hloaded]
      simp
    have hshift (k : Nat) : (pre ++ [i]).length + k = pre.length + (k + 1) := by
      rw [List.length_append, List.length_singleton]
      omega
    rw [retypeCalls_cons, ih (pre ++ [i]) hnext, List.mapIdx_cons]
    simp only [← hsplit, hshift, hloaded, ownedAt, Nat.add_zero]

theorem retypeCalls_eq_mapIdx (slot : Nat) (old new : String) (code : Code) :
    (retypeCalls slot old new false code).2 = code.mapIdx (code.ownedAt slot old new) := by
  have hnone : false = true ↔ LoadedAt ([] ++ code) slot 0 := by
    simp [not_loadedAt_zero]
  simpa using retypeCalls_behind [] code hnone

theorem insertAdapters_eq_mapIdx (slot : Nat) (adapter code : Code) :
    (insertAdapters slot adapter code).2 =
      (code.mapIdx fun k i => i :: code.adapterAt slot adapter k i).flatten := by
  induction code with
  | nil => rfl
  | cons i code ih =>
    have hbare : isBareLoad slot i code = true ↔
        i.isLoadOf slot = true ∧ ¬ (i :: code)[0 + 1]?.any (·.isNullCheck) = true := by
      simp [isBareLoad, List.head?_eq_getElem?]
    rw [List.mapIdx_cons, List.flatten_cons]
    simp only [insertAdapters]
    split
    · rename_i hload
      rw [adapterAt, if_pos (hbare.1 hload), ih]
      rfl
    · rename_i hload
      rw [adapterAt, if_neg (mt hbare.2 hload), ih]
      rfl

theorem isLoadOf_ownedAt (code : Code) (k x : Nat) (i : Instruction) :
    (code.ownedAt slot old new k i).isLoadOf x = i.isLoadOf x := by
  unfold ownedAt
  split
  · cases i <;> rfl
  · rfl

theorem isNullCheck_ownedAt (code : Code) (k : Nat) (i : Instruction) :
    (code.ownedAt slot old new k i).isNullCheck = i.isNullCheck := by
  unfold ownedAt
  split
  · cases i <;> rfl
  · rfl

/-- Where adapters stand is not changed by new owners of calls, so that both can be read off the
code as it was. -/
theorem insertAdapters_retypeCalls (slot : Nat) (old new : String) (adapter code : Code) :
    (insertAdapters slot adapter (retypeCalls slot old new false code).2).2 =
      code.adapted slot old new adapter := by
  have hadapter (k : Nat) (i : Instruction) :
      adapterAt (code.mapIdx (code.ownedAt slot old new)) slot adapter k
        (code.ownedAt slot old new k i) = code.adapterAt slot adapter k i := by
    have hcheck : ((code.mapIdx (code.ownedAt slot old new))[k + 1]?.any (·.isNullCheck)) =
        code[k + 1]?.any (·.isNullCheck) := by
      rw [List.getElem?_mapIdx, Option.any_map]
      simp only [isNullCheck_ownedAt]
    rw [adapterAt, adapterAt, isLoadOf_ownedAt, hcheck]
  rw [retypeCalls_eq_mapIdx, insertAdapters_eq_mapIdx, List.mapIdx_mapIdx, adapted]
  simp only [Function.comp_def, hadapter]

theorem insertAdapters_nil (slot : Nat) (code : Code) : (insertAdapters slot [] code).2 = code := by
  induction code with
  | nil => rfl
  | cons i code ih =>
    simp only [insertAdapters]
    split
    · exact congrArg (i :: ·) ih
    · exact congrArg (i :: ·) ih

end Code

namespace Applier

/-- The only local at a slot is the one that gets another type. -/
theorem relabel_of_single {name : Option String}
    (h : b.locals.countP (fun l => l.slot = slot) = 1) : relabel slot name t b =
      b.locals.map fun l => if l.slot = slot then { l with type := t } else l := by
  obtain ⟨l, hl, hat⟩ := List.countP_pos_iff.1 (Nat.lt_of_lt_of_eq Nat.one_pos h.symm)
  obtain rfl : l.slot = slot := by simpa using hat
  obtain ⟨i, hi⟩ := Body.exists_localIndex hl name
  obtain ⟨l', hl', hslot⟩ := Body.localIndex_eq_some hi
  obtain ⟨pre, post, hsplit, rfl⟩ := exists_append_of_getElem? hl'
  have hothers : ∀ k ∈ pre ++ post, k.slot ≠ l.slot := by
    rw [hsplit, List.countP_append, List.countP_cons_of_pos (by simpa using hslot)] at h
    have hnone : (pre ++ post).countP (fun k => k.slot = l.slot) = 0 := by
      rw [List.countP_append]
      omega
    simpa using List.countP_eq_zero.1 hnone
  have hkeep {ks : List Local} (hks : ∀ k ∈ ks, k ∈ pre ++ post) :
      ks.map (fun k => if k.slot = l.slot then { k with type := t } else k) = ks := by
    refine (List.map_congr_left fun k hk => ?_).trans (List.map_id _)
    exact if_neg (hothers k (hks k hk))
  rw [relabel, hi, hsplit]
  dsimp only
  rw [modify_middle, List.map_append, List.map_cons, if_pos hslot,
    hkeep fun k hk => List.mem_append_left _ hk, hkeep fun k hk => List.mem_append_right _ hk]

/-- The body with another type for a parameter and its local. -/
def retypedBody (b : Body) (index slot : Nat) (param : Parameter) (t : ValueType) : Body :=
  { b with
    signature := { b.signature with
      params := b.signature.params.set index { param with type := t } }
    locals := relabel slot param.name t b }

theorem adaptCode_table (a : Applier) (slot : Nat) (old new : ValueType) (p : Progress) :
    (a.adaptCode slot old new p).table = p.table := by
  unfold adaptCode
  split
  · exact Progress.tally_table ..
  · rfl

/-- What a replacement of a parameter that is there comes to. -/
theorem replace_eq {entry : SlotEntry} (hentry : p.entry index = .ok entry)
    (hparam : p.body.signature.params[index]? = some param) : a.replace p index t = (do
      let q ← (a.adaptCode entry.slot param.type t (resize entry (a.widths t)
        { p with body := retypedBody p.body index entry.slot param t })).rebuild a.widths
      return q.changedFrames) := by
  simp only [replace, hentry, hparam]
  rfl

/-- A replacement by a type of the same width moves nothing. -/
theorem replace_of_width
    (htable : SlotTable.ofSignature a.widths p.body.signature = .ok p.table)
    (hparam : p.body.signature.params[index]? = some param)
    (hslot : p.table.slotOf? index = some slot) (hwidth : a.widths t = a.widths param.type) :
    a.replace p index t = .ok (a.adaptCode slot param.type t
      { p with body := retypedBody p.body index slot param t }).changedFrames := by
  have hentry : p.entry index = .ok ⟨slot, a.widths param.type⟩ := by
    rw [Progress.entry, SlotTable.entry_of_slotOf htable hparam hslot]
  rw [replace_eq hentry hparam, resize, if_pos hwidth]
  generalize hq : a.adaptCode slot param.type t _ = q
  have hsignature : SlotTable.ofSignature a.widths q.body.signature = .ok q.table := by
    obtain ⟨code, hcode⟩ := a.exists_adaptCode slot param.type t
      { p with body := retypedBody p.body index slot param t }
    rw [← hq, hcode, adaptCode_table]
    exact (SlotTable.ofSignature_set hparam hwidth).trans htable
  rw [Progress.rebuild, hsignature]
  rfl

/-- Without an adapter, code is adapted as with an empty one. -/
theorem adaptCode_objects (a : Applier) (slot : Nat) (old new : String) (p : Progress) :
    (a.adaptCode slot (.object old) (.object new) p).body = { p.body with
      code := p.body.code.adapted slot old new
        ((a.adapters slot (.object new) (.object old)).getD []) } := by
  rw [← Code.insertAdapters_retypeCalls]
  simp only [adaptCode, Progress.tally_body]
  cases a.adapters slot (.object new) (.object old) with
  | none => rw [Option.getD_none, Code.insertAdapters_nil]
  | some adapter => rfl

/-- A run of one replacement that leaves the table as it is. -/
theorem run_replace (htable : SlotTable.ofSignature a.widths b.signature = .ok table)
    (hp : a.replace { body := b, table } index t = .ok p) (hkeep : p.table = table) :
    a.run { replacements := [(index, t)] } b = .ok p := by
  have hend : (if p.table = table then p else p.changedSlots) = p := if_pos hkeep
  simp [run, htable, FlatScript.settledReorders, hp, hend]

/-- A parameter that becomes an object of another class changes its type, that of its local and the
code around it. -/
theorem replace_object (hwidth : a.widths (.object new) = a.widths (.object old))
    (htable : SlotTable.ofSignature a.widths b.signature = .ok table)
    (hparam : b.signature.params[index]? = some param) (htype : param.type = .object old)
    (hslot : table.slotOf? index = some slot)
    (hlocal : b.locals.countP (fun l => l.slot = slot) = 1) :
    ∃ changed, a.replace { body := b, table } index (.object new) = .ok {
      body :=
        { signature := { b.signature with
            params := b.signature.params.set index { param with type := .object new } }
          locals := b.locals.map fun l => if l.slot = slot then { l with type := .object new } else l
          code := b.code.adapted slot old new
            ((a.adapters slot (.object new) (.object old)).getD []) }
      table
      changed } := by
  rw [← htype] at hwidth
  have hreplace : a.replace { body := b, table } index (.object new) = _ :=
    replace_of_width htable hparam hslot hwidth
  generalize hq : a.adaptCode slot param.type (.object new) _ = q at hreplace
  have htable : q.table = table := by
    rw [← hq, adaptCode_table]
  have hbody := congrArg Progress.body hq
  rw [htype, adaptCode_objects, retypedBody, relabel_of_single hlocal] at hbody
  refine ⟨q.changedFrames.changed, hreplace.trans ?_⟩
  rw [← htable, Progress.changedFrames, ← hbody]

end Applier

/-- Giving a parameter the type of another class goes well and edits only the code that uses the
parameter. All of it is told by the code as it was: the calls on the old class that follow a load in
their straight-line run, and the loads that are not checked for null at once. -/
theorem apply_adapts_uses (hwidths : a.widths = standardWidths)
    (htable : SlotTable.ofSignature standardWidths m.body.signature = .ok table)
    (hparam : m.body.signature.params[ordinal]? = some param) (htype : param.type = .object old)
    (hslot : table.slotOf? ordinal = some slot)
    (hlocal : m.body.locals.countP (fun l => l.slot = slot) = 1) :
    ∃ changed, a.apply [.replace ordinal (.object new)] m = (.ok changed,
      { body :=
          { signature := { m.body.signature with
              params := m.body.signature.params.set ordinal { param with type := .object new } }
            locals := m.body.locals.map fun l =>
              if l.slot = slot then { l with type := .object new } else l
            code := m.body.code.adapted slot old new
              ((a.adapters slot (.object new) (.object old)).getD []) }
        slots := table }) := by
  rw [← hwidths] at htable
  have hwidth : a.widths (.object new) = a.widths (.object old) := by
    rw [hwidths]
    rfl
  obtain ⟨changed, hreplace⟩ :=
    Applier.replace_object hwidth htable hparam htype hslot hlocal
  have hrun := Applier.run_replace htable hreplace rfl
  have hordinal : ordinal < m.body.signature.params.length :=
    (List.getElem?_eq_some_iff.1 hparam).1
  refine ⟨changed, ?_⟩
  rw [Applier.apply, flatten_replace hordinal]
  dsimp only
  rw [Applier.applyFlat, hrun]

/-- A method that calls on its second parameter, which it checks for null in between. -/
def inquirer : Method where
  body :=
    { signature := ⟨[.unnamed .long, .named (.object "Item") "item"], none, true⟩
      locals := [⟨"count", .long, 0, {}⟩, ⟨"item", .object "Item", 2, {}⟩]
      code := [.label 0, .load 2 .reference, .invoke "Item" "id" "()V", .load 2 .reference,
        .branch .isNull 1, .line 5, .invoke "Item" "name" "()V", .label 1, .ret] }

/-- An adapter that calls on the old class itself. -/
def unstacking : Applier where
  adapters := .ofList [(.object "Stack", .object "Item", [.invoke "Item" "of" "(LStack;)LItem;"])]

/-- Only the first call is behind a load, and only the first load is adapted. The call that comes in
stays on the old class. -/
theorem apply_adapts_uses_on_inquirer :
    ∃ changed m', unstacking.apply [.replace 1 (.object "Stack")] inquirer = (.ok changed, m') ∧
      m'.body.code = [.label 0, .load 2 .reference, .invoke "Item" "of" "(LStack;)LItem;",
        .invoke "Stack" "id" "()V", .load 2 .reference, .branch .isNull 1, .line 5,
        .invoke "Item" "name" "()V", .label 1, .ret] := by
  have htable : SlotTable.ofSignature standardWidths inquirer.body.signature =
      .ok ⟨0, [⟨0, 2⟩, ⟨2, 1⟩]⟩ := rfl
  have hlocal : inquirer.body.locals.countP (fun l => l.slot = 2) = 1 := by decide
  obtain ⟨changed, h⟩ : ∃ changed,
      unstacking.apply [.replace 1 (.object "Stack")] inquirer = (.ok changed, _) :=
    apply_adapts_uses rfl htable rfl rfl rfl hlocal
  refine ⟨changed, _, h, ?_⟩
  decide

end Reparam
