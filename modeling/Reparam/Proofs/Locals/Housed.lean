import Reparam.Proofs.Apply.Following
import Reparam.Proofs.Locals.Lodged

/-! Bodies in which every parameter has its local, whatever the code is. Each change that the phases
are made of keeps them so, for any adapters and generators. -/
namespace Reparam

variable {w : Widths} {params params' front back : List (ValueType × String)}
  {q : ValueType × String} {t t' : ValueType} {name : String} {p p' : Progress}
  {receiver d index : Nat}
  {order : List Nat} {a : Applier}

namespace SlotTable

variable {s s' : Signature} {before after : SlotTable}

/-- A parameter goes where it starts among the parameters in their new order. -/
theorem destination_start (hw : ∀ t, 0 < w t) (hbefore : ofSignature w s = .ok before)
    (ht : s.types = params.map (·.1)) (hafter : ofSignature w s' = .ok after)
    (ht' : s'.types = params'.map (·.1)) (hperm : order.Perm (List.range params.length))
    (horder : order.map (params[·]?) = params'.map some) {j k : Nat} (hj : order[j]? = some k) :
    Applier.destination (Applier.movedSlots before after order)
      (s.receiverSlots + span w (params.take k)) = s'.receiverSlots + span w (params'.take j) := by
  have hk : k < params.length := List.mem_range.1 (hperm.subset (List.mem_of_getElem? hj))
  have hlength : order.length = params'.length := by
    simpa using congrArg List.length horder
  have hjlt : j < order.length := (List.getElem?_eq_some_iff.1 hj).1
  refine Applier.destination_eq (fun dest hdest => ?_) fun hne => ?_
  · obtain ⟨old, new, hnew, hsource, hdest, -⟩ := Applier.mem_movedSlots.1 hdest
    obtain ⟨hold, hsource⟩ := (slotOf_eq_some hbefore ht).1 hsource
    have hsame : k = old :=
      span_take_injective hw (Nat.le_of_lt hk) (Nat.le_of_lt hold) (by omega)
    subst hsame
    have hplace : j = new := (List.getElem?_inj hjlt (hperm.nodup_iff.2 List.nodup_range)).1
      (hj.trans hnew.symm)
    subst hplace
    exact ((slotOf_eq_some hafter ht').1 hdest).2
  · exact Applier.mem_movedSlots.2 ⟨k, j, hj, (slotOf_eq_some hbefore ht).2 ⟨hk, rfl⟩,
      (slotOf_eq_some hafter ht').2 ⟨hlength ▸ hjlt, rfl⟩, hne⟩

/-- What lies where no parameter does stays there. -/
theorem destination_elsewhere (hw : ∀ t, 0 < w t) (hbefore : ofSignature w s = .ok before)
    (ht : s.types = params.map (·.1)) {slot : Nat}
    (hslot : slot < s.receiverSlots ∨ s.receiverSlots + span w params ≤ slot) :
    Applier.destination (Applier.movedSlots before after order) slot = slot := by
  refine Applier.destination_eq (fun dest hdest => ?_) fun hne => (hne rfl).elim
  obtain ⟨old, new, -, hsource, -, -⟩ := Applier.mem_movedSlots.1 hdest
  obtain ⟨hold, rfl⟩ := (slotOf_eq_some hbefore ht).1 hsource
  have := span_take_lt hw hold (Nat.le_refl _)
  rw [List.take_length] at this
  omega

end SlotTable

/-- The table is made from the signature, and every parameter has its local. -/
structure Housed (w : Widths) (receiver : Nat) (params : List (ValueType × String))
    (p : Progress) : Prop where
  types : p.body.signature.types = params.map (·.1)
  table : SlotTable.ofSignature w p.body.signature = .ok p.table
  locals : Lodged w receiver params (Snapshot.declarations w p.body)
  receiver : p.body.signature.receiverSlots = receiver

namespace Housed

theorem entry_at (h : Housed w receiver (front ++ q :: back) p) :
    p.table.entries[front.length]? = some ⟨receiver + span w front, w q.1⟩ := by
  have hat := @SlotTable.entries_at w _ _ (front.map (·.1)) (back.map (·.1)) q.1 h.table
    (by simp [h.types])
  rwa [List.length_map, h.receiver] at hat

theorem length_params (h : Housed w receiver params p) :
    p.body.signature.params.length = params.length := by
  have := congrArg List.length h.types
  simpa [Signature.types, Parameter.types] using this

theorem length_entries (h : Housed w receiver params p) :
    p.table.entries.length = params.length := by
  rw [SlotTable.entries_length h.table, h.types, List.length_map]

theorem span_le (h : Housed w receiver params p) : receiver + span w params ≤ slotLimit := by
  have := (SlotTable.eq_of_ofSignature h.table).2
  rwa [h.types, h.receiver] at this

/-- Nothing but the signature, the locals and the table matters. -/
theorem of_code (h : Housed w receiver params p) {code : Code}
    (hbody : p'.body = { p.body with code }) (htable : p'.table = p.table) :
    Housed w receiver params p' := by
  refine ⟨?_, ?_, ?_, ?_⟩
  · rw [hbody]
    exact h.types
  · rw [hbody, htable]
    exact h.table
  · rw [hbody]
    exact h.locals
  · rw [hbody]
    exact h.receiver

/-- A parameter has a local at its slot. -/
theorem exists_localIndex (h : Housed w receiver (front ++ q :: back) p) (name : Option String) :
    ∃ i l, p.body.localIndex? (receiver + span w front) name = some i ∧
      p.body.locals[i]? = some l ∧ l.slot = receiver + span w front := by
  obtain ⟨l, hl, he⟩ := List.mem_map.1 h.locals.mem_at
  have hslot : l.slot = receiver + span w front := congrArg Declaration.slot he
  obtain ⟨i, hi⟩ := Body.exists_localIndex hl name
  rw [hslot] at hi
  obtain ⟨l', hl', hslot'⟩ := Body.localIndex_eq_some hi
  exact ⟨i, l', hi, hl', hslot'⟩

/-- The local at the slot of a parameter is the one of the parameter. Without it there is a gap. -/
theorem part (hw : ∀ t, 0 < w t) (h : Housed w receiver (front ++ q :: back) p) {i : Nat}
    {l : Local} (hl : p.body.locals[i]? = some l) (hslot : l.slot = receiver + span w front) :
    l.declaration w = ⟨q.2, q.1, receiver + span w front, w q.1⟩ ∧
      Parted w receiver front (w q.1) back
        ((p.body.locals.eraseIdx i).map (·.declaration w)) :=
  h.locals.part hw ((perm_cons_eraseIdx hl).map _) hslot

/-- An inserted parameter gets its local. -/
theorem insert (hw : ∀ t, 0 < a.widths t) (h : Housed a.widths receiver (front ++ back) p)
    (hp : a.insert p front.length t = .ok p') :
    ∃ name, Housed a.widths receiver (front ++ (t, name) :: back) p' := by
  obtain ⟨declared, position, ht, hslot, hposition, hbody, htable⟩ := Applier.insert_eq_ok hp
  have hinsertion := @SlotTable.insertionSlot_at a.widths _ _ (front.map (·.1)) (back.map (·.1))
    h.table (by simp [h.types])
  rw [List.length_map, h.receiver] at hinsertion
  have htypes : Signature.types { p.body.signature with
      params := p.body.signature.params.insertIdx front.length (.generated t declared.name) } =
      (front ++ (t, declared.name) :: back).map (·.1) := by
    rw [Signature.types_insertIdx, h.types, ← insertIdx_middle, List.map_insertIdx]
    rfl
  refine ⟨declared.name, ?_, ?_, ?_, ?_⟩
  · rw [hbody]
    exact htypes
  · rw [hbody]
    exact htable
  · rw [hbody]
    refine h.locals.insert hw ?_ (Snapshot.reconcile_added_declarations
      (Snapshot.declarations_insertIdx rfl hposition))
    rw [Local.declaration, ht, hslot, hinsertion]
    rfl
  · rw [hbody]
    exact h.receiver

/-- A dropped parameter takes its local along. -/
theorem dropParameter (hw : ∀ t, 0 < w t) (h : Housed w receiver (front ++ q :: back) p)
    (hp : p.dropParameter w front.length d = .ok p') : Housed w receiver (front ++ back) p' := by
  obtain ⟨entry, i, l, hentry, hl, hslot, hbody, htable⟩ := Progress.dropParameter_eq_ok hp
  rw [h.entry_at, Option.some.injEq] at hentry
  subst hentry
  obtain ⟨hdeclaration, hparted⟩ := h.part hw hl hslot
  refine ⟨?_, ?_, ?_, ?_⟩
  · rw [hbody]
    refine (Signature.types_eraseIdx ..).trans ?_
    rw [h.types, List.eraseIdx_map, List.eraseIdx_append_of_length_le (Nat.le_refl _), Nat.sub_self]
    rfl
  · rw [hbody]
    exact htable
  · rw [hbody, Snapshot.reconcile_removed_declarations (Snapshot.declarations_eraseIdx rfl hl)]
    exact hparted.close hw hdeclaration
  · rw [hbody]
    exact h.receiver

/-- A parameter of another type keeps its local, which gets the type as well. -/
theorem replace (hw : ∀ t, 0 < a.widths t)
    (h : Housed a.widths receiver (front ++ (t, name) :: back) p)
    (hp : a.replace p front.length t' = .ok p') :
    Housed a.widths receiver (front ++ (t', name) :: back) p' := by
  obtain ⟨entry, param, r, hentry, hparam, hr, hbody, htable⟩ := Applier.replace_eq_ok hp
  obtain ⟨code, hcode⟩ := a.exists_adaptCode entry.slot param.type t' r
  rw [hcode, hr] at hbody
  rw [h.entry_at, Option.some.injEq] at hentry
  subst hentry
  obtain ⟨i, l, hi, hl, hslot⟩ := h.exists_localIndex param.name
  obtain ⟨hdeclaration, hparted⟩ := h.part hw hl hslot
  have htypes : Signature.types { p.body.signature with
      params := p.body.signature.params.set front.length { param with type := t' } } =
      (front ++ (t', name) :: back).map (·.1) := by
    refine (Signature.types_set ..).trans ?_
    rw [h.types]
    refine (@List.map_set _ _ Prod.fst _ front.length (t', name)).symm.trans ?_
    rw [List.set_append_right _ _ (Nat.le_refl _), Nat.sub_self]
    rfl
  refine ⟨?_, ?_, ?_, ?_⟩
  · rw [hbody]
    exact htypes
  · rw [hbody]
    exact htable
  · have hnew := (SlotTable.eq_of_ofSignature htable).2
    rw [htypes] at hnew
    have hresized := hparted.resize hw h.span_le (h.receiver ▸ hnew)
    have hmodified := (perm_modify hl fun l => { l with type := t' }).map (·.declaration a.widths)
    rw [hbody]
    simp only [Applier.relabel, hi]
    refine hresized.of_perm ?_
    -- the local itself stays where it is
    have hself : ({ l with type := t' }.declaration a.widths).moved (Site.resized
        (receiver + span a.widths front + a.widths t) (a.widths t) (a.widths t')) =
        ⟨name, t', receiver + span a.widths front, a.widths t'⟩ := by
      have hwidth := hw t
      have hname : l.name = name := congrArg Declaration.name hdeclaration
      rw [Declaration.moved, Local.declaration, hslot, hname, Site.resized, if_neg (by simp; omega)]
    rw [← hself]
    refine List.Perm.trans (.of_eq ?_) (hmodified.map (Declaration.moved _))
    simp only [Snapshot.declarations, Body.remapped, List.map_map]
    rfl
  · rw [hbody]
    exact h.receiver

/-- Parameters in another order take their locals along. -/
theorem permute (hw : ∀ t, 0 < a.widths t) (h : Housed a.widths receiver params p)
    (hperm : order.Perm (List.range params.length))
    (horder : order.map (params[·]?) = params'.map some) (hp : a.permute order p = .ok p') :
    Housed a.widths receiver params' p' := by
  rcases Applier.permute_eq_ok hp with ⟨hrange, rfl⟩ | ⟨hbody, htable⟩
  · rw [eq_of_order_range hperm horder hrange]
    exact h
  · have htypes : Signature.types { p.body.signature with
        params := order.filterMap (p.body.signature.params[·]?) } = params'.map (·.1) := by
      refine Signature.types_filterMap ?_
      have hplaces := congrArg (List.map (Option.map Prod.fst)) horder
      simpa [h.types, Function.comp_def] using hplaces
    have hreceiver := h.receiver
    refine ⟨?_, ?_, ?_, ?_⟩
    · rw [hbody]
      exact htypes
    · rw [hbody]
      exact htable
    · have hdeclarations : Snapshot.declarations a.widths (Body.remapped
          (Applier.destination (Applier.movedSlots p.table p'.table order)) { p.body with
            signature := { p.body.signature with
              params := order.filterMap (p.body.signature.params[·]?) } }) =
          (Snapshot.declarations a.widths p.body).map
            (·.moved (Applier.destination (Applier.movedSlots p.table p'.table order))) := by
        simp only [Snapshot.declarations, Body.remapped, List.map_map]
        rfl
      rw [hbody, hdeclarations]
      subst hreceiver
      refine h.locals.permute hperm horder (fun j k hj => ?_) fun slot hslot => ?_
      · exact SlotTable.destination_start hw h.table h.types htable htypes hperm horder hj
      · exact SlotTable.destination_elsewhere hw h.table h.types hslot
    · rw [hbody]
      exact hreceiver

/-! The same by index. -/

theorem insertIdx (hw : ∀ t, 0 < a.widths t) (h : Housed a.widths receiver params p)
    (hindex : index ≤ params.length) (hp : a.insert p index t = .ok p') :
    ∃ name, Housed a.widths receiver (params.insertIdx index (t, name)) p' := by
  obtain ⟨front, back, rfl, rfl⟩ : ∃ front back, params = front ++ back ∧ front.length = index :=
    ⟨params.take index, params.drop index, by simp, by simpa using hindex⟩
  obtain ⟨name, hinserted⟩ := h.insert hw hp
  exact ⟨name, (insertIdx_middle front back (t, name)).symm ▸ hinserted⟩

theorem modify (hw : ∀ t, 0 < a.widths t) (h : Housed a.widths receiver params p)
    (hindex : index < params.length) (hp : a.replace p index t = .ok p') :
    Housed a.widths receiver (params.modify index fun q => (t, q.2)) p' := by
  obtain ⟨front, back, hparams, rfl⟩ :=
    exists_append_of_getElem? (List.getElem?_eq_getElem hindex)
  rw [hparams] at h ⊢
  rw [modify_middle]
  exact h.replace hw hp

theorem eraseIdx (hw : ∀ t, 0 < w t) (h : Housed w receiver params p)
    (hindex : index < params.length) (hp : p.dropParameter w index d = .ok p') :
    Housed w receiver (params.eraseIdx index) p' := by
  obtain ⟨front, back, hparams, rfl⟩ :=
    exists_append_of_getElem? (List.getElem?_eq_getElem hindex)
  rw [hparams] at h ⊢
  rw [eraseIdx_middle]
  exact h.dropParameter hw hp

/-! The body that a signature is declared with. -/

/-- The locals of parameters are laid out as the parameters are. -/
theorem declarations_parameterLocals (w : Widths) (scope : Scope) (ordinal slot : Nat)
    (ps : List Parameter) :
    let locals := Body.parameterLocals w scope ordinal slot ps
    locals.map (·.declaration w) = laid w slot (locals.map fun l => (l.type, l.name)) ∧
      locals.map (·.type) = Parameter.types ps := by
  induction ps generalizing ordinal slot with
  | nil => exact ⟨rfl, rfl⟩
  | cons param ps ih =>
    obtain ⟨hlocals, htypes⟩ := ih (ordinal + 1) (slot + w param.type)
    exact ⟨congrArg (List.cons _) hlocals, congrArg (List.cons _) htypes⟩

theorem declaring {s : Signature} {code : Code} {table : SlotTable}
    (h : SlotTable.ofSignature w s = .ok table) :
    ∃ params, Housed w s.receiverSlots params { body := Body.declaring w s code, table } := by
  let scope := (Body.outerScope? code).getD {}
  let locals := Body.parameterLocals w scope 0 s.receiverSlots s.params
  let this : Declaration :=
    ⟨"this", .object "java/lang/Object", 0, w (.object "java/lang/Object")⟩
  obtain ⟨hlocals, htypes⟩ := declarations_parameterLocals w scope 0 s.receiverSlots s.params
  refine ⟨locals.map fun l => (l.type, l.name), ?_, h,
    ⟨if s.isStatic then [] else [this], ?_, ?_⟩, rfl⟩
  · rw [List.map_map]
    exact htypes.symm
  · cases hstatic : s.isStatic
    · constructor <;> simp [this, Signature.receiverSlots, hstatic]
    · constructor <;> simp
  · rw [← hlocals, Snapshot.declarations, Body.declaring]
    cases s.isStatic
    · rw [List.map_append]
      exact List.perm_append_comm
    · exact .of_eq (List.append_nil _).symm

end Housed

end Reparam
