import Reparam.Proofs.Locals.Stopping
import Reparam.Proofs.Apply.Orderly

/-! Well-formed bodies, said with the locals that are found at each slot. It comes to the same as
every parameter having a local of its own, so declared bodies are well-formed. -/
namespace Reparam

variable {w : Widths} {table : SlotTable} {b : Body} {params front back : List (ValueType × String)}
  {q : ValueType × String} {decls : List Declaration} {receiver next : Nat}

/-- The table is that of the signature, every parameter has just one local at its slot, of its type,
the receiver has at most one, and the other locals lie behind the parameters. -/
structure Body.WellFormed (w : Widths) (table : SlotTable) (b : Body) : Prop where
  made : SlotTable.ofSignature w b.signature = .ok table
  declared : ∀ q ∈ (table.entries.map (·.slot)).zip b.signature.types,
    (b.locals.filter (·.slot = q.1)).map (·.type) = [q.2]
  receiver : (b.locals.filter (·.slot < table.receiver)).length ≤ 1
  others : ∀ l ∈ b.locals, l.slot < table.receiver ∨ l.slot ∈ table.entries.map (·.slot) ∨
    table.nextFree ≤ l.slot

instance (w : Widths) (table : SlotTable) (b : Body) : Decidable (b.WellFormed w table) :=
  decidable_of_iff (_ ∧ _ ∧ _ ∧ _)
    ⟨fun h => ⟨h.1, h.2.1, h.2.2.1, h.2.2.2⟩, fun h => ⟨h.1, h.2, h.3, h.4⟩⟩

theorem laid_pairwise (hw : ∀ t, 0 < w t) (next : Nat) (params : List (ValueType × String)) :
    ((laid w next params).map (·.slot)).Pairwise (· < ·) := by
  induction params generalizing next with
  | nil => exact .nil
  | cons q params ih =>
    refine .cons (fun x hx => ?_) (ih (next + w q.1))
    obtain ⟨d, hd, rfl⟩ := List.mem_map.1 hx
    have hq := hw q.1
    have := (mem_laid hw hd).1
    change next < d.slot
    omega

theorem laid_nodup (hw : ∀ t, 0 < w t) (next : Nat) (params : List (ValueType × String)) :
    ((laid w next params).map (·.slot)).Nodup := (laid_pairwise hw next params).imp Nat.ne_of_lt

theorem filter_laid (hw : ∀ t, 0 < w t) {d : Declaration} (hd : d ∈ laid w next params) :
    (laid w next params).filter (·.slot = d.slot) = [d] := by
  have hnodup := laid_nodup hw next params
  obtain ⟨front, back, hsplit⟩ := List.append_of_mem hd
  rw [hsplit, List.map_append, List.map_cons, List.nodup_middle, List.nodup_cons] at hnodup
  rw [hsplit, List.filter_append, List.filter_cons_of_pos (by simp)]
  have hfront : front.filter (·.slot = d.slot) = [] := by
    refine List.filter_eq_nil_iff.2 fun d' hd' he => hnodup.1 ?_
    exact List.mem_append_left _ (List.mem_map.2 ⟨d', hd', by simpa using he⟩)
  have hback : back.filter (·.slot = d.slot) = [] := by
    refine List.filter_eq_nil_iff.2 fun d' hd' he => hnodup.1 ?_
    exact List.mem_append_right _ (List.mem_map.2 ⟨d', hd', by simpa using he⟩)
  rw [hfront, hback, List.nil_append]

/-- The local of a parameter is the only one found at its slot. -/
theorem Lodged.filter_slot (hw : ∀ t, 0 < w t) (h : Lodged w receiver params decls)
    {d : Declaration} (hd : d ∈ laid w receiver params) :
    decls.filter (·.slot = d.slot) = [d] := by
  obtain ⟨others, hothers, hdecls⟩ := h
  have hbound := mem_laid hw hd
  have hnone : others.filter (·.slot = d.slot) = [] := by
    refine List.filter_eq_nil_iff.2 fun d' hd' => ?_
    have := hothers.apart d' hd'
    simp only [decide_eq_true_eq]
    omega
  have hperm := hdecls.filter (·.slot = d.slot)
  rw [List.filter_append, hnone, filter_laid hw hd] at hperm
  exact List.perm_singleton.1 hperm

theorem Lodged.filter_receiver (hw : ∀ t, 0 < w t) (h : Lodged w receiver params decls) :
    (decls.filter (·.slot < receiver)).length ≤ 1 := by
  obtain ⟨others, hothers, hdecls⟩ := h
  have hnone : (laid w receiver params).filter (·.slot < receiver) = [] := by
    refine List.filter_eq_nil_iff.2 fun d hd => ?_
    have := mem_laid hw hd
    simp only [decide_eq_true_eq]
    omega
  have hlength := (hdecls.filter (·.slot < receiver)).length_eq
  rw [List.filter_append, hnone, List.nil_append] at hlength
  exact hlength ▸ hothers.receiver

/-- Every parameter has its own local just if it is the only one found at the slot. -/
theorem lodged_iff (hw : ∀ t, 0 < w t) : Lodged w receiver params decls ↔
    (∀ d ∈ laid w receiver params, decls.filter (·.slot = d.slot) = [d]) ∧
    (decls.filter (·.slot < receiver)).length ≤ 1 ∧
    ∀ d ∈ decls, d.slot < receiver ∨ d.slot ∈ (laid w receiver params).map (·.slot) ∨
      receiver + span w params ≤ d.slot := by
  constructor
  · intro h
    refine ⟨fun d hd => h.filter_slot hw hd, h.filter_receiver hw, fun d hd => ?_⟩
    obtain ⟨others, hothers, hdecls⟩ := h
    rcases List.mem_append.1 (hdecls.subset hd) with hm | hm
    · exact .inr (.inl (List.mem_map_of_mem hm))
    · exact (hothers.apart d hm).imp id .inr
  · rintro ⟨hfound, hreceiver, hothers⟩
    have hnodup : (((laid w receiver params).map fun d => (d.slot, d)).map (·.1)).Nodup := by
      simpa [Function.comp_def] using laid_nodup hw receiver params
    have hperm := @perm_append_filter _ (decls.map fun d => (d.slot, d)) _ hnodup (by
      intro q hq
      obtain ⟨d, hd, rfl⟩ := List.mem_map.1 hq
      rw [List.filter_map]
      exact congrArg (List.map _) (hfound d hd))
    have hdecls := hperm.map (·.2)
    rw [List.map_append, List.filter_map] at hdecls
    simp only [List.map_map, Function.comp_def, List.map_id'] at hdecls
    refine ⟨_, ⟨fun d hd => ?_, ?_⟩, hdecls⟩
    · rw [List.mem_filter] at hd
      rcases hothers d hd.1 with hlow | hm | hhigh
      · exact .inl hlow
      · exact absurd hm (by simpa using hd.2)
      · exact .inr hhigh
    · exact Nat.le_trans (List.filter_sublist.filter _).length_le hreceiver

theorem laid_names (w : Widths) (next : Nat) (params : List (ValueType × String)) :
    (laid w next params).map (·.name) = params.map (·.2) := by
  induction params generalizing next with
  | nil => rfl
  | cons q params ih => rw [laid, List.map_cons, ih, List.map_cons]

theorem laid_types (w : Widths) (next : Nat) (params : List (ValueType × String)) :
    (laid w next params).map (·.type) = params.map (·.1) := by
  induction params generalizing next with
  | nil => rfl
  | cons q params ih => rw [laid, List.map_cons, ih, List.map_cons]

theorem width_of_mem_laid {d : Declaration} (h : d ∈ laid w next params) : d.width = w d.type := by
  induction params generalizing next with
  | nil => cases h
  | cons q params ih =>
    rcases List.mem_cons.1 h with rfl | h
    · rfl
    · exact ih h

theorem SlotTable.slots_eq_laid {s : Signature} (h : ofSignature w s = .ok table)
    (ht : s.types = params.map (·.1)) :
    table.entries.map (·.slot) = (laid w s.receiverSlots params).map (·.slot) := by
  refine List.ext_getElem? fun k => Option.ext fun x => ?_
  rw [List.getElem?_map, List.getElem?_map, laid_getElem]
  refine (slotOf_eq_some h ht).trans ?_
  by_cases hk : k < params.length
  · simp [hk, eq_comm]
  · simp [hk]

theorem SlotTable.zip_types {s : Signature} (h : ofSignature w s = .ok table)
    (ht : s.types = params.map (·.1)) : (table.entries.map (·.slot)).zip s.types =
      (laid w s.receiverSlots params).map fun d => (d.slot, d.type) := by
  rw [slots_eq_laid h ht, ht, ← laid_types w s.receiverSlots, List.zip_map']

theorem filter_declarations (w : Widths) (b : Body) (p : Nat → Bool) :
    (Snapshot.declarations w b).filter (fun d => p d.slot) =
      (b.locals.filter fun l => p l.slot).map (·.declaration w) := List.filter_map

/-- The only local at the slot of a parameter is the one of the parameter. -/
theorem Housed.filter_at (hw : ∀ t, 0 < w t) {changed : Changed}
    (h : Housed w receiver params ⟨b, table, changed⟩) {d : Declaration}
    (hd : d ∈ laid w receiver params) :
    (b.locals.filter (·.slot = d.slot)).map (·.declaration w) = [d] := by
  rw [← filter_declarations w b fun slot => slot = d.slot]
  exact h.locals.filter_slot hw hd

theorem Housed.wellFormed (hw : ∀ t, 0 < w t) {changed : Changed}
    (h : Housed w receiver params ⟨b, table, changed⟩) : b.WellFormed w table := by
  have hreceiver := h.receiver
  subst hreceiver
  obtain ⟨-, hlow, hothers⟩ := (lodged_iff hw).1 h.locals
  have hslots := SlotTable.slots_eq_laid h.table h.types
  have hfree := SlotTable.nextFree_eq h.table
  refine ⟨h.table, fun q hq => ?_, ?_, fun l hl => ?_⟩
  · rw [SlotTable.zip_types h.table h.types] at hq
    obtain ⟨d, hd, rfl⟩ := List.mem_map.1 hq
    have hone := congrArg (List.map Declaration.type) (h.filter_at hw hd)
    rwa [List.map_map] at hone
  · rw [SlotTable.receiver_eq h.table]
    rw [filter_declarations w b fun slot => slot < b.signature.receiverSlots,
      List.length_map] at hlow
    exact hlow
  · rw [SlotTable.receiver_eq h.table, hslots, hfree, h.types]
    exact hothers (l.declaration w) (List.mem_map_of_mem hl)

/-- The names of the locals at a slot. -/
def Body.namesAt (b : Body) (slot : Nat) : List String :=
  (b.locals.filter (·.slot = slot)).map (·.name)

theorem Body.WellFormed.housed (hw : ∀ t, 0 < w t) (h : b.WellFormed w table) :
    ∃ params, Housed w b.signature.receiverSlots params { body := b, table } := by
  obtain ⟨names, hnames⟩ :
      ∃ names, names = table.entries.map fun e => (b.namesAt e.slot).headD "" := ⟨_, rfl⟩
  have hlength : names.length = b.signature.types.length := by
    rw [hnames, List.length_map, SlotTable.entries_length h.made]
  have htypes : b.signature.types = (b.signature.types.zip names).map (·.1) :=
    (List.map_fst_zip (Nat.le_of_eq hlength.symm)).symm
  have hslots := SlotTable.slots_eq_laid h.made htypes
  have hlaid := laid_names w b.signature.receiverSlots (b.signature.types.zip names)
  rw [List.map_snd_zip (Nat.le_of_eq hlength)] at hlaid
  have hfound := congrArg (List.map fun slot => (b.namesAt slot).headD "") hslots
  rw [List.map_map, List.map_map] at hfound
  replace hlaid := hlaid.trans (hnames.trans hfound)
  have hfree := SlotTable.nextFree_eq h.made
  rw [htypes] at hfree
  refine ⟨b.signature.types.zip names, htypes, h.made, (lodged_iff hw).2 ⟨fun d hd => ?_, ?_,
    fun d hd => ?_⟩, rfl⟩
  · have hzip : (d.slot, d.type) ∈ (table.entries.map (·.slot)).zip b.signature.types := by
      rw [SlotTable.zip_types h.made htypes]
      exact List.mem_map_of_mem hd
    obtain ⟨l, hl, htype⟩ := List.map_eq_singleton_iff.1 (h.declared _ hzip)
    have hslot : l.slot = d.slot := by
      have hm : l ∈ b.locals.filter (·.slot = d.slot) := hl ▸ List.mem_singleton_self l
      simpa using (List.mem_filter.1 hm).2
    have hname : d.name = l.name := by
      have hat : d.name = (b.namesAt d.slot).headD "" := List.map_inj_left.1 hlaid d hd
      rw [hat, Body.namesAt, hl]
      rfl
    have hl' : l.declaration w = d := by
      rw [Local.declaration, ← hname, hslot, htype, ← width_of_mem_laid hd]
    rw [filter_declarations w b fun slot => slot = d.slot, hl, List.map_cons, hl', List.map_nil]
  · rw [filter_declarations w b fun slot => slot < b.signature.receiverSlots, List.length_map,
      ← SlotTable.receiver_eq h.made]
    exact h.receiver
  · obtain ⟨l, hl, rfl⟩ := List.mem_map.1 hd
    have hplace := h.others l hl
    rw [SlotTable.receiver_eq h.made, hslots, hfree] at hplace
    exact hplace

/-- A declared body is orderly, however much its parameters grow, if its code uses only
parameters. -/
theorem Body.orderly_declaring (hw : ∀ t, 0 < w t) {signature : Signature} {code : Code}
    (h : SlotTable.ofSignature w signature = .ok table)
    (hcode : ∀ x ∈ code.filterMap (·.slot?), x ∈ table.entries.map (·.slot)) (growth : Nat) :
    (Body.declaring w signature code).Orderly table growth := by
  obtain ⟨params, hhoused⟩ := @Housed.declaring w signature code table h
  refine ⟨(hhoused.wellFormed hw).declared, fun l hl => ?_, fun x hx => .inr (.inl (hcode x hx))⟩
  rcases List.mem_append.1 hl with hl | hl
  · -- the receiver
    left
    cases hstatic : signature.isStatic with
    | true => simp [hstatic] at hl
    | false =>
      obtain rfl : l = _ := by simpa [hstatic] using hl
      simp [SlotTable.receiver_eq h, Signature.receiverSlots, hstatic]
  · right; left
    let scope := (Body.outerScope? code).getD {}
    obtain ⟨hlaid, htypes⟩ :=
      Housed.declarations_parameterLocals w scope 0 signature.receiverSlots signature.params
    have hparams : signature.types = (List.map (fun l : Local => (l.type, l.name))
        (Body.parameterLocals w scope 0 signature.receiverSlots signature.params)).map (·.1) := by
      rw [List.map_map]
      exact htypes.symm
    have hslots := congrArg (List.map Declaration.slot) hlaid
    rw [List.map_map, ← SlotTable.slots_eq_laid h hparams] at hslots
    rw [← hslots]
    exact List.mem_map_of_mem hl

end Reparam
