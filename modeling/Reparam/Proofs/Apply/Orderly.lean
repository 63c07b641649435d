import Reparam.Proofs.Apply.Running

/-! Bodies that a script can be applied to: every parameter has one local, and nothing else lies
where parameters do. Such a body stands for its own parameters before anything is done. -/
namespace Reparam

/-- Every parameter has just one local at its slot, of its type. The other locals and the operands of
the code belong to the receiver or lie behind the parameters, where there is room to move up by some
slots, and an operand may also be one that is never reached. -/
structure Body.Orderly (table : SlotTable) (growth : Nat) (b : Body) : Prop where
  declared : ∀ q ∈ (table.entries.map (·.slot)).zip b.signature.types,
    (b.locals.filter (·.slot = q.1)).map (·.type) = [q.2]
  locals : ∀ l ∈ b.locals, l.slot < table.receiver ∨ l.slot ∈ table.entries.map (·.slot) ∨
    table.nextFree ≤ l.slot ∧ l.slot + growth ≤ maxSlot
  operands : ∀ x ∈ b.code.filterMap (·.slot?), x < table.receiver ∨
    x ∈ table.entries.map (·.slot) ∨ table.nextFree ≤ x ∧ x + growth ≤ maxSlot ∨
    x = unreachableSlot

instance (table : SlotTable) (growth : Nat) (b : Body) : Decidable (b.Orderly table growth) :=
  decidable_of_iff (_ ∧ _ ∧ _) ⟨fun h => ⟨h.1, h.2.1, h.2.2⟩, fun h => ⟨h.1, h.2, h.3⟩⟩

/-- Every operand is somewhere, the one that is never reached behind all others. -/
theorem Body.Orderly.place {table : SlotTable} {growth x : Nat} {b : Body} {i : Instruction}
    (h : b.Orderly table growth) (hlimit : table.nextFree ≤ slotLimit) (hi : i ∈ b.code)
    (hx : i.slot? = some x) :
    x < table.receiver ∨ x ∈ table.entries.map (·.slot) ∨ table.nextFree ≤ x := by
  refine (h.operands x (List.mem_filterMap.2 ⟨i, hi, hx⟩)).imp id (.imp id ?_)
  rintro (h | rfl)
  · exact h.1
  · exact Nat.le_trans hlimit (by decide)

/-- What a slot stands for in a method with the given table. -/
def SlotTable.siteOf (table : SlotTable) (x : Nat) : Site :=
  if x < table.receiver then .receiver x
  else
    match table.ordinalAt? x with
    | some ordinal => .parameter (.reference ordinal)
    | none => if x = unreachableSlot then .unreachable else .beyond (x - table.nextFree)

namespace SlotTable

variable {table : SlotTable} {x : Nat}

theorem siteOf_ne_parked (table : SlotTable) (x : Nat) : table.siteOf x ≠ .parked := by
  unfold siteOf
  split
  · simp
  · split
    · simp
    · split <;> simp

theorem siteOf_ne_generated (table : SlotTable) (x k : Nat) : table.siteOf x ≠ .generated k := by
  unfold siteOf
  split
  · simp
  · split
    · simp
    · split <;> simp

theorem slotOf_of_ordinalAt {ordinal : Nat} (h : table.ordinalAt? x = some ordinal) :
    table.slotOf? ordinal = some x := by
  obtain ⟨hlt, hx, -⟩ := List.findIdx?_eq_some_iff_getElem.1 h
  rw [slotOf?, List.getElem?_eq_getElem hlt, Option.map_some]
  exact congrArg some (by simpa using hx)

theorem exists_slotOf {ordinal : Nat} (h : ordinal < table.entries.length) :
    ∃ x, table.slotOf? ordinal = some x :=
  ⟨_, congrArg (Option.map _) (List.getElem?_eq_getElem h)⟩

theorem ordinalAt_isSome (h : x ∈ table.entries.map (·.slot)) :
    ∃ ordinal, table.ordinalAt? x = some ordinal := by
  obtain ⟨entry, hentry, rfl⟩ := List.mem_map.1 h
  rw [← Option.isSome_iff_exists, ordinalAt?, List.findIdx?_isSome, List.any_eq_true]
  exact ⟨entry, hentry, by simp⟩

theorem slotOf_of_siteOf {ordinal : Nat} (h : table.siteOf x = .parameter (.reference ordinal)) :
    table.slotOf? ordinal = some x := by
  unfold siteOf at h
  split at h
  · cases h
  · split at h
    · rename_i hordinal
      cases h
      exact slotOf_of_ordinalAt hordinal
    · split at h <;> cases h

theorem eq_of_siteOf {ordinal : Nat} (h : table.siteOf x = .parameter (.reference ordinal)) :
    x = (table.slotOf? ordinal).getD 0 := by
  rw [slotOf_of_siteOf h, Option.getD_some]

end SlotTable

namespace Row

variable {w : Widths} {receiver : Nat} {types : List ValueType} {k x : Nat}

theorem origins_ofTypes (types : List ValueType) :
    (ofTypes types).origins = (List.range types.length).map .reference := by
  simp [ofTypes_eq_range, origins, Function.comp_def]

theorem reference_mem_ofTypes (hk : k < types.length) :
    .reference k ∈ (ofTypes types).origins := by
  rw [origins_ofTypes]
  exact List.mem_map_of_mem (List.mem_range.2 hk)

theorem types_ofTypes (types : List ValueType) : (ofTypes types).types = types := by
  simp [ofTypes, Row.types, Function.comp_def]

theorem nodup_ofTypes (types : List ValueType) : (ofTypes types).origins.Nodup := by
  rw [origins_ofTypes]
  exact List.nodup_range.map fun i j h => by simpa using h

theorem getElem_ofTypes (types : List ValueType) (k : Nat) :
    (ofTypes types)[k]? = (types[k]?).map fun t => (.reference k, t) := by
  simp [ofTypes, Function.comp_def]

theorem slotOf_ofTypes : ((ofTypes types).table w receiver).slotOf? k = some x ↔
    k < types.length ∧ start w (.reference k) receiver (ofTypes types) = x := by
  rw [slotOf_eq_some (nodup_ofTypes types)]
  simp only [getElem_ofTypes, Option.map_eq_some_iff]
  constructor
  · rintro ⟨o, t, ⟨t', ht, he⟩, rfl⟩
    cases he
    exact ⟨(List.getElem?_eq_some_iff.1 ht).1, rfl⟩
  · rintro ⟨hk, rfl⟩
    exact ⟨_, types[k], ⟨types[k], List.getElem?_eq_getElem hk, rfl⟩, rfl⟩

theorem mem_slots_ofTypes : x ∈ ((ofTypes types).table w receiver).entries.map (·.slot) ↔
    ∃ k < types.length, start w (.reference k) receiver (ofTypes types) = x := by
  rw [List.mem_iff_getElem?]
  refine exists_congr fun k => ?_
  rw [List.getElem?_map]
  exact slotOf_ofTypes

theorem map_slot_entries {row : Row} (hnodup : row.origins.Nodup) :
    (row.table w receiver).entries.map (·.slot) = row.map fun q => start w q.1 receiver row := by
  refine List.ext_getElem? fun k => Option.ext fun x => ?_
  rw [List.getElem?_map, List.getElem?_map]
  refine (slotOf_eq_some hnodup).trans ?_
  rw [Option.map_eq_some_iff, Prod.exists]

theorem map_start_eq_zip {row : Row} (hnodup : row.origins.Nodup) :
    row.map (fun q => (start w q.1 receiver row, q.2)) =
      ((row.table w receiver).entries.map (·.slot)).zip row.types := by
  rw [map_slot_entries hnodup, types, List.zip_map']

theorem nodup_slots {row : Row} (hw : ∀ t, 0 < w t) (hnodup : row.origins.Nodup) :
    ((row.table w receiver).entries.map (·.slot)).Nodup := by
  have hstarts : (row.origins.map fun o => start w o receiver row).Nodup :=
    hnodup.map_on fun o ho o' ho' h => start_injective hw ho ho' h
  rw [map_slot_entries hnodup]
  rwa [origins, List.map_map] at hstarts

/-- What the slots of an orderly body stand for. -/
theorem siteOf_cases (hw : ∀ t, 0 < w t)
    (hx : x < receiver ∨ x ∈ ((ofTypes types).table w receiver).entries.map (·.slot) ∨
      receiver + extent w (ofTypes types) ≤ x) :
    (x < receiver ∧ ((ofTypes types).table w receiver).siteOf x = .receiver x) ∨
    (∃ k < types.length, start w (.reference k) receiver (ofTypes types) = x ∧
      ((ofTypes types).table w receiver).siteOf x = .parameter (.reference k)) ∨
    (receiver + extent w (ofTypes types) ≤ x ∧ ((ofTypes types).table w receiver).siteOf x =
      if x = unreachableSlot then .unreachable
      else .beyond (x - (receiver + extent w (ofTypes types)))) := by
  have hstart (k : Nat) (hk : k < types.length) :
      receiver ≤ start w (.reference k) receiver (ofTypes types) ∧
        start w (.reference k) receiver (ofTypes types) < receiver + extent w (ofTypes types) :=
    ⟨le_start, start_lt hw (reference_mem_ofTypes hk)⟩
  by_cases hlow : x < receiver
  · exact .inl ⟨hlow, if_pos hlow⟩
  · have hsite : ((ofTypes types).table w receiver).siteOf x =
        match ((ofTypes types).table w receiver).ordinalAt? x with
        | some ordinal => .parameter (.reference ordinal)
        | none => if x = unreachableSlot then .unreachable
          else .beyond (x - ((ofTypes types).table w receiver).nextFree) := if_neg hlow
    rcases hx with hx | hx | hx
    · exact (hlow hx).elim
    · obtain ⟨k, hk⟩ := SlotTable.ordinalAt_isSome hx
      obtain ⟨hlt, hslot⟩ := slotOf_ofTypes.1 (SlotTable.slotOf_of_ordinalAt hk)
      rw [hk] at hsite
      exact .inr (.inl ⟨k, hlt, hslot, hsite⟩)
    · refine .inr (.inr ⟨hx, ?_⟩)
      cases hk : ((ofTypes types).table w receiver).ordinalAt? x with
      | none =>
        rw [hk, nextFree_table] at hsite
        exact hsite
      | some k =>
        obtain ⟨hlt, hslot⟩ := slotOf_ofTypes.1 (SlotTable.slotOf_of_ordinalAt hk)
        have := hstart k hlt
        omega

theorem siteOf_start (hw : ∀ t, 0 < w t) (hk : k < types.length) :
    ((ofTypes types).table w receiver).siteOf
      (start w (.reference k) receiver (ofTypes types)) = .parameter (.reference k) := by
  have hmem := reference_mem_ofTypes hk
  have hle : receiver ≤ start w (.reference k) receiver (ofTypes types) := le_start
  have hlt := @start_lt w receiver _ _ hw hmem
  have hslot : start w (.reference k) receiver (ofTypes types) ∈
      ((ofTypes types).table w receiver).entries.map (·.slot) := mem_slots_ofTypes.2 ⟨k, hk, rfl⟩
  rcases siteOf_cases hw (.inr (.inl hslot)) with
    ⟨hlow, -⟩ | ⟨k', hk', hsame, hsite⟩ | ⟨hhigh, -⟩
  · omega
  · rw [hsite, start_injective hw (reference_mem_ofTypes hk') hmem hsame]
  · omega

theorem siteOf_starts (hw : ∀ t, 0 < w t) (hk : k < types.length) :
    ((ofTypes types).table w receiver).siteOf
      ((((ofTypes types).table w receiver).slotOf? k).getD 0) = .parameter (.reference k) := by
  rw [slotOf_ofTypes.2 ⟨hk, rfl⟩, Option.getD_some, siteOf_start hw hk]

theorem siteOf_behind (hw : ∀ t, 0 < w t) (hx : receiver + extent w (ofTypes types) ≤ x) :
    ((ofTypes types).table w receiver).siteOf x =
      if x = unreachableSlot then .unreachable
      else .beyond (x - (receiver + extent w (ofTypes types))) := by
  rcases siteOf_cases hw (.inr (.inr hx)) with ⟨hlow, -⟩ | ⟨k, hk, hstart, -⟩ | ⟨-, hsite⟩
  · omega
  · have := @start_lt w receiver _ _ hw (reference_mem_ofTypes hk)
    omega
  · exact hsite

end Row

/-- Elements that are found once each by their first component stand apart from the others. -/
theorem perm_append_filter {β : Type} {ps qs : List (Nat × β)} (hnodup : (qs.map (·.1)).Nodup)
    (h : ∀ q ∈ qs, ps.filter (·.1 = q.1) = [q]) :
    ps.Perm (qs ++ ps.filter fun p => p.1 ∉ qs.map (·.1)) := by
  induction qs generalizing ps with
  | nil => simp
  | cons q qs ih =>
    rw [List.map_cons, List.nodup_cons] at hnodup
    have hsplit := (List.filter_append_perm (fun p : Nat × β => decide (p.1 = q.1)) ps).symm
    rw [h q List.mem_cons_self] at hsplit
    have hrest := @ih (ps.filter fun p => !decide (p.1 = q.1)) hnodup.2 fun q' hq' => by
      rw [List.filter_filter, ← h q' (List.mem_cons_of_mem _ hq')]
      refine List.filter_congr fun p _ => ?_
      have hne : q'.1 ≠ q.1 := fun he => hnodup.1 (he ▸ List.mem_map_of_mem hq')
      by_cases hp : p.1 = q'.1
      · simp [hp, hne]
      · simp [hp]
    refine hsplit.trans ((hrest.cons q).trans (.of_eq ?_))
    rw [List.filter_filter, List.cons_append]
    congr 2
    refine List.filter_congr fun p _ => ?_
    by_cases hp : p.1 = q.1 <;> simp [hp]

section

variable {g : Premises} {types : List ValueType} {x : Nat}

theorem Site.slot_siteOf (hx : x < g.receiver ∨
      x ∈ ((Row.ofTypes types).table g.applier.widths g.receiver).entries.map (·.slot) ∨
      g.receiver + Row.extent g.applier.widths (Row.ofTypes types) ≤ x) :
    (((Row.ofTypes types).table g.applier.widths g.receiver).siteOf x).slot g
      (Row.ofTypes types) = x := by
  rcases Row.siteOf_cases g.widths_pos hx with ⟨-, hsite⟩ | ⟨k, -, hstart, hsite⟩ | ⟨hhigh, hsite⟩
  · rw [hsite, slot]
  · rw [hsite, slot, hstart]
  · rw [hsite]
    split
    · rename_i he
      exact he.symm
    · rw [slot]
      omega

theorem Site.in_siteOf
    (hlimit : g.receiver + Row.extent g.applier.widths (Row.ofTypes types) ≤ slotLimit)
    (hx : x < g.receiver ∨
      x ∈ ((Row.ofTypes types).table g.applier.widths g.receiver).entries.map (·.slot) ∨
      g.receiver + Row.extent g.applier.widths (Row.ofTypes types) ≤ x ∧
        g.bound + (x - (g.receiver + Row.extent g.applier.widths (Row.ofTypes types))) ≤ maxSlot ∨
      x = unreachableSlot) :
    (((Row.ofTypes types).table g.applier.widths g.receiver).siteOf x).In g (Row.ofTypes types) := by
  have hhigh : unreachableSlot = x →
      g.receiver + Row.extent g.applier.widths (Row.ofTypes types) ≤ x := by
    rintro rfl
    exact Nat.le_trans hlimit (by decide)
  have hplace : x < g.receiver ∨
      x ∈ ((Row.ofTypes types).table g.applier.widths g.receiver).entries.map (·.slot) ∨
      g.receiver + Row.extent g.applier.widths (Row.ofTypes types) ≤ x :=
    hx.imp id (.imp id fun h => h.elim And.left fun he => hhigh he.symm)
  rcases Row.siteOf_cases g.widths_pos hplace with
    ⟨hlow, hsite⟩ | ⟨k, hk, hstart, hsite⟩ | ⟨hbehind, hsite⟩
  · rw [hsite]
    exact hlow
  · rw [hsite]
    exact Row.reference_mem_ofTypes hk
  · rw [hsite]
    split
    · trivial
    · rename_i hne
      rcases hx with hlow | hmem | ⟨-, hroom⟩ | he
      · omega
      · obtain ⟨k, hk, hstart⟩ := Row.mem_slots_ofTypes.1 hmem
        have hlt := @Row.start_lt _ g.receiver _ _ g.widths_pos (Row.reference_mem_ofTypes hk)
        omega
      · exact hroom
      · exact (hne he).elim

end

section

variable {a : Applier} {table : SlotTable} {growth : Nat} {b : Body}

/-- What stays the same while a script is applied to an orderly body. -/
def Premises.ofBody (a : Applier) (growth : Nat) (b : Body) (hw : ∀ t, 0 < a.widths t)
    (ha : ∀ slot actual expected, a.adapters slot actual expected = none)
    (hg : ∀ k code, a.generators.generate? k = some code → ∀ i ∈ code, i.slot? = none)
    (ht : SlotTable.ofSignature a.widths b.signature = .ok table) (ho : b.Orderly table growth) :
    Premises where
  applier := a
  receiver := table.receiver
  bound := table.nextFree + growth
  others := (b.locals.filter fun l => l.slot ∉ table.entries.map (·.slot)).map fun l =>
    (table.siteOf l.slot, l.type)
  widths_pos := hw
  no_adapters := ha
  plain := hg
  others_kept := by
    intro q hq
    obtain ⟨l, hl, rfl⟩ := List.mem_map.1 hq
    rw [List.mem_filter, decide_eq_true_eq] at hl
    obtain ⟨rfl, -⟩ := Row.ofSignature_eq_ok (Row.types_ofTypes _).symm ht
    have hlocal := ho.locals l hl.1
    simp only [Row.nextFree_table, Row.receiver_table] at hlocal ⊢
    rcases Row.siteOf_cases (x := l.slot) hw (hlocal.imp id (.imp id And.left)) with
      ⟨hlow, hsite⟩ | ⟨k, hk, hstart, -⟩ | ⟨hhigh, hsite⟩
    · exact .inl ⟨l.slot, hlow, hsite⟩
    · exact (hl.2 (Row.mem_slots_ofTypes.2 ⟨k, hk, hstart⟩)).elim
    · have hroom : l.slot + growth ≤ maxSlot := by
        rcases hlocal with hlow | hmem | ⟨-, hroom⟩
        · omega
        · exact (hl.2 hmem).elim
        · exact hroom
      have hne : l.slot ≠ unreachableSlot := by
        intro he
        rw [he] at hroom
        exact absurd (Nat.le_trans (Nat.le_add_right _ _) hroom) (by decide)
      rw [if_neg hne] at hsite
      exact .inr ⟨_, by omega, hsite⟩

/-- The locals of an orderly body are where they are declared. -/
theorem places_ofBody (hw : ∀ t, 0 < a.widths t)
    (ha : ∀ slot actual expected, a.adapters slot actual expected = none)
    (hg : ∀ k code, a.generators.generate? k = some code → ∀ i ∈ code, i.slot? = none)
    (ht : SlotTable.ofSignature a.widths b.signature = .ok table) (ho : b.Orderly table growth) :
    b.places.Perm ((Premises.ofBody a growth b hw ha hg ht ho).declared
      (Row.ofTypes b.signature.types)) := by
  obtain ⟨rfl, hlimit⟩ := Row.ofSignature_eq_ok (Row.types_ofTypes _).symm ht
  have hnodup := Row.nodup_ofTypes b.signature.types
  have hzip := @Row.map_start_eq_zip a.widths b.signature.receiverSlots _ hnodup
  rw [Row.types_ofTypes] at hzip
  have hslots : ((Row.ofTypes b.signature.types).map fun q =>
      (Row.start a.widths q.1 b.signature.receiverSlots (Row.ofTypes b.signature.types), q.2)).map
        (·.1) = ((Row.ofTypes b.signature.types).table a.widths
          b.signature.receiverSlots).entries.map (·.slot) := by
    rw [Row.map_slot_entries hnodup, List.map_map]
    rfl
  have hfound : ∀ q ∈ (Row.ofTypes b.signature.types).map (fun q =>
      (Row.start a.widths q.1 b.signature.receiverSlots (Row.ofTypes b.signature.types), q.2)),
      b.places.filter (·.1 = q.1) = [q] := by
    intro q hq
    rw [hzip] at hq
    obtain ⟨l, hl, ht⟩ := List.map_eq_singleton_iff.1 (ho.declared q hq)
    have hslot : l.slot = q.1 := by
      have hmem : l ∈ b.locals.filter (·.slot = q.1) := by
        rw [hl]
        exact List.mem_singleton_self l
      simpa using (List.mem_filter.1 hmem).2
    have hplaces : b.places.filter (·.1 = q.1) =
        (b.locals.filter (·.slot = q.1)).map fun l => (l.slot, l.type) := List.filter_map
    rw [hplaces, hl, List.map_singleton, hslot, ht]
  have hperm := perm_append_filter (by
    rw [hslots]
    exact Row.nodup_slots hw hnodup) hfound
  rw [hslots] at hperm
  refine hperm.trans (.of_eq ?_)
  rw [Premises.declared, Premises.sites, List.map_append, List.map_map]
  refine congrArg₂ _ rfl ?_
  -- the other locals are at the sites that their slots stand for
  change List.filter _ (b.locals.map fun l => (l.slot, l.type)) =
    List.map _ ((b.locals.filter _).map _)
  rw [List.filter_map, List.map_map]
  refine List.map_congr_left fun l hl => ?_
  have hlocal := ho.locals l (List.mem_filter.1 hl).1
  simp only [Row.nextFree_table, Row.receiver_table] at hlocal
  exact congrArg (·, l.type) (Site.slot_siteOf (hlocal.imp id (.imp id And.left))).symm

/-- An orderly body stands for its parameters. -/
theorem stands_ofBody (hw : ∀ t, 0 < a.widths t)
    (ha : ∀ slot actual expected, a.adapters slot actual expected = none)
    (hg : ∀ k code, a.generators.generate? k = some code → ∀ i ∈ code, i.slot? = none)
    (ht : SlotTable.ofSignature a.widths b.signature = .ok table) (ho : b.Orderly table growth) :
    Stands (.ofBody a growth b hw ha hg ht ho) (Row.ofTypes b.signature.types) table.siteOf b.code
      { body := b, table } := by
  have hplaces := places_ofBody hw ha hg ht ho
  have hsame := Row.ofSignature_eq_ok (Row.types_ofTypes _).symm ht
  obtain ⟨rfl, hlimit⟩ := hsame
  have hoperand {i : Instruction} {x : Nat} (hi : i ∈ b.code) (hx : i.slot? = some x) :=
    ho.operands x (List.mem_filterMap.2 ⟨i, hi, hx⟩)
  simp only [Row.nextFree_table, Row.receiver_table] at hoperand
  refine ⟨(Row.types_ofTypes _).symm, rfl, rfl, Row.nodup_ofTypes _, ⟨?_, hlimit⟩, hplaces, ?_, ?_⟩
  · change _ ≤ SlotTable.nextFree _ + growth
    rw [Row.nextFree_table]
    exact Nat.le_add_right _ _
  · refine (Code.placed_eq_self fun i hi x hx => ⟨SlotTable.siteOf_ne_generated _ x, ?_⟩).symm
    have hplace := ho.place (by rwa [Row.nextFree_table]) hi hx
    rw [Row.nextFree_table] at hplace
    exact Site.slot_siteOf hplace
  · intro i hi x hx
    refine ⟨Site.in_siteOf hlimit ((hoperand hi hx).imp id (.imp id (.imp (fun h => ?_) id))), ?_⟩
    · refine ⟨h.1, ?_⟩
      obtain ⟨hbehind, hroom⟩ := h
      change SlotTable.nextFree _ + growth + (x - (b.signature.receiverSlots +
        Row.extent a.widths (Row.ofTypes b.signature.types))) ≤ maxSlot
      rw [Row.nextFree_table]
      omega
    · exact fun k hk => (SlotTable.siteOf_ne_generated _ x k hk).elim

end

end Reparam
