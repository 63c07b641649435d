import Reparam.Proofs.Apply.Replacing

/-! Parameters brought into another order: all their slots move at once. -/
namespace Reparam

variable {g : Premises} {row row' : Row} {s : Site} {o : Origin} {σ : Nat → Site} {base : Code}
  {p p' : Progress} {order : List Nat} {moves : List (Nat × Nat)}

namespace Applier

theorem mem_movedSlots {before after : SlotTable} {source dest : Nat} :
    (source, dest) ∈ movedSlots before after order ↔ ∃ old new, order[new]? = some old ∧
      before.slotOf? old = some source ∧ after.slotOf? new = some dest ∧ source ≠ dest := by
  simp only [movedSlots, List.mem_filterMap, Prod.exists, List.mem_zipIdx_iff_getElem?]
  constructor
  · rintro ⟨old, new, hnew, h⟩
    split at h
    · rename_i hsource hdest
      split at h
      · cases h
      · rename_i hne
        cases h
        exact ⟨old, new, hnew, hsource, hdest, hne⟩
    · cases h
  · rintro ⟨old, new, hnew, hsource, hdest, hne⟩
    refine ⟨old, new, hnew, ?_⟩
    simp only [hsource, hdest, if_neg hne]

theorem destination_eq {slot dest : Nat} (hunique : ∀ d, (slot, d) ∈ moves → d = dest)
    (hmoved : slot ≠ dest → (slot, dest) ∈ moves) : destination moves slot = dest := by
  unfold destination
  cases h : moves.reverse.lookup slot with
  | some d =>
    obtain ⟨front, back, hsplit, -⟩ := List.lookup_eq_some_iff.1 h
    refine hunique d (List.mem_reverse.1 ?_)
    simp [hsplit]
  | none =>
    by_contra hne
    have := List.lookup_eq_none_iff.1 h (slot, dest) (List.mem_reverse.2 (hmoved hne))
    simp at this

/-- What a reordering does, unless the order is the one there is. -/
theorem permute_eq_ok {a : Applier} (h : a.permute order p = .ok p') :
    (order = List.range order.length ∧ p' = p) ∨
    let b : Body := { p.body with signature := { p.body.signature with
      params := order.filterMap (p.body.signature.params[·]?) } }
    p'.body = b.remapped (destination (movedSlots p.table p'.table order)) ∧
      SlotTable.ofSignature a.widths b.signature = .ok p'.table := by
  unfold permute at h
  split at h
  · rename_i horder
    cases h
    exact .inl ⟨horder, rfl⟩
  · obtain ⟨q, hq, h⟩ := exists_of_bind h
    obtain ⟨hbody, htable⟩ := Progress.rebuild_eq_ok hq
    have hmoved : p'.body = (q.remapSlots (destination (movedSlots p.table q.table order))).body ∧
        p'.table = q.table := by
      dsimp only at h
      split at h
      · cases h
        exact ⟨rfl, Progress.remapSlots_table ..⟩
      · cases h
        exact ⟨rfl, Progress.remapSlots_table ..⟩
    rw [Progress.remapSlots_body, hbody] at hmoved
    rw [hmoved.2]
    exact .inr ⟨hmoved.1, htable⟩

end Applier

/-- The places of an order in a row, read off another row. -/
theorem Row.slotOf_eq_some {w : Widths} {receiver k start : Nat} (hnodup : row.origins.Nodup) :
    (Row.table w receiver row).slotOf? k = some start ↔
      ∃ o t, row[k]? = some (o, t) ∧ Row.start w o receiver row = start := by
  cases hk : row[k]? with
  | none =>
    have hlen : (Row.entries w receiver row).length ≤ k := by
      rw [Row.entries_length]
      exact List.getElem?_eq_none_iff.1 hk
    simp [SlotTable.slotOf?, Row.table, List.getElem?_eq_none hlen]
  | some q =>
    obtain ⟨front, back, rfl, rfl⟩ := exists_append_of_getElem? hk
    have hstart : Row.start w q.1 receiver (front ++ q :: back) = receiver + Row.extent w front :=
      Row.start_at (Row.not_mem_of_nodup hnodup).2.2
    rw [Row.slotOf_table, ← hstart]
    constructor
    · rintro ⟨rfl⟩
      exact ⟨q.1, q.2, rfl, rfl⟩
    · rintro ⟨o, t, ⟨rfl⟩, rfl⟩
      rfl

theorem filterMap_getElem_of_map {α : Type} {xs ys : List α} (h : order.map (xs[·]?) = ys.map some) :
    order.filterMap (xs[·]?) = ys := by
  have := congrArg (List.filterMap id) h
  simpa [List.filterMap_map, Function.comp_def] using this

theorem Row.types_permute {signature : Signature} (ht : signature.types = row.types)
    (horder : order.map (row[·]?) = row'.map some) :
    Signature.types { signature with params := order.filterMap (signature.params[·]?) } =
      row'.types := by
  have hat (k : Nat) : (signature.params[k]?).map (·.type) = (row[k]?).map (·.2) := by
    have := congrArg (·[k]?) ht
    simpa [Signature.types, Parameter.types, Row.types] using this
  rw [← filterMap_getElem_of_map horder]
  simp only [Signature.types, Parameter.types, Row.types, List.map_filterMap, hat]

/-- Every parameter that has another start moves there, and nothing else does. -/
theorem mem_movedSlots_table {source dest : Nat} (hnodup : row.origins.Nodup)
    (hperm : row'.Perm row) (horder : order.map (row[·]?) = row'.map some) :
    (source, dest) ∈ Applier.movedSlots (row.table g.applier.widths g.receiver)
        (row'.table g.applier.widths g.receiver) order ↔
      ∃ o ∈ row.origins, (Site.parameter o).slot g row = source ∧
        (Site.parameter o).slot g row' = dest ∧ source ≠ dest := by
  have hnodup' : row'.origins.Nodup := (hperm.map _).nodup_iff.2 hnodup
  have hplace {k : Nat} {q : Origin × ValueType} :
      row'[k]? = some q ↔ ∃ old, order[k]? = some old ∧ row[old]? = some q := by
    have := congrArg (·[k]?) horder
    simp only [List.getElem?_map] at this
    cases horderk : order[k]? <;> cases hrowk : row'[k]? <;> simp_all
  simp only [Applier.mem_movedSlots, Row.slotOf_eq_some hnodup, Row.slotOf_eq_some hnodup']
  constructor
  · rintro ⟨old, new, hnew, ⟨o, t, hold, hsource⟩, ⟨o', t', hnew', hdest⟩, hne⟩
    have hsame := hplace.2 ⟨old, hnew, hold⟩
    rw [hnew', Option.some.injEq, Prod.mk.injEq] at hsame
    rw [hsame.1] at hdest
    exact ⟨o, mem_origins_of_getElem hold, hsource, hdest, hne⟩
  · rintro ⟨o, ho, hsource, hdest, hne⟩
    obtain ⟨⟨o, t⟩, hq, rfl⟩ := List.mem_map.1 ho
    obtain ⟨new, hnew⟩ := List.getElem?_of_mem (hperm.symm.subset hq)
    obtain ⟨old, horderk, hold⟩ := hplace.1 hnew
    exact ⟨old, new, horderk, ⟨o, t, hold, hsource⟩, ⟨o, t, hnew, hdest⟩, hne⟩

theorem Site.destination_slot (hs : s.In g row) (hfits : row.Fits g) (hnodup : row.origins.Nodup)
    (hperm : row'.Perm row) (horder : order.map (row[·]?) = row'.map some) :
    Applier.destination (Applier.movedSlots (row.table g.applier.widths g.receiver)
      (row'.table g.applier.widths g.receiver) order) (s.slot g row) = s.slot g row' := by
  refine Applier.destination_eq (fun d hd => ?_) fun hne => ?_
  · obtain ⟨o, ho, hsource, hdest, -⟩ := (mem_movedSlots_table hnodup hperm horder).1 hd
    rw [Site.eq_parameter hs hfits ho hsource.symm, hdest]
  · have hextent : Row.extent g.applier.widths row' = Row.extent g.applier.widths row :=
      Row.extent_perm hperm
    cases s with
    | parameter o =>
      exact (mem_movedSlots_table hnodup hperm horder).2 ⟨o, hs, rfl, rfl, hne⟩
    | beyond distance =>
      refine (hne ?_).elim
      rw [slot, slot, hextent]
    | receiver x => exact (hne rfl).elim
    | unreachable => exact (hne rfl).elim
    | parked => exact (hne rfl).elim
    | generated k => exact (hne rfl).elim

/-- Reordering takes every site along. -/
theorem Stands.permute (h : Stands g row σ base p) (hp : g.applier.permute order p = .ok p')
    (horder : order.map (row[·]?) = row'.map some) (hperm : row'.Perm row) :
    Stands g row' σ base p' := by
  rcases Applier.permute_eq_ok hp with ⟨hrange, rfl⟩ | ⟨hbody, htable⟩
  · have hlength : order.length = row.length := by
      have := congrArg List.length horder
      rwa [List.length_map, List.length_map, hperm.length_eq] at this
    have hrow : row' = row := by
      refine List.ext_getElem? fun k => ?_
      by_cases hk : k < row.length
      · have := congrArg (·[k]?) horder
        rw [hrange, hlength] at this
        simp only [List.getElem?_map, List.getElem?_range hk, Option.map_some] at this
        obtain ⟨q, hq, hqk⟩ := Option.map_eq_some_iff.1 this.symm
        rw [hq, hqk]
      · have hlt := Nat.le_of_not_lt hk
        rw [List.getElem?_eq_none hlt, List.getElem?_eq_none (hperm.length_eq ▸ hlt)]
    rw [hrow]
    exact h
  · have htypes := Row.types_permute h.types horder
    obtain ⟨hfits, htable⟩ := Row.fits_of_signature htypes h.receiver htable
      (Row.extent_perm hperm ▸ h.fits.bound)
    rw [h.table, htable] at hbody
    have moved {s : Site} (hs : s.In g row) := Site.destination_slot hs h.fits h.nodup hperm horder
    refine ⟨?_, ?_, htable, ?_, hfits, ?_, ?_, ?_⟩
    · rw [hbody]
      exact htypes
    · rw [hbody]
      exact h.receiver
    · exact (hperm.map _).nodup_iff.2 h.nodup
    · rw [hbody, Body.remapped_places]
      refine (h.places.map _).trans ?_
      have hsites : (g.sites row').Perm (g.sites row) := (hperm.map _).append_right _
      refine List.Perm.trans (.of_eq ?_) (hsites.map _).symm
      rw [Premises.declared, List.map_map]
      refine List.map_congr_left fun q hq => ?_
      rw [Function.comp_apply, moved (g.in_of_mem_sites hq).1]
    · rw [hbody]
      change p.body.code.remap _ = _
      rw [h.code]
      refine Code.remap_placed fun i hi x hx => ?_
      exact Site.remap_put hx (.inl rfl) (moved (h.sites i hi x hx).1)
    · intro i hi x hx
      obtain ⟨hs, hsuits⟩ := h.sites i hi x hx
      refine ⟨hs.of_origins fun o ho => ?_, hsuits⟩
      rw [ho] at hs
      exact (hperm.map _).symm.subset hs

end Reparam
