import Reparam.Proofs.Apply.Standing

/-! A parameter comes or goes: everything behind it moves, and the body stands for the new row. -/
namespace Reparam

variable {g : Premises} {row front back : Row} {s dest : Site} {o : Origin} {t : ValueType}
  {σ : Nat → Site} {base : Code} {p p' : Progress} {d slot : Nat}

theorem Row.types_insertIdx (front back : Row) (o : Origin) (t : ValueType) :
    (types (front ++ back)).insertIdx front.length t = types (front ++ (o, t) :: back) := by
  simpa [types] using insertIdx_middle front.types back.types t

theorem Row.types_eraseIdx (front back : Row) (o : Origin) (t : ValueType) :
    (types (front ++ (o, t) :: back)).eraseIdx front.length = types (front ++ back) := by
  simp [types, List.eraseIdx_append_of_length_le]

namespace Applier

/-- What an insertion does. -/
theorem insert_eq_ok {a : Applier} {index : Nat} (h : a.insert p index t = .ok p') :
    ∃ declared : Local, ∃ position,
      let b : Body := { p.body with
        signature := { p.body.signature with
          params := p.body.signature.params.insertIdx index (.generated t declared.name) }
        locals := p.body.locals.insertIdx position declared }
      declared.type = t ∧ declared.slot = p.table.insertionSlot index ∧
      position ≤ p.body.locals.length ∧
      p'.body = (Snapshot.take a.widths p.body).reconcile a.widths b ∧
      SlotTable.ofSignature a.widths b.signature = .ok p'.table := by
  by_cases hindex : index ≤ p.body.signature.params.length
  · simp only [insert, if_pos hindex] at h
    obtain ⟨q, hq, h⟩ := exists_of_bind h
    obtain ⟨hbody, htable⟩ := Progress.rebuild_eq_ok hq
    rw [Progress.reconcile, Progress.tally_body] at hbody htable
    cases h
    exact ⟨⟨_, t, _, p.body.methodScope⟩, _, rfl, rfl, List.findIdx_le_length, hbody, htable⟩
  · simp only [insert, if_neg hindex] at h
    cases h

end Applier

/-- The locals of a body before a parameter was inserted are where they are declared after it. -/
theorem Premises.declared_insert (hf : Row.Fits g (front ++ back)) {new : Declaration}
    (ho : o ∉ Row.origins (front ++ back)) (hfront : o ∉ front.origins)
    (hslot : new.slot = g.receiver + Row.extent g.applier.widths front)
    (hwidth : new.width = g.applier.widths t) :
    (g.declared (front ++ (o, t) :: back)).Perm
      ((new.slot, t) ::
        (g.declared (front ++ back)).map fun q => (Snapshot.moveUp q.1 new, q.2)) := by
  refine ((g.sites_perm front back o t).map _).trans (.of_eq ?_)
  have hstart : (Site.parameter o).slot g (front ++ (o, t) :: back) = new.slot :=
    (Row.start_at hfront).trans hslot.symm
  rw [List.map_cons, hstart, declared, List.map_map]
  congr 1
  refine List.map_congr_left fun q hq => ?_
  obtain ⟨hin, hfixed⟩ := g.in_of_mem_sites hq
  have hne : q.1 ≠ .parameter o := by
    intro he
    rw [he] at hin
    exact ho hin
  rw [Function.comp_apply, Site.slot_insert hin hf hne hslot hwidth, Site.settled_slot _ hin hf,
    hfixed]
  rfl

/-- Inserting a parameter brings it into the row and takes every site along. -/
theorem Stands.insert (h : Stands g (front ++ back) σ base p)
    (hp : g.applier.insert p front.length t = .ok p') (ho : o ∉ Row.origins (front ++ back))
    (hbound : g.receiver + Row.extent g.applier.widths (front ++ (o, t) :: back) ≤ g.bound) :
    Stands g (front ++ (o, t) :: back) σ base p' := by
  obtain ⟨declared, position, ht, hslot, hposition, hbody, htable⟩ := Applier.insert_eq_ok hp
  rw [h.table, Row.insertionSlot_table] at hslot
  have hnodup : (Row.origins (front ++ (o, t) :: back)).Nodup := by
    rw [(Row.origins_perm front back o t).nodup_iff]
    exact List.nodup_cons.2 ⟨ho, h.nodup⟩
  obtain ⟨-, -, hfront⟩ := Row.not_mem_of_nodup hnodup
  have htypes : Signature.types { p.body.signature with
      params := p.body.signature.params.insertIdx front.length (.generated t declared.name) } =
      Row.types (front ++ (o, t) :: back) := by
    rw [← Row.types_insertIdx, ← h.types]
    exact List.map_insertIdx ..
  obtain ⟨hfits, htable⟩ := Row.fits_of_signature htypes h.receiver htable hbound
  have hwidth : (declared.declaration g.applier.widths).width = g.applier.widths t :=
    congrArg g.applier.widths ht
  refine ⟨?_, ?_, htable, hnodup, hfits, ?_, ?_, ?_⟩
  · rw [hbody]
    exact htypes
  · rw [hbody]
    exact h.receiver
  · rw [hbody]
    refine (Snapshot.reconcile_added_places (Snapshot.declarations_insertIdx rfl hposition)).trans ?_
    refine List.Perm.trans ?_ (g.declared_insert h.fits ho hfront hslot hwidth).symm
    change List.Perm ((declared.slot, declared.type) :: _) _
    rw [ht]
    exact (h.places.map _).cons _
  · rw [hbody]
    refine (Snapshot.reconcile_added_code (Snapshot.declarations_insertIdx rfl hposition) ?_).trans ?_
    · exact fun i hi slot hslot _ => ⟨i, hi, hslot⟩
    · change p.body.code.remap _ = _
      rw [h.code]
      refine Code.remap_placed fun i hi x hx => ?_
      have hin := (h.sites i hi x hx).1
      refine Site.remap_put hx (.inl rfl) (Site.slot_insert hin h.fits ?_ hslot hwidth).symm
      intro he
      rw [he] at hin
      exact ho hin
  · exact fun i hi x hx => ⟨(h.sites i hi x hx).1.insert, (h.sites i hi x hx).2⟩

namespace Progress

/-- What dropping a parameter does. -/
theorem dropParameter_eq_ok {w : Widths} {ordinal : Nat} (h : p.dropParameter w ordinal d = .ok p') :
    ∃ entry index l,
      let b : Body := { p.body with
        signature := { p.body.signature with params := p.body.signature.params.eraseIdx ordinal }
        locals := p.body.locals.eraseIdx index
        code := p.body.code.retarget entry.slot d }
      p.table.entries[ordinal]? = some entry ∧ p.body.locals[index]? = some l ∧
      l.slot = entry.slot ∧ p'.body = (Snapshot.take w p.body).reconcile w b ∧
      SlotTable.ofSignature w b.signature = .ok p'.table := by
  unfold dropParameter at h
  obtain ⟨entry, hentry, h⟩ := exists_of_bind h
  dsimp only at h
  split at h
  · cases h
  · rename_i index hindex
    obtain ⟨l, hl, hslot⟩ := Body.localIndex_eq_some hindex
    obtain ⟨q, hq, h⟩ := exists_of_bind h
    obtain ⟨hbody, htable⟩ := rebuild_eq_ok hq
    rw [reconcile, tally_body] at hbody htable
    simp only [withoutParameter, retarget, tally_body] at hbody htable
    cases h
    exact ⟨entry, index, l, entry_eq_ok hentry, hl, hslot, hbody, htable⟩

end Progress

/-- What referred to a parameter is somewhere else when the parameter is gone. -/
theorem Site.In.redirect (hs : s.In g (front ++ (o, t) :: back)) (hfixed : dest.isFixed = true) :
    (Site.redirect (.parameter o) dest s).In g (front ++ back) := by
  rw [Site.redirect]
  split
  · cases dest with
    | unreachable => trivial
    | parked => trivial
    | generated k => trivial
    | receiver => cases hfixed
    | parameter => cases hfixed
    | beyond => cases hfixed
  · exact hs.drop ‹_›

/-- Dropping a parameter takes it out of the row. What referred to it is redirected. -/
theorem Stands.dropParameter (h : Stands g (front ++ (o, t) :: back) σ base p)
    (hp : p.dropParameter g.applier.widths front.length d = .ok p') (hfixed : dest.isFixed = true)
    (hgen : ∀ k, dest ≠ .generated k) (hd : ∀ row, dest.slot g row = d) :
    Stands g (front ++ back) (fun x => Site.redirect (.parameter o) dest (σ x)) base p' := by
  obtain ⟨entry, index, l, hentry, hl, hslot, hbody, htable⟩ := Progress.dropParameter_eq_ok hp
  rw [h.table, Row.table, Row.entries_getElem, Option.some.injEq] at hentry
  subst hentry
  simp only at hslot hbody htable
  obtain ⟨ho, hnodup, hfront⟩ := Row.not_mem_of_nodup h.nodup
  obtain ⟨ht, hrest⟩ := h.local_eq hl hslot
  have hstart : (Site.parameter o).slot g (front ++ (o, t) :: back) =
      g.receiver + Row.extent g.applier.widths front := Row.start_at hfront
  have hwidth : (l.declaration g.applier.widths).width = g.applier.widths t :=
    congrArg g.applier.widths ht
  have htypes : Signature.types { p.body.signature with
      params := p.body.signature.params.eraseIdx front.length } = Row.types (front ++ back) := by
    rw [← Row.types_eraseIdx front back o t, ← h.types]
    exact (List.eraseIdx_map ..).symm
  have hbound : g.receiver + Row.extent g.applier.widths (front ++ back) ≤ g.bound := by
    have hbound := h.fits.bound
    rw [Row.extent_append, Row.extent_cons] at hbound
    rw [Row.extent_append]
    omega
  obtain ⟨hfits, htable⟩ := Row.fits_of_signature htypes h.receiver htable hbound
  -- the sites that are left when the parameter is gone, and where the removal takes them
  have hin {s : Site} (hs : s.In g (front ++ (o, t) :: back)) :
      (Site.redirect (.parameter o) dest s).In g (front ++ back) := hs.redirect hfixed
  have moved {s : Site} (hs : s.In g (front ++ back)) : s.slot g (front ++ back) =
      Snapshot.settled (fun x => Snapshot.moveDown x (l.declaration g.applier.widths))
        (s.slot g (front ++ (o, t) :: back)) := by
    refine Site.slot_drop hs h.fits ?_ hslot hwidth
    rintro rfl
    exact ho hs
  refine ⟨?_, ?_, htable, hnodup, hfits, ?_, ?_, ?_⟩
  · rw [hbody]
    exact htypes
  · rw [hbody]
    exact h.receiver
  · rw [hbody, Snapshot.reconcile_removed_places (Snapshot.declarations_eraseIdx rfl hl)]
    refine (hrest.map _).trans (.of_eq ?_)
    rw [Premises.declared, List.map_map]
    refine List.map_congr_left fun q hq => ?_
    obtain ⟨hin, hfixed⟩ := g.in_of_mem_sites hq
    rw [moved hin, Site.settled_slot _ hin.insert h.fits, hfixed]
    rfl
  · rw [hbody]
    refine (Snapshot.reconcile_removed_code (Snapshot.declarations_eraseIdx rfl hl) ?_).trans ?_
    · intro i hi y hy hreserved
      obtain ⟨j, hj, x, hx, rfl⟩ := Code.exists_of_mem_remap hi hy
      have hdest := Site.isReserved_of_fixed g [] hfixed
      rw [hd] at hdest
      refine ⟨j, hj, hx.trans (congrArg some ?_)⟩
      by_cases he : x = g.receiver + Row.extent g.applier.widths front
      · rw [Code.redirect, if_pos he, hdest] at hreserved
        cases hreserved
      · exact (if_neg he).symm
    · change (p.body.code.remap _).remap _ = _
      rw [h.code, ← hstart, ← hd (front ++ (o, t) :: back)]
      rw [Code.remap_placed fun i hi x hx => Site.remap_put_redirect hx
        (Site.eq_parameter (h.sites i hi x hx).1 h.fits Row.mem_origins_middle) ⟨by simp, hgen⟩]
      refine Code.remap_placed fun i hi x hx => ?_
      exact Site.remap_put hx (.inl rfl) (moved (hin (h.sites i hi x hx).1)).symm
  · intro i hi x hx
    refine ⟨hin (h.sites i hi x hx).1, fun k hk => ?_⟩
    rw [Site.redirect] at hk
    split at hk
    · exact (hgen k hk).elim
    · exact (h.sites i hi x hx).2 k hk

end Reparam
