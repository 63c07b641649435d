import Reparam.Proofs.Apply.Shifting

/-! The three ways a parameter leaves: for another parameter, for nothing, or for generated code. Each
takes it out of the row and puts another site in the place of the parameter. -/
namespace Reparam

variable {g : Premises} {row front back : Row} {s : Site} {o o' : Origin} {t t' : ValueType}
  {σ σ' : Nat → Site} {base : Code} {p p' : Progress} {index slot generator : Nat}

theorem Code.mem_positionsOf {code : Code} :
    index ∈ code.positionsOf slot ↔ ∃ i, code[index]? = some i ∧ i.slot? = some slot := by
  simp only [positionsOf, List.mem_map, List.mem_filter, Prod.exists,
    List.mem_zipIdx_iff_getElem?, beq_iff_eq]
  constructor
  · rintro ⟨i, _, ⟨hi, hs⟩, rfl⟩
    exact ⟨i, hi, hs⟩
  · rintro ⟨i, hi, hs⟩
    exact ⟨i, index, ⟨hi, hs⟩, rfl⟩

theorem Stands.congr (h : Stands g row σ base p)
    (hσ : ∀ i ∈ base, ∀ x, i.slot? = some x → σ' x = σ x) : Stands g row σ' base p where
  types := h.types
  receiver := h.receiver
  table := h.table
  nodup := h.nodup
  fits := h.fits
  places := h.places
  code := by
    rw [h.code]
    exact (Code.placed_congr hσ).symm
  sites i hi x hx := by
    rw [hσ i hi x hx]
    exact h.sites i hi x hx

/-- Nothing but its code, its locals and its signature matters about a body, and nothing about what
was changed. -/
theorem Stands.of_code {code : Code} (h : Stands g row σ base p)
    (hbody : p'.body = { p.body with code }) (htable : p'.table = p.table)
    (hcode : code = base.placed g row σ')
    (hsites : ∀ i ∈ base, ∀ x, i.slot? = some x → (σ' x).At g row i) : Stands g row σ' base p' where
  types := by
    rw [hbody]
    exact h.types
  receiver := by
    rw [hbody]
    exact h.receiver
  table := htable.trans h.table
  nodup := h.nodup
  fits := h.fits
  places := by
    rw [hbody]
    exact h.places
  code := by rw [hbody, hcode]
  sites := hsites

/-- An entry of the table starts where the parameter does. -/
theorem Stands.entry_slot (h : Stands g row σ base p) {entry : SlotEntry} {k : Nat}
    (he : p.table.entries[k]? = some entry) (hk : row[k]? = some (o, t)) :
    entry.slot = (Site.parameter o).slot g row := by
  obtain ⟨front, back, rfl, rfl⟩ := exists_append_of_getElem? hk
  rw [h.table, Row.table, Row.entries_getElem, Option.some.injEq] at he
  subst he
  exact (Row.start_at (Row.not_mem_of_nodup h.nodup).2.2).symm

theorem mem_origins_of_getElem {k : Nat} (hk : row[k]? = some (o, t)) : o ∈ row.origins :=
  List.mem_map_of_mem (f := Prod.fst) (List.mem_of_getElem? hk)

/-- Parked references are pointed at a parameter. -/
theorem Stands.retarget (h : Stands g row σ base p) (ho : o ∈ row.origins) :
    Stands g row (fun x => Site.redirect .parked (.parameter o) (σ x)) base
      (p.retarget placeholderSlot ((Site.parameter o).slot g row)) := by
  refine h.of_code (Progress.tally_body ..) (Progress.tally_table ..) ?_ ?_
  · rw [h.code]
    refine Code.remap_placed fun i hi x hx => ?_
    exact @Site.remap_put_redirect g row _ _ _ .parked _ hx
      (Site.eq_parked (h.sites i hi x hx).1 h.fits) ⟨by simp, by simp⟩
  · intro i hi x hx
    rw [Site.redirect]
    split
    · exact ⟨ho, by simp [Site.Suits]⟩
    · exact h.sites i hi x hx

theorem Site.redirect_redirect (hs : s ≠ .parked) (o : Origin) (dest : Site) :
    redirect .parked dest (redirect (.parameter o) .parked s) = redirect (.parameter o) dest s := by
  unfold redirect
  by_cases ho : s = .parameter o
  · simp [ho]
  · simp [ho, hs]

/-! Substituting. -/

theorem Applier.substitute_eq_ok {a : Applier} {target source : Nat}
    (h : a.substitute p target source = .ok p') :
    target ≠ source ∧ ∃ q entry, p.dropParameter a.widths target placeholderSlot = .ok q ∧
      q.table.entries[if target < source then source - 1 else source]? = some entry ∧
      p' = q.retarget placeholderSlot entry.slot := by
  by_cases hne : target = source
  · simp only [substitute, if_pos hne] at h
    cases h
  · simp only [substitute, if_neg hne] at h
    obtain ⟨-, -, h⟩ := exists_of_bind h
    obtain ⟨q, hq, h⟩ := exists_of_bind h
    obtain ⟨entry, hentry, h⟩ := exists_of_bind h
    cases h
    exact ⟨hne, q, entry, hq, Progress.entry_eq_ok hentry, rfl⟩

theorem Progress.currentOrdinal_eq_ok {ordinal place : Nat} {gone : List Nat} :
    p.currentOrdinal ordinal gone = .ok place ↔ currentIndex? ordinal gone = some place := by
  unfold currentOrdinal
  cases currentIndex? ordinal gone with
  | none => exact ⟨nofun, nofun⟩
  | some index => rw [Except.ok.injEq, Option.some_inj]

theorem Progress.currentOrdinal_eq_error {ordinal : Nat} {gone : List Nat} {stopped : Stopped}
    (h : p.currentOrdinal ordinal gone = .error stopped) :
    ∃ place length, stopped.error = .ordinalOutOfRange place length := by
  unfold currentOrdinal at h
  split at h
  · cases h
  · cases h
    exact ⟨_, _, rfl⟩

theorem Applier.substituteAll_cons_ok {a : Applier} {e : Nat × Nat} {edits : List (Nat × Nat)}
    {gone : List Nat} (h : a.substituteAll (e :: edits) gone p = .ok p') :
    ∃ place q, currentIndex? e.2 gone = some place ∧ a.substitute p e.1 place = .ok q ∧
      a.substituteAll edits (e.1 :: gone) q = .ok p' := by
  obtain ⟨place, hplace, h⟩ := exists_of_bind h
  obtain ⟨q, hq, h⟩ := exists_of_bind h
  exact ⟨place, q, Progress.currentOrdinal_eq_ok.1 hplace, hq, h⟩

theorem getElem_without {α : Type} {front back : List α} {x y : α} {k : Nat}
    (hk : (front ++ x :: back)[k]? = some y) (hne : front.length ≠ k) :
    (front ++ back)[if front.length < k then k - 1 else k]? = some y := by
  have herase : (front ++ x :: back).eraseIdx front.length = front ++ back := by
    simp [List.eraseIdx_append_of_length_le]
  rw [← herase, List.getElem?_eraseIdx]
  by_cases hlt : front.length < k
  · rw [if_pos hlt, if_neg (by omega), Nat.sub_add_cancel (by omega), hk]
  · rw [if_neg hlt, if_pos (by omega), hk]

/-- Substituting lets the source stand for the target. -/
theorem Stands.substitute {source : Nat} (h : Stands g (front ++ (o, t) :: back) σ base p)
    (hp : g.applier.substitute p front.length source = .ok p')
    (hsource : (front ++ (o, t) :: back)[source]? = some (o', t')) (hσ : ∀ x, σ x ≠ .parked) :
    Stands g (front ++ back) (fun x => Site.redirect (.parameter o) (.parameter o') (σ x)) base
      p' := by
  obtain ⟨hne, q, entry, hq, hentry, rfl⟩ := Applier.substitute_eq_ok hp
  have hdropped : Stands g (front ++ back)
      (fun x => Site.redirect (.parameter o) .parked (σ x)) base q :=
    h.dropParameter hq rfl (by simp) fun _ => rfl
  have hplace := getElem_without hsource hne
  rw [hdropped.entry_slot hentry hplace]
  refine (hdropped.retarget (mem_origins_of_getElem hplace)).congr fun i _ x _ => ?_
  exact (Site.redirect_redirect (hσ x) o _).symm

/-! Removing. -/

theorem Applier.remove_eq_ok {a : Applier} (h : a.remove p index = .ok p') :
    p.dropParameter a.widths index unreachableSlot = .ok p' := by
  unfold remove at h
  obtain ⟨entry, -, h⟩ := exists_of_bind h
  dsimp only at h
  split at h
  · split at h
    · cases h
    · exact h
  · exact h

/-- What referred to a removed parameter is never reached. -/
theorem Stands.remove (h : Stands g (front ++ (o, t) :: back) σ base p)
    (hp : g.applier.remove p front.length = .ok p') :
    Stands g (front ++ back) (fun x => Site.redirect (.parameter o) .unreachable (σ x)) base p' :=
  h.dropParameter (Applier.remove_eq_ok hp) rfl (by simp) fun _ => rfl

/-! Inlining. -/

theorem Applier.inline_eq_ok {a : Applier} (h : a.inline p index generator = .ok p') :
    ∃ entry q replacement, p.table.entries[index]? = some entry ∧
      (∀ j ∈ p.body.code, j.slot? = some entry.slot →
        j.isWrite = false ∧ a.generators.generate? generator = some replacement) ∧
      p.dropParameter a.widths index placeholderSlot = .ok q ∧
      p' = expand placeholderSlot replacement q := by
  unfold inline at h
  obtain ⟨entry, hentry, h⟩ := exists_of_bind h
  dsimp only at h
  split at h
  · cases h
  · rename_i hwrites
    split at h
    · cases h
    · rename_i replacement hreplacement
      obtain ⟨q, hq, h⟩ := exists_of_bind h
      cases h
      refine ⟨entry, q, replacement, Progress.entry_eq_ok hentry, fun j hj hs => ?_, hq, rfl⟩
      obtain ⟨k, hk⟩ := List.getElem?_of_mem hj
      have hmem : k ∈ p.body.code.positionsOf entry.slot := Code.mem_positionsOf.2 ⟨j, hk, hs⟩
      have hwrite := List.find?_eq_none.1 hwrites k hmem
      have hused : (p.body.code.positionsOf entry.slot).isEmpty = false := by
        rw [List.isEmpty_eq_false_iff]
        exact List.ne_nil_of_mem hmem
      rw [hused] at hreplacement
      exact ⟨by simpa [hk] using hwrite, hreplacement⟩

/-- Generated code stands in the place of what referred to an inlined parameter. -/
theorem Stands.inline (h : Stands g (front ++ (o, t) :: back) σ base p)
    (hp : g.applier.inline p front.length generator = .ok p') (hσ : ∀ x, σ x ≠ .parked) :
    Stands g (front ++ back) (fun x => Site.redirect (.parameter o) (.generated generator) (σ x))
      base p' := by
  obtain ⟨entry, q, replacement, hentry, huses, hq, rfl⟩ := Applier.inline_eq_ok hp
  have hplace : (front ++ (o, t) :: back)[front.length]? = some (o, t) := by simp
  rw [h.entry_slot hentry hplace] at huses
  have hdropped : Stands g (front ++ back)
      (fun x => Site.redirect (.parameter o) .parked (σ x)) base q :=
    h.dropParameter hq rfl (by simp) fun _ => rfl
  -- the generator is there and its code replaces no write wherever the parameter is referred to
  have hused : ∀ i ∈ base, ∀ x, i.slot? = some x → σ x = .parameter o →
      i.isWrite = false ∧ g.applier.generators.generate? generator = some replacement := by
    intro i hi x hx ho
    have hmem : i.withSlot ((σ x).slot g (front ++ (o, t) :: back)) ∈
        base.placed g (front ++ (o, t) :: back) σ :=
      Code.withSlot_mem_placed hi hx (by simp [ho])
    rw [← h.code, ho] at hmem
    have := huses _ hmem (Instruction.slot_withSlot hx _)
    rwa [Instruction.isWrite_withSlot] at this
  refine hdropped.of_code (Progress.tally_body ..) (Progress.tally_table ..) ?_ ?_
  · rw [hdropped.code]
    refine Code.flatMap_placed fun i hi x hx => ?_
    by_cases ho : σ x = .parameter o
    · have hgenerated := (hused i hi x hx ho).2
      simp [Site.redirect, ho, Site.put, Site.slot, Instruction.slot_withSlot hx, hgenerated]
    · rw [Site.redirect, if_neg ho, Site.redirect, if_neg ho]
      by_cases hgen : ∃ k, σ x = .generated k
      · obtain ⟨k, hk⟩ := hgen
        rw [hk]
        exact Code.flatMap_plain (Site.put_generated_plain k)
      · have hne : ∀ k, σ x ≠ .generated k := fun k hk => hgen ⟨k, hk⟩
        have hin : (σ x).In g (front ++ back) := (h.sites i hi x hx).1.drop ho
        have hslot : (σ x).slot g (front ++ back) ≠ placeholderSlot :=
          fun he => hσ x (Site.eq_parked hin hdropped.fits he)
        simp [Site.put_of_ne hne, Instruction.slot_withSlot hx, hslot]
  · intro i hi x hx
    rw [Site.redirect]
    split
    · rename_i ho
      refine ⟨trivial, fun k hk => ?_⟩
      cases hk
      obtain ⟨hwrite, hgenerated⟩ := hused i hi x hx ho
      exact ⟨hwrite, by rw [hgenerated]; rfl⟩
    · rename_i ho
      exact ⟨(h.sites i hi x hx).1.drop ho, (h.sites i hi x hx).2⟩

end Reparam
