import Reparam.Proofs.Apply.Rerouting

/-! The slots that code in reach addresses. A parameter can be removed just if its slot is none of
them, and which parameters those are is the same all along while a script is applied. -/
namespace Reparam

variable {f : Nat → Nat} {x index : Nat} {code code' : Code}

/-- Control goes on in the same way, and the slot is another one. -/
structure Instruction.Alike (f : Nat → Nat) (i j : Instruction) : Prop where
  label : j.label? = i.label?
  isExit : j.isExit = i.isExit
  slot : j.slot? = i.slot?.map f

theorem Instruction.alike_mapSlot (f : Nat → Nat) (i : Instruction) : i.Alike f (i.mapSlot f) := by
  cases i <;> exact ⟨rfl, rfl, rfl⟩

theorem Instruction.alike_refl (i : Instruction) : i.Alike id i := ⟨rfl, rfl, by simp⟩

namespace Code

/-- The slots that code in reach addresses, when `live` says whether its first instruction can be
fallen into. -/
def liveSlotsFrom (live : Bool) (code : Code) : List Nat :=
  (code.zip (code.reachableFrom live)).filterMap fun p => if p.2 then p.1.slot? else none

def liveSlots (code : Code) : List Nat := code.liveSlotsFrom true

theorem mem_liveSlots : x ∈ code.liveSlots ↔
    ∃ k ∈ code.positionsOf x, code.reachable[k]?.getD false = true := by
  rw [liveSlots, liveSlotsFrom, List.mem_filterMap]
  constructor
  · rintro ⟨⟨i, here⟩, hp, hx⟩
    obtain ⟨k, hk⟩ := List.getElem?_of_mem hp
    obtain ⟨hi, hhere⟩ := List.getElem?_zip_eq_some.1 hk
    cases here with
    | false => cases hx
    | true => exact ⟨k, mem_positionsOf.2 ⟨i, hi, hx⟩, by rw [reachable, hhere]; rfl⟩
  · rintro ⟨k, hk, hlive⟩
    obtain ⟨i, hi, hx⟩ := mem_positionsOf.1 hk
    cases hhere : code.reachable[k]? with
    | none =>
      rw [hhere] at hlive
      cases hlive
    | some here =>
      rw [hhere] at hlive
      obtain rfl : here = true := hlive
      exact ⟨(i, true), List.mem_of_getElem? (List.getElem?_zip_eq_some.2 ⟨hi, hhere⟩), hx⟩

theorem liveSlotsFrom_alike (h : List.Forall₂ (Instruction.Alike f) code code') (live : Bool) :
    liveSlotsFrom live code' = (liveSlotsFrom live code).map f := by
  induction h generalizing live with
  | nil => rfl
  | @cons i j code code' hij _ ih =>
    simp only [liveSlotsFrom, reachableFrom, List.zip_cons_cons, List.filterMap_cons] at ih ⊢
    rw [hij.label, hij.isExit, hij.slot, ih]
    cases live || i.label?.isSome
    · rfl
    · cases i.slot? <;> rfl

/-- Slots with other numbers are addressed from the same places. -/
theorem liveSlots_remap (f : Nat → Nat) (code : Code) :
    (code.remap f).liveSlots = code.liveSlots.map f := by
  refine liveSlotsFrom_alike ?_ true
  exact List.forall₂_map_right_iff.2 (List.forall₂_same.2 fun i _ => i.alike_mapSlot f)

theorem alike_retypeCalls (slot : Nat) (old new : String) (loaded : Bool) (code : Code) :
    List.Forall₂ (Instruction.Alike id) code (retypeCalls slot old new loaded code).2 := by
  induction code generalizing loaded with
  | nil => exact .nil
  | cons i code ih =>
    unfold retypeCalls
    cases i with
    | invoke owner name descriptor =>
      dsimp only
      split
      · exact .cons ⟨rfl, rfl, rfl⟩ (ih _)
      · exact .cons (Instruction.alike_refl _) (ih _)
    | _ => exact .cons (Instruction.alike_refl _) (ih _)

/-- Retyped code addresses the same slots. -/
theorem liveSlots_retypedFor (starts : Nat → Nat) (types : List ValueType) (code : Code)
    (t : Token) : (retypedFor starts types code t).liveSlots = code.liveSlots := by
  unfold retypedFor
  split
  · unfold retyped
    split
    · exact (liveSlotsFrom_alike (alike_retypeCalls ..) true).trans (List.map_id _)
    · rfl
  · rfl

theorem liveSlots_retypedAll (starts : Nat → Nat) (types : List ValueType) (tokens : List Token)
    (code : Code) :
    (tokens.foldl (retypedFor starts types) code).liveSlots = code.liveSlots := by
  induction tokens generalizing code with
  | nil => rfl
  | cons t tokens ih => rw [List.foldl_cons, ih, liveSlots_retypedFor]

theorem find_live_eq_none : ((code.positionsOf x).find? fun k => code.reachable[k]?.getD false) =
    none ↔ x ∉ code.liveSlots := by
  simp only [List.find?_eq_none, mem_liveSlots, not_exists, not_and]

theorem exists_of_mem_liveSlots (h : x ∈ code.liveSlots) : ∃ i ∈ code, i.slot? = some x := by
  obtain ⟨k, hk, -⟩ := mem_liveSlots.1 h
  obtain ⟨i, hi, hx⟩ := mem_positionsOf.1 hk
  exact ⟨i, List.mem_of_getElem? hi, hx⟩

end Code

variable {a : Applier} {g : Premises} {row : Row} {σ : Nat → Site} {base : Code} {p p' : Progress}
  {o : Origin} {ordinal slot position : Nat} {entry : SlotEntry} {left : Body}

/-- Removing goes well only if no code in reach uses the parameter. -/
theorem Applier.not_live_of_remove (hreject : a.rejectLiveRemovals = true)
    (he : p.table.entries[index]? = some entry) (h : a.remove p index = .ok p') :
    entry.slot ∉ p.body.code.liveSlots := by
  unfold remove at h
  obtain ⟨entry', he', h⟩ := exists_of_bind h
  rw [Progress.entry_eq_ok he', Option.some.injEq] at he
  subst he
  dsimp only at h
  split at h
  · rw [if_pos hreject] at h
    cases h
  · rename_i hnone
    exact Code.find_live_eq_none.1 hnone

theorem Progress.dropParameter_ne_unsupported {w : Widths} {dest : Nat} :
    p.dropParameter w index dest ≠ .error ⟨.unsupportedRemoval ordinal slot position, left⟩ := by
  intro h
  unfold dropParameter at h
  rcases error_of_bind h with h | ⟨entry, -, h⟩
  · unfold Progress.entry at h
    split at h <;> cases h
  · dsimp only at h
    split at h
    · cases h
    · rcases error_of_bind h with h | ⟨q, -, h⟩
      · unfold rebuild at h
        split at h <;> cases h
      · cases h

/-- And it is refused only if some does. -/
theorem Applier.live_of_remove
    (h : a.remove p index = .error ⟨.unsupportedRemoval ordinal slot position, left⟩) :
    ∃ entry, p.table.entries[index]? = some entry ∧ entry.slot ∈ p.body.code.liveSlots := by
  unfold remove at h
  rcases error_of_bind h with h | ⟨entry, he, h⟩
  · unfold Progress.entry at h
    split at h <;> cases h
  · refine ⟨entry, Progress.entry_eq_ok he, ?_⟩
    dsimp only at h
    split at h
    · rename_i hsome
      by_contra hnot
      rw [Code.find_live_eq_none.2 hnot] at hsome
      cases hsome
    · exact (Progress.dropParameter_ne_unsupported h).elim

/-- Code in reach uses a parameter if the code that is placed uses a slot that stands for it. -/
theorem Stands.mem_liveSlots (h : Stands g row σ base p) (hgen : ∀ x k, σ x ≠ .generated k)
    (ho : o ∈ row.origins) : (Site.parameter o).slot g row ∈ p.body.code.liveSlots ↔
      ∃ x ∈ base.liveSlots, σ x = .parameter o := by
  rw [h.code, Code.placed_eq_remap hgen, Code.liveSlots_remap, List.mem_map]
  constructor
  · rintro ⟨x, hx, he⟩
    obtain ⟨i, hi, hix⟩ := Code.exists_of_mem_liveSlots hx
    exact ⟨x, hx, Site.eq_parameter (h.sites i hi x hix).1 h.fits ho he⟩
  · rintro ⟨x, hx, he⟩
    exact ⟨x, hx, by rw [he]⟩

theorem Stands.entry_live (h : Stands g row σ base p) (hgen : ∀ x k, σ x ≠ .generated k)
    (he : p.table.entries[index]? = some entry) {t : ValueType} (ho : row[index]? = some (o, t)) :
    entry.slot ∈ p.body.code.liveSlots ↔ ∃ x ∈ base.liveSlots, σ x = .parameter o := by
  rw [h.entry_slot he ho]
  exact h.mem_liveSlots hgen (mem_origins_of_getElem ho)

open Tracking

variable {tr : Tracking} {types : List ValueType} {places : List Token}

theorem whenRemoved_ne_parameter (o o' : Origin) : tr.whenRemoved o ≠ some (.parameter o') := by
  simp [whenRemoved_eq_some]

/-- Removals on their way from the back, none of which took a parameter in use. -/
structure Sparing (g : Premises) (types : List ValueType) (tr : Tracking) (σ : Nat → Site)
    (base : Code) (pre post : List Token) (p : Progress) : Prop where
  partway : Partway g types (tr.fated removedFate) tr.whenRemoved σ base pre post p
  unused : ∀ t ∈ post, tr.fateOf t.origin = some .removed → ∀ x ∈ base.liveSlots,
    σ x ≠ .parameter t.origin

namespace Sparing

variable {pre post : List Token} {x : Token}

/-- A parameter that is still there is used from where it was used before any removal. -/
theorem entry_live (h : Sparing g types tr σ base (pre ++ [x]) post p)
    (hnodup : (places.map Token.origin).Nodup) (hplaces : places = pre ++ x :: post)
    (hgen : ∀ x k, σ x ≠ .generated k) (he : p.table.entries[pre.length]? = some entry) :
    entry.slot ∈ p.body.code.liveSlots ↔ ∃ i ∈ base.liveSlots, σ i = .parameter x.origin := by
  have hat : (pre.map (Token.full types) ++ x.full types ::
      (passedOver (tr.fated removedFate) post).map (Token.full types))[pre.length]? =
        some (x.full types) := by
    simp
  have hgen' : ∀ o k, tr.whenRemoved o ≠ some (.generated k) := by
    simp [whenRemoved_eq_some]
  rw [h.partway.next.entry_live (fun i k => Site.reroute_ne (hgen i k) (hgen' · k)) he hat]
  exact exists_congr fun i => and_congr_right fun _ =>
    Site.reroute_eq_parameter whenRemoved_ne_parameter (not_mem_behind hnodup hplaces)

theorem skip (h : Sparing g types tr σ base (pre ++ [x]) post p)
    (hx : tr.fated removedFate x = none) : Sparing g types tr σ base pre (x :: post) p where
  partway := h.partway.skip (fun _ => whenRemoved_eq_none) hx
  unused t ht hfate := by
    rcases List.mem_cons.1 ht with rfl | ht
    · rw [fated_removed.2 hfate] at hx
      cases hx
    · exact h.unused t ht hfate

theorem remove (h : Sparing g types tr σ base (pre ++ [x]) post p)
    (hreject : g.applier.rejectLiveRemovals = true) (hnodup : (places.map Token.origin).Nodup)
    (hplaces : places = pre ++ x :: post) (hgen : ∀ x k, σ x ≠ .generated k)
    (hx : tr.fated removedFate x = some ()) (hp : g.applier.remove p pre.length = .ok p') :
    Sparing g types tr σ base pre (x :: post) p' where
  partway := .take hx (whenRemoved_eq_some.2 ⟨fated_removed.1 hx, rfl⟩) whenRemoved_ne_parameter
    (not_mem_behind hnodup hplaces) (h.partway.next.remove (by rwa [List.length_map]))
  unused t ht hfate i hi ho := by
    rcases List.mem_cons.1 ht with rfl | ht
    · obtain ⟨entry, -, -, he, -⟩ := Progress.dropParameter_eq_ok (Applier.remove_eq_ok hp)
      refine Applier.not_live_of_remove hreject he hp ?_
      exact (h.entry_live hnodup hplaces hgen he).2 ⟨i, hi, ho⟩
    · exact h.unused t ht hfate i hi ho

end Sparing

/-- All removals go well only if no code in reach uses one of the parameters, and one of them is
refused only if some does. -/
theorem Stands.removeAll_live (hreject : g.applier.rejectLiveRemovals = true)
    (hnodup : (places.map Token.origin).Nodup) (hgen : ∀ x k, σ x ≠ .generated k)
    (h : Stands g (places.map (Token.full types)) σ base p) :
    let removals := ((located (tr.fated removedFate) 0 places).map (·.1)).reverse
    (∀ p', g.applier.removeAll removals p = .ok p' → ∀ t ∈ places,
      tr.fateOf t.origin = some .removed → ∀ x ∈ base.liveSlots, σ x ≠ .parameter t.origin) ∧
    ∀ ordinal slot position left, g.applier.removeAll removals p =
        .error ⟨.unsupportedRemoval ordinal slot position, left⟩ →
      ∃ t ∈ places, tr.fateOf t.origin = some .removed ∧
        ∃ x ∈ base.liveSlots, σ x = .parameter t.origin := by
  intro removals
  have hinitial : Sparing g types tr σ base places [] p := ⟨.of_stands h, by simp⟩
  obtain ⟨hok, herror⟩ := @foldlM_located_reverse _ _ _ _ (fun q x => g.applier.remove q x.1) _
    (Sparing g types tr σ base) _ _ (fun _ _ _ _ _ hx hI => hI.skip hx)
    (fun _ _ _ _ _ _ hxs hx hI hq => hI.remove hreject hnodup hxs hgen hx hq) hinitial
  constructor
  · intro p' hp
    rw [Applier.removeAll_located] at hp
    exact (hok p' hp).unused
  · intro ordinal slot position left hp
    rw [Applier.removeAll_located] at hp
    obtain ⟨pre, x, post, y, q, hxs, hx, hI, hq⟩ := herror _ hp
    obtain ⟨entry, he, hlive⟩ := Applier.live_of_remove hq
    exact ⟨x, by simp [hxs], fated_removed.1 hx, (hI.entry_live hnodup hxs hgen he).1 hlive⟩

end Reparam
