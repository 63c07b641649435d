import Reparam.Proofs.Apply.Orderly

/-! What becomes of one instruction when a script is applied, said with the script alone, and how
the sites that its slot leads to say the same. -/
namespace Reparam

variable {a : Applier} {s : Script} {n : Nat} {types : List ValueType} {tr : Tracking}
  {serial : Nat} {o last : Origin}

/-- What becomes of an instruction when a script is applied to a method with `n` parameters: one at
a parameter goes where the chain of substitutions from that parameter leads. `left` tells the
origins of the parameters in the end. -/
inductive Becomes (a : Applier) (s : Script) (n : Nat) (before after : SlotTable)
    (left : List Origin) (i : Instruction) : Code → Prop where
  | plain (h : i.slot? = none) : Becomes a s n before after left i [i]
  | receiver {x : Nat} (h : i.slot? = some x) (hx : x < before.receiver) :
    Becomes a s n before after left i [i]
  | unreachable (h : i.slot? = some unreachableSlot) : Becomes a s n before after left i [i]
  | beyond {x : Nat} (h : i.slot? = some x) (hx : before.nextFree ≤ x)
    (hne : x ≠ unreachableSlot) :
    Becomes a s n before after left i [i.withSlot (x - before.nextFree + after.nextFree)]
  | kept {x k j slot : Nat} {last : Origin} (h : i.slot? = some x)
    (hk : before.slotOf? k = some x) (hl : s.LeadsTo n (.reference k) last)
    (hj : left[j]? = some last) (hs : after.slotOf? j = some slot) :
    Becomes a s n before after left i [i.withSlot slot]
  | removed {x k m : Nat} (h : i.slot? = some x) (hk : before.slotOf? k = some x)
    (hl : s.LeadsTo n (.reference k) (.reference m)) (hd : s.Drops n (.reference m) .removed) :
    Becomes a s n before after left i [i.withSlot unreachableSlot]
  | inlined {x k m generator : Nat} {code : Code} (h : i.slot? = some x)
    (hk : before.slotOf? k = some x) (hl : s.LeadsTo n (.reference k) (.reference m))
    (hd : s.Drops n (.reference m) (.inlined generator)) (hw : i.isWrite = false)
    (hg : a.generators.generate? generator = some code) :
    Becomes a s n before after left i code

namespace Site

variable {dest : Origin → Option Site} {gone : List Token} {s' : Site}

theorem reroute_of_none (h : dest o = none) : reroute dest gone (.parameter o) = .parameter o := by
  simp [reroute, h]

theorem reroute_of_mem (ho : o ∈ gone.map Token.origin) (h : dest o = some s') :
    reroute dest gone (.parameter o) = s' := by
  simp only [reroute, if_pos ho, h, Option.getD_some]

end Site

namespace Tracking

/-- Substitutions take the site of a parameter to where its chain ends. -/
theorem Reached.reroute_substituted (h : Reached s n tr) {k : Nat} (hk : k < n) :
    ∃ last, s.LeadsTo n (.reference k) last ∧ (∀ o, tr.fateOf last ≠ some (.substituted o)) ∧
      Site.reroute (tr.whenSubstituted n) (tr.afterInsertions n) (.parameter (.reference k)) =
        .parameter last := by
  have hmem : .reference k ∈ (tr.afterInsertions n).map Token.origin := by
    rw [mem_origins_reference, ordinals_afterInsertions h.sound]
    exact List.mem_range.2 hk
  have hends {last : Origin} (hl : s.LeadsTo n (.reference k) last) (o : Origin) :
      tr.fateOf last ≠ some (.substituted o) := by
    cases last with
    | reference m => exact h.finalSource_kept hl o
    | inserted m => simp [fateOf]
  by_cases hfate : ∃ source, tr.fate? k = some (.substituted source)
  · obtain ⟨source, hfate⟩ := hfate
    have hl : s.LeadsTo n (.reference k) (tr.finalSource n source) :=
      .via ((h.substituted k source).1 hfate) (h.leadsTo_iff.2 rfl)
    refine ⟨_, hl, hends hl, Site.reroute_of_mem hmem ?_⟩
    simp only [whenSubstituted, fateOf, hfate]
  · have hl : s.LeadsTo n (.reference k) (.reference k) :=
      .kept fun o ho => hfate ⟨o, (h.substituted k o).2 ho⟩
    refine ⟨_, hl, hends hl, Site.reroute_of_none ?_⟩
    unfold whenSubstituted
    split
    · rename_i source hsource
      exact (hends hl source hsource).elim
    · rfl

/-- A parameter that was removed or inlined is there just before removals. -/
theorem Sound.mem_beforeRemovals {how : Fate} (h : tr.Sound n serial)
    (hf : tr.fateOf o = some how) (hhow : how.isSubstituted = false) :
    o ∈ (tr.beforeRemovals n).map Token.origin := by
  cases o with
  | inserted m => cases hf
  | reference m =>
    rw [mem_origins_reference, ordinals_beforeRemovals_perm.mem_iff, List.mem_append]
    exact .inl ((mem_withFate h).2 ⟨how, hf, by rw [hhow]; rfl⟩)

theorem exists_of_fateOf {how : Fate} (hf : tr.fateOf o = some how) :
    ∃ m, o = .reference m ∧ tr.fate? m = some how := by
  cases o with
  | inserted m => cases hf
  | reference m => exact ⟨m, rfl, hf⟩

/-- The parameter at the end of a chain stays, or is removed, or is inlined. -/
theorem Reached.finalSite_cases (h : Reached s n tr) {k : Nat} (hk : k < n)
    (hl : s.LeadsTo n (.reference k) last) :
    (tr.fateOf last = none ∧ finalSite tr n (.parameter (.reference k)) = .parameter last) ∨
    (tr.fateOf last = some .removed ∧
      finalSite tr n (.parameter (.reference k)) = .unreachable) ∨
    ∃ generator, tr.fateOf last = some (.inlined generator) ∧
      finalSite tr n (.parameter (.reference k)) = .generated generator := by
  obtain ⟨last', hl', hends, hlast⟩ := h.reroute_substituted hk
  obtain rfl : last = last' := (h.leadsTo_iff.1 hl).symm.trans (h.leadsTo_iff.1 hl')
  unfold finalSite
  rw [hlast]
  cases hfate : tr.fateOf last with
  | none =>
    have hremoved : tr.whenRemoved last = none := by simp only [whenRemoved, hfate]
    have hinlined : tr.whenInlined last = none := by simp only [whenInlined, hfate]
    rw [Site.reroute_of_none hremoved, Site.reroute_of_none hinlined]
    exact .inl ⟨rfl, rfl⟩
  | some how =>
    cases how with
    | substituted o => exact (hends o hfate).elim
    | removed =>
      have hremoved : tr.whenRemoved last = some .unreachable := by simp only [whenRemoved, hfate]
      rw [Site.reroute_of_mem (h.sound.mem_beforeRemovals hfate rfl) hremoved]
      exact .inr (.inl ⟨rfl, rfl⟩)
    | inlined generator =>
      have hremoved : tr.whenRemoved last = none := by simp only [whenRemoved, hfate]
      have hinlined : tr.whenInlined last = some (.generated generator) := by
        simp only [whenInlined, hfate]
      have hmem : last ∈ (passedOver (tr.fated removedFate) (tr.beforeRemovals n)).map
          Token.origin := by
        obtain ⟨t, ht, rfl⟩ := List.mem_map.1 (h.sound.mem_beforeRemovals hfate rfl)
        refine List.mem_map_of_mem (List.mem_filter.2 ⟨ht, ?_⟩)
        rw [fated_eq, hfate]
        rfl
      rw [Site.reroute_of_none hremoved, Site.reroute_of_mem hmem hinlined]
      exact .inr (.inr ⟨generator, rfl, rfl⟩)

/-- Where what refers to a slot goes in all. -/
def siteAfter (tr : Tracking) (g : Premises) (types : List ValueType) (x : Nat) : Site :=
  finalSite tr types.length (((Row.ofTypes types).table g.applier.widths g.receiver).siteOf x)

variable {g : Premises} {i : Instruction} {code : Code}

theorem Reached.nodup_full (h : Reached s types.length tr) :
    (Row.origins (tr.tokens.map (Token.full types))).Nodup := by
  rw [origins_map_full]
  exact h.sound.nodup

theorem origins_getElem {j : Nat} {t : ValueType}
    (hj : (tr.tokens.map (Token.full types))[j]? = some (o, t)) : tr.origins[j]? = some o := by
  have horigins : Row.origins (tr.tokens.map (Token.full types)) = tr.origins := origins_map_full
  rw [← horigins, Row.origins, List.getElem?_map, hj]
  rfl

theorem placed_singleton {row : Row} {σ : Nat → Site} {x : Nat} (hx : i.slot? = some x) :
    Code.placed g row σ [i] = (σ x).put g row i := by
  rw [Code.placed_cons_some hx]
  exact List.append_nil _

theorem placed_singleton_of_slot {row : Row} {σ : Nat → Site} {x : Nat} (hx : i.slot? = some x)
    (hσ : ∀ k, σ x ≠ .generated k) (hslot : (σ x).slot g row = x) :
    Code.placed g row σ [i] = [i] := by
  rw [placed_singleton hx, Site.put_of_ne hσ, hslot, Instruction.withSlot_self hx]

/-- Every instruction becomes what stands at the site that its slot leads to. -/
theorem Reached.becomes_placed (h : Reached s types.length tr)
    (hplace : ∀ x, i.slot? = some x → x < g.receiver ∨
      x ∈ ((Row.ofTypes types).table g.applier.widths g.receiver).entries.map (·.slot) ∨
      g.receiver + Row.extent g.applier.widths (Row.ofTypes types) ≤ x)
    (hat : ∀ x, i.slot? = some x →
      (tr.siteAfter g types x).At g (tr.tokens.map (Token.full types)) i) :
    Becomes g.applier s types.length ((Row.ofTypes types).table g.applier.widths g.receiver)
      (Row.table g.applier.widths g.receiver (tr.tokens.map (Token.full types))) tr.origins i
      (Code.placed g (tr.tokens.map (Token.full types)) (tr.siteAfter g types) [i]) := by
  cases hx : i.slot? with
  | none =>
    rw [Code.placed_cons_none hx]
    exact .plain hx
  | some x =>
    have hat := hat x hx
    rcases Row.siteOf_cases g.widths_pos (hplace x hx) with
      ⟨hreceiver, hsite⟩ | ⟨k, hk, hstart, hsite⟩ | ⟨hbehind, hsite⟩
    · have hafter : tr.siteAfter g types x = .receiver x := by
        rw [siteAfter, hsite]
        rfl
      rw [placed_singleton_of_slot hx (by simp [hafter]) (by rw [hafter]; rfl)]
      exact .receiver hx hreceiver
    · have hslot := Row.slotOf_ofTypes.2 ⟨hk, hstart⟩
      rw [placed_singleton hx]
      rw [siteAfter, hsite] at hat ⊢
      obtain ⟨last, hl⟩ : ∃ last, s.LeadsTo types.length (.reference k) last :=
        ⟨_, h.leadsTo_iff.2 rfl⟩
      rcases h.finalSite_cases hk hl with
        ⟨-, hfinal⟩ | ⟨hfate, hfinal⟩ | ⟨generator, hfate, hfinal⟩
      · rw [hfinal] at hat ⊢
        obtain ⟨⟨o, t⟩, hq, rfl⟩ := List.mem_map.1 hat.1
        obtain ⟨j, hj⟩ := List.getElem?_of_mem hq
        exact .kept hx hslot hl (origins_getElem hj)
          ((Row.slotOf_eq_some h.nodup_full).2 ⟨o, t, hj, rfl⟩)
      · obtain ⟨m, rfl, hm⟩ := exists_of_fateOf hfate
        rw [hfinal]
        exact .removed hx hslot hl ((h.dropped m _).1 hm)
      · obtain ⟨m, rfl, hm⟩ := exists_of_fateOf hfate
        rw [hfinal] at hat ⊢
        obtain ⟨hwrite, hsome⟩ := hat.2 generator rfl
        obtain ⟨code, hcode⟩ := Option.isSome_iff_exists.1 hsome
        rw [Site.put, hcode, Option.getD_some]
        exact .inlined hx hslot hl ((h.dropped m _).1 hm) hwrite hcode
    · by_cases hne : x = unreachableSlot
      · have hafter : tr.siteAfter g types x = .unreachable := by
          rw [siteAfter, hsite, if_pos hne]
          rfl
        rw [placed_singleton_of_slot hx (by simp [hafter]) (by rw [hafter]; exact hne.symm)]
        exact .unreachable (hne ▸ hx)
      · have hafter : tr.siteAfter g types x =
            .beyond (x - (g.receiver + Row.extent g.applier.widths (Row.ofTypes types))) := by
          rw [siteAfter, hsite, if_neg hne]
          rfl
        rw [placed_singleton hx, hafter]
        change Becomes _ _ _ _ _ _ _ [i.withSlot (_ + _)]
        rw [Nat.add_comm, ← Row.nextFree_table, ← Row.nextFree_table]
        refine .beyond hx ?_ hne
        rw [Row.nextFree_table]
        exact hbehind

/-- And it becomes nothing else: a chain ends at one parameter only, which is still there or has
left in one way. -/
theorem Reached.eq_placed_of_becomes (h : Reached s types.length tr)
    (hlimit : g.receiver + Row.extent g.applier.widths (Row.ofTypes types) ≤ slotLimit)
    (hb : Becomes g.applier s types.length
      ((Row.ofTypes types).table g.applier.widths g.receiver)
      (Row.table g.applier.widths g.receiver (tr.tokens.map (Token.full types))) tr.origins i
      code) :
    code = Code.placed g (tr.tokens.map (Token.full types)) (tr.siteAfter g types) [i] := by
  have reached {x k : Nat} (hk : ((Row.ofTypes types).table g.applier.widths g.receiver).slotOf? k =
      some x) : k < types.length ∧
        tr.siteAfter g types x = finalSite tr types.length (.parameter (.reference k)) := by
    obtain ⟨hlt, rfl⟩ := Row.slotOf_ofTypes.1 hk
    exact ⟨hlt, congrArg (finalSite tr types.length) (Row.siteOf_start g.widths_pos hlt)⟩
  cases hb with
  | plain hx =>
    rw [Code.placed_cons_none hx]
    rfl
  | @receiver x hx hlow =>
    have hafter : tr.siteAfter g types x = .receiver x := by
      rw [siteAfter, SlotTable.siteOf, if_pos hlow]
      rfl
    rw [placed_singleton_of_slot hx (by simp [hafter]) (by rw [hafter]; rfl)]
  | unreachable hx =>
    have hafter : tr.siteAfter g types unreachableSlot = .unreachable := by
      rw [siteAfter, Row.siteOf_behind g.widths_pos (Nat.le_trans hlimit (by decide)), if_pos rfl]
      rfl
    rw [placed_singleton_of_slot hx (by simp [hafter]) (by rw [hafter]; rfl)]
  | @beyond x hx hbehind hne =>
    rw [Row.nextFree_table] at hbehind
    have hafter : tr.siteAfter g types x =
        .beyond (x - (g.receiver + Row.extent g.applier.widths (Row.ofTypes types))) := by
      rw [siteAfter, Row.siteOf_behind g.widths_pos hbehind, if_neg hne]
      rfl
    rw [placed_singleton hx, hafter, Row.nextFree_table, Row.nextFree_table, Nat.add_comm]
    rfl
  | @kept x k j slot last hx hk hl hj hs =>
    obtain ⟨hlt, hafter⟩ := reached hk
    obtain ⟨o, t, hrow, rfl⟩ := (Row.slotOf_eq_some h.nodup_full).1 hs
    obtain rfl : o = last := Option.some.inj ((origins_getElem hrow).symm.trans hj)
    have hfate : tr.fateOf o = none := by
      cases o with
      | inserted m => rfl
      | reference m => exact ((h.sound.alive m).1 (List.mem_of_getElem? hj)).2
    have hfinal : finalSite tr types.length (.parameter (.reference k)) = .parameter o := by
      simpa [hfate] using h.finalSite_cases hlt hl
    rw [placed_singleton hx, hafter, hfinal]
    rfl
  | @removed x k m hx hk hl hd =>
    obtain ⟨hlt, hafter⟩ := reached hk
    have hfate : tr.fateOf (.reference m) = some .removed := (h.dropped m _).2 hd
    have hfinal : finalSite tr types.length (.parameter (.reference k)) = .unreachable := by
      simpa [hfate] using h.finalSite_cases hlt hl
    rw [placed_singleton hx, hafter, hfinal]
    rfl
  | @inlined x k m generator code hx hk hl hd hwrite hcode =>
    obtain ⟨hlt, hafter⟩ := reached hk
    have hfate : tr.fateOf (.reference m) = some (.inlined generator) := (h.dropped m _).2 hd
    have hfinal : finalSite tr types.length (.parameter (.reference k)) =
        .generated generator := by
      simpa [hfate] using h.finalSite_cases hlt hl
    rw [placed_singleton hx, hafter, hfinal, Site.put, hcode, Option.getD_some]

end Tracking
end Reparam
