import Reparam.Proofs.Diff.Applying
import Reparam.Proofs.Apply.Living
import Reparam.Proofs.Locals.WellFormed

/-! Applying the comparison of a list of types with a permutation of it. It may remove a parameter
and insert another one of its type where it could have moved it, and is then refused if the removed
parameter is in use. -/
namespace Reparam

variable {a : Applier} {receiver : Nat} {params : List (ValueType × String)} {b : Body}
  {table : SlotTable} {s : Script} {types : List ValueType} {tr : Tracking} {f : FlatScript}
  {code : Code}

/-- Code in reach uses a parameter that the script removes. -/
def Script.RemovesLive (s : Script) (table : SlotTable) (code : Code) : Prop :=
  ∃ k slot, s.Drops table.entries.length (.reference k) .removed ∧ table.slotOf? k = some slot ∧
    slot ∈ code.liveSlots

open Tracking

theorem Script.Plain.reroute_substituted (hs : s.Plain) (hr : Reached s types.length tr)
    (tokens : List Token) (site : Site) :
    site.reroute (tr.whenSubstituted types.length) tokens = site := by
  cases site with
  | parameter o =>
    refine Site.reroute_of_none ?_
    unfold whenSubstituted
    split
    · rename_i source hsource
      obtain ⟨m, rfl, hm⟩ := exists_of_fateOf hsource
      cases hs.fate hr hm
    · rfl
  | receiver | beyond | generated | parked | unreachable => rfl

/-- A removal of a parameter in use, said with what flattening tracks. -/
theorem Tracking.Reached.removesLive_iff {w : Widths} (hw : ∀ t, 0 < w t)
    (hr : Reached s types.length tr) (htable : table = (Row.ofTypes types).table w receiver) :
    s.RemovesLive table code ↔ ∃ t ∈ tr.beforeRemovals types.length,
      tr.fateOf t.origin = some .removed ∧
        ∃ x ∈ code.liveSlots, table.siteOf x = .parameter t.origin := by
  subst htable
  have hlength : ((Row.ofTypes types).table w receiver).entries.length = types.length := by
    simp [Row.table, Row.ofTypes]
  rw [Script.RemovesLive, hlength]
  constructor
  · rintro ⟨k, slot, hdrops, hslot, hlive⟩
    have hfate : tr.fateOf (.reference k) = some .removed := (hr.dropped k _).2 hdrops
    obtain ⟨t, ht, horigin⟩ := List.mem_map.1 (hr.sound.mem_beforeRemovals hfate rfl)
    obtain ⟨hk, rfl⟩ := Row.slotOf_ofTypes.1 hslot
    refine ⟨t, ht, ?_, _, hlive, ?_⟩
    · rw [horigin, hfate]
    · rw [horigin, Row.siteOf_start hw hk]
  · rintro ⟨t, -, hfate, x, hlive, hsite⟩
    obtain ⟨k, horigin, hk⟩ := exists_of_fateOf hfate
    rw [horigin] at hsite
    exact ⟨k, x, (hr.dropped k _).1 hk, SlotTable.slotOf_of_siteOf hsite, hlive⟩

section

variable {g : Premises} {p p1 p2 p3 p4 : Progress}

/-- Of a body that has come to its removals, those of parameters in use are refused, and no
others. -/
theorem Tracking.Reached.removals_live (hr : Reached s types.length tr) (hs : s.Plain)
    (hf : tr.toFlat types.length = .ok f)
    (htable : table = (Row.ofTypes types).table g.applier.widths g.receiver)
    (hbound : table.nextFree +
      Row.growth g.applier.widths types (tr.tokens.map (Token.full types)) ≤ g.bound)
    (hreject : g.applier.rejectLiveRemovals = true)
    (hstands : Stands g (Row.ofTypes types) table.siteOf code p)
    (h1 : g.applier.insertAll f.insertions p = .ok p1)
    (h2 : g.applier.replaceAll f.replacements p1 = .ok p2)
    (h3 : g.applier.substituteAll (descendingByFirst f.substitutions) [] p2 = .ok p3)
    (h4 : g.applier.reorderAll f.settledReorders p3 = .ok p4) :
    (∀ p5, g.applier.removeAll f.removals p4 = .ok p5 → ¬ s.RemovesLive table code) ∧
    ∀ ordinal slot position left, g.applier.removeAll f.removals p4 =
        .error ⟨.unsupportedRemoval ordinal slot position, left⟩ → s.RemovesLive table code := by
  subst htable
  have hreordered := hr.stands_reordered hf (hr.sound.peak_le hbound) (SlotTable.siteOf_ne_parked _)
    (SlotTable.siteOf_ne_generated _) (fun _ hk => Row.siteOf_starts g.widths_pos hk)
    (fun _ _ _ _ _ hsite => SlotTable.eq_of_siteOf hsite) hstands h1 h2 h3 h4
  simp only [hs.reroute_substituted hr] at hreordered
  obtain ⟨hok, herror⟩ := hreordered.removeAll_live hreject hr.sound.nodup_beforeRemovals
    (SlotTable.siteOf_ne_generated _)
  rw [Code.liveSlots_retypedAll] at hok herror
  obtain ⟨pairs, -, rfl⟩ := toFlat_eq_ok hf
  rw [hr.removesLive_iff g.widths_pos rfl]
  refine ⟨fun p5 h5 => ?_, herror⟩
  rintro ⟨t, ht, hfate, x, hlive, hsite⟩
  exact hok p5 h5 t ht hfate x hlive hsite

end

/-- A plain script can be carried out only if it removes no parameter in use, and it is refused only
if it does. -/
theorem Housed.run_live (hw : ∀ t, 0 < a.widths t)
    (ha : ∀ slot actual expected, a.adapters slot actual expected = none)
    (hg : ∀ k code, a.generators.generate? k = some code → ∀ i ∈ code, i.slot? = none)
    (hreject : a.rejectLiveRemovals = true)
    (h : Housed a.widths receiver params { body := b, table }) (hs : s.Plain)
    (hr : Reached s b.signature.types.length tr) (hf : tr.toFlat b.signature.types.length = .ok f)
    (ho : b.Orderly table (Row.growth a.widths b.signature.types
      (tr.tokens.map (Token.full b.signature.types)))) :
    (∀ p, a.run f b = .ok p → ¬ s.RemovesLive table b.code) ∧
    ∀ ordinal slot position left,
      a.run f b = .error ⟨.unsupportedRemoval ordinal slot position, left⟩ →
        s.RemovesLive table b.code := by
  have hmade : SlotTable.ofSignature a.widths b.signature = .ok table := h.table
  have hstands := stands_ofBody hw ha hg hmade ho
  have htable : table = (Row.ofTypes b.signature.types).table a.widths table.receiver := by
    rw [(Row.ofSignature_eq_ok (Row.types_ofTypes _).symm hmade).1, Row.receiver_table]
  constructor
  · intro p hp
    obtain ⟨made, p1, p2, p3, p4, p5, p6, hmade', h1, h2, h3, h4, h5, -⟩ := Applier.run_eq_ok hp
    cases hmade.symm.trans hmade'
    exact (hr.removals_live hs hf htable (Nat.le_refl _) hreject hstands h1 h2 h3 h4).1 p5 h5
  · intro ordinal slot position left hp
    obtain ⟨p1, p2, p3, p4, h1, h2, h3, h4, h5⟩ := h.run_unsupported hw hp
    exact (hr.removals_live hs hf htable (Nat.le_refl _) hreject hstands h1 h2 h3 h4).2 _ _ _ _ h5

/-- What a plain script does to a method that declares its parameters and uses nothing else. It
leads to the types that it replays to if it removes no parameter in use, and otherwise it is refused.
Either way it may come short of slots before, if there is no room for both lists. -/
theorem Applier.apply_plain (hw : ∀ t, 0 < a.widths t)
    (ha : ∀ slot actual expected, a.adapters slot actual expected = none)
    (hg : ∀ k code, a.generators.generate? k = some code → ∀ i ∈ code, i.slot? = none)
    (hreject : a.rejectLiveRemovals = true) {signature : Signature}
    (htable : SlotTable.ofSignature a.widths signature = .ok table)
    (hcode : ∀ x ∈ code.filterMap (·.slot?), x ∈ table.entries.map (·.slot)) (hs : s.Plain)
    (hreplay : s.replay signature.types = .ok types) (slots : SlotTable) :
    let m : Method := ⟨.declaring a.widths signature code, slots⟩
    (¬ s.RemovesLive table code ∧ ∃ changed m', a.apply s m = (.ok changed, m') ∧
        m'.body.signature.types = types) ∨
      (s.RemovesLive table code ∧ ∃ ordinal slot position m',
        a.apply s m = (.error (.unsupportedRemoval ordinal slot position), m')) ∨
      (slotLimit < table.nextFree + totalWidth a.widths types ∧ ∃ required m',
        a.apply s m = (.error (.slotAllocation required), m')) := by
  intro m
  obtain ⟨params, hhoused⟩ := @Housed.declaring _ _ code _ htable
  obtain ⟨tr, f, hr, hf, hflat, hrun⟩ := hhoused.run_plain hw hs hreplay
  obtain ⟨hok, herror⟩ := hhoused.run_live hw ha hg hreject hs hr hf
    (Body.orderly_declaring hw htable hcode _)
  have happly : a.apply s m = a.applyFlat f m := apply_eq_applyFlat hflat
  rw [happly]
  rcases hrun with
    ⟨p, hp, htypes, -⟩ | ⟨-, ordinal, slot, position, left, hp⟩ | ⟨hshort, required, left, hp⟩
  · exact .inl ⟨hok p hp, _, _, applyFlat_of_ok hp, htypes⟩
  · rw [applyFlat_of_error hp]
    exact .inr (.inl ⟨herror _ _ _ _ hp, ordinal, slot, position, _, rfl⟩)
  · rw [applyFlat_of_error hp, SlotTable.nextFree_eq htable]
    exact .inr (.inr ⟨hshort, required, _, rfl⟩)

theorem diffTypes_of_length {reference target : List ValueType}
    (h : reference.length = target.length) : ∃ script, diffTypes reference target = .ok script := by
  obtain ⟨d, -, hreport⟩ := @diffReported_in_step .never (reference.map .unnamed)
    (target.map .unnamed) (isMove_plan (.inl (by simpa using h)))
  refine ⟨d.script, ?_⟩
  rw [diffTypes, diff, hreport]
  rfl

theorem Generators.slotless_empty (k : Nat) (code : Code)
    (h : Generators.generate? {} k = some code) : ∀ i ∈ code, i.slot? = none := by
  cases h

/-- A list of types can always be compared with a permutation of it. Applying the script to a method
that declares the list and uses nothing but parameters leads to the permutation if the script removes
no parameter in use, and otherwise it is refused. Either way it may come short of slots before, if
there is no room for both lists. -/
theorem apply_diffTypes_perm {reference target : List ValueType} (h : reference.Perm target)
    (result : Option ValueType) (isStatic : Bool) (slots : SlotTable)
    (htable : SlotTable.ofSignature standardWidths ⟨reference.map .unnamed, result, isStatic⟩ =
      .ok table)
    (hcode : ∀ x ∈ code.filterMap (·.slot?), x ∈ table.entries.map (·.slot)) :
    let m : Method :=
      ⟨.declaring standardWidths ⟨reference.map .unnamed, result, isStatic⟩ code, slots⟩
    ∃ script, diffTypes reference target = .ok script ∧
      ((¬ script.RemovesLive table code ∧ ∃ changed m',
          Applier.apply {} script m = (.ok changed, m') ∧ m'.body.signature.types = target) ∨
        (script.RemovesLive table code ∧ ∃ ordinal slot position m',
          Applier.apply {} script m =
            (.error (.unsupportedRemoval ordinal slot position), m')) ∨
        (slotLimit < table.nextFree + totalWidth standardWidths target ∧ ∃ required m',
          Applier.apply {} script m = (.error (.slotAllocation required), m'))) := by
  intro m
  obtain ⟨script, hscript⟩ := diffTypes_of_length h.length_eq
  obtain ⟨hplain, hreplay⟩ := diff_eq_ok hscript
  rw [types_unnamed target] at hreplay
  exact ⟨script, hscript, Applier.apply_plain (a := {}) standardWidths_pos (fun _ _ _ => rfl)
    Generators.slotless_empty rfl htable hcode hplain hreplay slots⟩

theorem apply_diffTypes_perm_on_swap :
    [ValueType.int, .long].Perm [.long, .int] ∧
      diffTypes [.int, .long] [.long, .int] = .ok [.swap 0 1] ∧
      ∃ changed m', Applier.apply {} [.swap 0 1]
          ⟨.declaring standardWidths ⟨[ValueType.int, .long].map .unnamed, none, true⟩
            [.load 1 .long, .ret], {}⟩ = (.ok changed, m') ∧
        m'.body.signature.types = [.long, .int] := by
  have hperm : [ValueType.int, .long].Perm [.long, .int] := by decide
  have hdiff : diffTypes [.int, .long] [.long, .int] = .ok [.swap 0 1] := by decide +kernel
  refine ⟨hperm, hdiff, ?_⟩
  obtain ⟨script, hscript, houtcome⟩ := @apply_diffTypes_perm ⟨0, [⟨0, 1⟩, ⟨1, 2⟩]⟩
    [.load 1 .long, .ret] _ _ hperm none true {} rfl (by decide)
  cases hdiff.symm.trans hscript
  rcases houtcome with
    ⟨-, hok⟩ | ⟨⟨k, slot, ⟨pre, e, rest, reached, hs, -, hdrop⟩, -⟩, -⟩ | ⟨hshort, -⟩
  · exact hok
  · obtain rfl : e = .swap 0 1 := List.mem_singleton.1 (hs ▸ by simp)
    cases hdrop
  · exact absurd hshort (by decide)

/-- Types that move up by one place lose the first parameter, even if code in reach loads it. -/
theorem apply_diffTypes_refuses_rotation : ¬ ∀ (reference target : List ValueType)
    (result : Option ValueType) (isStatic : Bool) (table : SlotTable) (code : Code),
    reference.Perm target →
    SlotTable.ofSignature standardWidths ⟨reference.map .unnamed, result, isStatic⟩ = .ok table →
    (∀ x ∈ code.filterMap (·.slot?), x ∈ table.entries.map (·.slot)) →
    ∃ script changed m', diffTypes reference target = .ok script ∧
      Applier.apply {} script
          ⟨.declaring standardWidths ⟨reference.map .unnamed, result, isStatic⟩ code, {}⟩ =
        (.ok changed, m') ∧ m'.body.signature.types = target := by
  intro h
  let table : SlotTable := ⟨0, [⟨0, 1⟩, ⟨1, 2⟩, ⟨3, 1⟩]⟩
  let code : Code := [.load 0 .int, .ret]
  have htable : SlotTable.ofSignature standardWidths
      ⟨[ValueType.int, .long, .boolean].map .unnamed, none, true⟩ = .ok table := rfl
  have hcode : ∀ x ∈ code.filterMap (·.slot?), x ∈ table.entries.map (·.slot) := by decide
  obtain ⟨script, changed, m', hscript, hm', -⟩ :=
    h [.int, .long, .boolean] [.long, .boolean, .int] none true table code (by decide) htable hcode
  have hdiff : diffTypes [.int, .long, .boolean] [.long, .boolean, .int] =
      .ok [.remove 0, .insert 2 .int] := by decide +kernel
  cases hdiff.symm.trans hscript
  have hlive : Script.RemovesLive [.remove 0, .insert 2 .int] table code :=
    ⟨0, 0, ⟨[], .remove 0, [.insert 2 .int], _, rfl, rfl, rfl⟩, rfl, by decide⟩
  obtain ⟨hplain, hreplay⟩ := diff_eq_ok hdiff
  rcases Applier.apply_plain (a := {}) standardWidths_pos (fun _ _ _ => rfl)
    Generators.slotless_empty rfl htable hcode hplain hreplay {} with
    ⟨hdead, -⟩ | ⟨-, ordinal, slot, position, m'', herror⟩ | ⟨hshort, -⟩
  · exact hdead hlive
  · cases hm'.symm.trans herror
  · exact absurd hshort (by decide)

end Reparam
