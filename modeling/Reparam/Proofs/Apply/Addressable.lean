import Reparam.Proofs.Apply.Keeping
import Reparam.Proofs.Apply.Raising

/-! Which slots are named once a script was applied. Only insertions and wider parameters take slots
up, and nothing asks whether what is no parameter stays in reach: a method with room for what its
parameters come to need stays addressable, and others may not. -/
namespace Reparam

variable {a : Applier} {w : Widths} {s : Script} {n d index generator : Nat} {p p' : Progress}
  {types : List ValueType} {row : Row}

/-- No slot lies past a bound, but for references to removed parameters. -/
structure Capped (n : Nat) (p : Progress) : Prop where
  code : p.body.code.Operands fun x => x ≤ n ∨ x = unreachableSlot
  places : ∀ q ∈ p.body.places, q.1 ≤ n

theorem Snapshot.moveDown_le (x : Nat) (gone : Declaration) : moveDown x gone ≤ x := by
  unfold moveDown
  split <;> omega

namespace Capped

theorem of_bounded {s : Signature} (hw : ∀ t, 0 < w t) (h : Bounded w s types n p) :
    Capped (max maxSlot n) p := by
  have hstart : ∀ x, Starts w s.receiverSlots types x → x ≤ max maxSlot n := fun x hx =>
    (hx.le_maxSlot hw h.totalWidth_le).trans (Nat.le_max_left ..)
  constructor
  · refine h.code.imp fun x hx => ?_
    rcases hx with hx | hx | hx
    · exact .inl (hx.trans (Nat.le_max_right ..))
    · exact .inl (hstart x hx)
    · exact .inr hx
  · intro q hq
    rcases h.places q hq with hq | hq
    · exact hq.trans (Nat.le_max_right ..)
    · exact hstart q.1 hq

/-- Where a parameter was dropped, what referred to it is at a reserved slot, and nothing else goes
up. -/
theorem dropParameter (hd : isReserved d = true) (h : Capped n p)
    (hp : p.dropParameter w index d = .ok p') :
    (p'.body.code.Operands fun x => (x ≤ n ∨ x = unreachableSlot) ∨ x = d) ∧
      ∀ q ∈ p'.body.places, q.1 ≤ n := by
  obtain ⟨entry, gone, -, hcode, hplaces, -⟩ := Progress.dropParameter_moves hd hp
  constructor
  · have hredirected : (p.body.code.retarget entry.slot d).Operands
        fun x => (x ≤ n ∨ x = unreachableSlot) ∨ x = d := by
      refine h.code.remap fun x hx => ?_
      unfold Code.redirect
      split
      · exact .inr rfl
      · exact .inl hx
    rw [hcode]
    refine hredirected.remap fun x hx => ?_
    unfold Snapshot.settled
    split
    · exact hx
    · rename_i hfree
      rcases hx with (hx | rfl) | rfl
      · exact .inl (.inl ((Snapshot.moveDown_le x gone).trans hx))
      · exact (hfree isReserved_unreachable).elim
      · exact (hfree hd).elim
  · intro q hq
    obtain ⟨q', hq', hmoved⟩ := hplaces q hq
    rw [hmoved]
    exact (Snapshot.moveDown_le ..).trans (h.places q' hq')

theorem substitute {target source : Nat} (hw : ∀ t, 0 < a.widths t) (hn : maxSlot ≤ n)
    (h : Capped n p) (hp : a.substitute p target source = .ok p') : Capped n p' := by
  obtain ⟨-, q, entry, hq, hentry, rfl⟩ := Applier.substitute_eq_ok hp
  obtain ⟨hcode, hplaces⟩ := h.dropParameter rfl hq
  obtain ⟨-, -, -, -, -, htable⟩ := Progress.dropParameter_moves rfl hq
  obtain ⟨t, hslot⟩ := SlotTable.slot_add_le htable hentry
  have ht := hw t
  constructor
  · rw [Progress.retarget, Progress.tally_body]
    refine hcode.remap fun x hx => ?_
    unfold Code.redirect
    split
    · rw [slotLimit] at hslot
      omega
    · exact hx.resolve_right ‹_›
  · rw [Progress.retarget, Progress.tally_body]
    exact hplaces

theorem permute {order : List Nat} (hw : ∀ t, 0 < a.widths t) (hn : maxSlot ≤ n) (h : Capped n p)
    (hp : a.permute order p = .ok p') : Capped n p' := by
  rcases Applier.permute_moves hp with rfl | ⟨f, hcode, hplaces, hf⟩
  · exact h
  · have hmoved : ∀ x, f x = x ∨ f x ≤ n := by
      intro x
      rcases hf x with hsame | ⟨t, hslot⟩
      · exact .inl hsame
      · have ht := hw t
        rw [slotLimit] at hslot
        omega
    constructor
    · rw [hcode]
      refine h.code.remap fun x hx => ?_
      rcases hmoved x with hsame | hle
      · rwa [hsame]
      · exact .inl hle
    · intro q hq
      rw [hplaces] at hq
      obtain ⟨q', hq', rfl⟩ := List.mem_map.1 hq
      rcases hmoved q'.1 with hsame | hle
      · exact hsame.le.trans (h.places q' hq')
      · exact hle

theorem remove (h : Capped n p) (hp : a.remove p index = .ok p') : Capped n p' := by
  obtain ⟨hcode, hplaces⟩ := h.dropParameter rfl (Applier.remove_eq_ok hp)
  exact ⟨hcode.imp fun x hx => hx.elim id .inr, hplaces⟩

/-- What referred to an inlined parameter makes room for other code. -/
theorem inline (hg : ∀ k, a.generators.generate? k = none) (h : Capped n p)
    (hp : a.inline p index generator = .ok p') : Capped n p' := by
  obtain ⟨q, replacement, hq, hreplacement, rfl⟩ := Applier.inline_eq_expand hp
  obtain ⟨hcode, hplaces⟩ := h.dropParameter rfl hq
  have hnone : replacement = [] := by
    rcases hreplacement with hnil | hgenerated
    · exact hnil
    · rw [hg] at hgenerated
      cases hgenerated
  subst hnone
  rw [Applier.expand]
  constructor
  · rw [Progress.tally_body]
    intro i hi x hx
    obtain ⟨j, hj, hi⟩ := List.mem_flatMap.1 hi
    split at hi
    · cases hi
    · rename_i hne
      obtain rfl := List.mem_singleton.1 hi
      rcases hcode i hj x hx with hx' | rfl
      · exact hx'
      · exact (hne hx).elim
  · rw [Progress.tally_body]
    exact hplaces

theorem keeps (hw : ∀ t, 0 < a.widths t) (hg : ∀ k, a.generators.generate? k = none)
    (hn : maxSlot ≤ n) : a.KeepsLeaving (Capped n) where
  substitute := substitute hw hn
  permute := permute hw hn
  remove := remove
  inline := inline hg

end Capped

/-- Parameters grow by no more than they take in the end. -/
theorem Row.growth_le (row : Row) : growth w types row ≤ totalWidth w row.types := by
  induction row with
  | nil => exact Nat.le_refl _
  | cons q row ih =>
    obtain ⟨_ | _, t⟩ := q <;> simp only [growth, Row.types, List.map_cons, totalWidth_cons] at ih ⊢ <;>
      omega

open Tracking in
/-- How far the insertions and replacements of a script take the slots of a body. -/
theorem Bounded.run {tr : Tracking} {f : FlatScript} {b : Body} {before : SlotTable}
    (hw : ∀ t, 0 < a.widths t)
    (ha : ∀ slot actual expected, a.adapters slot actual expected = none)
    (hr : Reached s b.signature.types.length tr) (hf : tr.toFlat b.signature.types.length = .ok f)
    (hbefore : SlotTable.ofSignature a.widths b.signature = .ok before)
    (hcode : b.code.Operands fun x => x ≤ n ∨ x = unreachableSlot)
    (hplaces : ∀ q ∈ b.places, q.1 ≤ n)
    (h1 : a.insertAll f.insertions { body := b, table := before } = .ok p)
    (h2 : a.replaceAll f.replacements p = .ok p') :
    Bounded a.widths b.signature
      ((tr.afterInsertions b.signature.types.length).map (Token.typeIn b.signature.types))
      (n + Row.growth a.widths b.signature.types
        (tr.tokens.map (Token.full b.signature.types))) p' := by
  obtain ⟨pairs, -, rfl⟩ := toFlat_eq_ok hf
  generalize htypes : b.signature.types = types at *
  have hpassed : (passedOver Token.insertedType? (tr.afterInsertions types.length)).map
      (Token.firstTypeIn types) = types := by
    have hlabels := passedOver_insertedType (fun t => t) types (tr.afterInsertions types.length)
    rwa [ordinals_afterInsertions hr.sound, range_map_getD] at hlabels
  have hinitial : Bounded a.widths b.signature types n { body := b, table := before } :=
    ⟨⟨htypes, rfl, rfl, hbefore⟩, hcode.imp fun x hx => hx.imp_right .inr,
      fun q hq => .inl (hplaces q hq)⟩
  rw [← growth_afterInsertions tr types.length]
  exact Bounded.replaceAll hw ha ((hpassed ▸ hinitial).insertAll hw h1) h2

open Tracking in
/-- What a whole run leaves named, and how far its parameters can have grown. -/
theorem Tracking.Reached.run_capped {tr : Tracking} {f : FlatScript} {b : Body}
    (hw : ∀ t, 0 < a.widths t)
    (ha : ∀ slot actual expected, a.adapters slot actual expected = none)
    (hg : ∀ k, a.generators.generate? k = none)
    (hr : Reached s b.signature.types.length tr) (hf : tr.toFlat b.signature.types.length = .ok f)
    (hcode : b.code.Operands fun x => x ≤ n ∨ x = unreachableSlot)
    (hplaces : ∀ q ∈ b.places, q.1 ≤ n) (hrun : a.run f b = .ok p) :
    let growth := Row.growth a.widths b.signature.types
      (tr.tokens.map (Token.full b.signature.types))
    Capped (max maxSlot (n + growth)) p ∧ growth ≤ slotLimit := by
  intro growth
  obtain ⟨before, p1, p2, p3, p4, p5, p6, hbefore, h1, h2, h3, h4, h5, h6, hbody, -⟩ :=
    Applier.run_eq_ok hrun
  have hraised := Bounded.run hw ha hr hf hbefore hcode hplaces h1 h2
  constructor
  · obtain ⟨hcode', hplaces'⟩ := (Capped.keeps hw hg (Nat.le_max_left ..)).rest
      (Capped.of_bounded hw hraised) h3 h4 h5 h6
    rw [← hbody] at hcode' hplaces'
    exact ⟨hcode', hplaces'⟩
  · have hle := @Row.growth_le a.widths b.signature.types
      ((tr.afterInsertions b.signature.types.length).map (Token.full b.signature.types))
    have htotal := hraised.totalWidth_le
    simp only [growth, ← Tracking.growth_afterInsertions tr b.signature.types.length]
    simp only [Row.types, List.map_map, Function.comp_def, Token.full] at hle
    exact hle.trans ((Nat.le_add_left ..).trans htotal)

/-- With a script that suits the parameters nothing but the room for them can be missing. -/
theorem Setback.shortage_of_fit {short misfit : Prop} {err : ApplyError}
    (h : Setback short misfit False False err) (hfit : ¬ misfit) :
    ∃ required, err = .slotAllocation required := by
  cases h with
  | shortage required => exact ⟨required, rfl⟩
  | outOfRange _ _ h => exact (hfit h).elim
  | script _ h => exact (hfit h).elim
  | live _ _ _ h => exact h.elim
  | missing _ _ h => exact h.elim
  | written _ _ h => exact h.elim

open Tracking in
/-- Without room for the parameters that a script leaves, it already fails while parameters come in
or grow, and says so. -/
theorem Tracking.Reached.run_short {tr : Tracking} {f : FlatScript} {b : Body}
    (hr : Reached s b.signature.types.length tr) (hf : tr.toFlat b.signature.types.length = .ok f)
    (hshort : slotLimit < b.signature.receiverSlots +
      totalWidth a.widths (tr.tokens.map (Token.typeIn b.signature.types))) :
    ∃ required left, a.run f b = .error ⟨.slotAllocation required, left⟩ := by
  obtain ⟨pairs, -, rfl⟩ := toFlat_eq_ok hf
  generalize htypes : b.signature.types = types at *
  have hinserted := @run_insertions _ (fun t => t) (fun t _ => t) types _
    (ordinals_afterInsertions hr.sound)
  have hreplaced := run_replacements (fun t => t) (fun t _ => t) types
    (tr.afterInsertions types.length)
  rw [← Token.typeIn_eq_labelIn] at hreplaced
  rw [← ascendingByFirst_eq located_pairwise] at hinserted
  have hc := Tabled.carries a b.signature
  have htabled : ∀ before, SlotTable.ofSignature a.widths b.signature = .ok before →
      Tabled a.widths b.signature types { body := b, table := before } :=
    fun before hbefore => ⟨htypes, rfl, rfl, hbefore⟩
  have harrived : ∀ before p1, SlotTable.ofSignature a.widths b.signature = .ok before →
      a.insertAll (located Token.insertedType? 0 (tr.afterInsertions types.length))
        { body := b, table := before } = .ok p1 →
      Tabled a.widths b.signature ((tr.afterInsertions types.length).map
        (Token.firstLabelIn (fun t => t) types)) p1 := by
    intro before p1 hbefore h1
    obtain ⟨types1, hrun1, htabled1⟩ := hc.insertAll (htabled before hbefore) h1
    rw [hinserted, Except.ok.injEq] at hrun1
    exact hrun1 ▸ htabled1
  -- what is left in the end is part of what there has to be room for
  have hfull : ∀ before p1 p2, SlotTable.ofSignature a.widths b.signature = .ok before →
      a.insertAll (located Token.insertedType? 0 (tr.afterInsertions types.length))
        { body := b, table := before } = .ok p1 →
      a.replaceAll (located Token.retypedType? 0 (tr.afterInsertions types.length)) p1 ≠
        .ok p2 := by
    intro before p1 p2 hbefore h1 h2
    obtain ⟨types2, hrun2, htabled2⟩ := hc.replaceAll (harrived before p1 hbefore h1) h2
    rw [hreplaced, Except.ok.injEq] at hrun2
    subst hrun2
    have hroom := htabled2.totalWidth_le
    have hperm := totalWidth_perm (w := a.widths)
      ((@afterInsertions_perm types.length tr).map (Token.typeIn types))
    simp only [List.map_append, totalWidth_append] at hperm
    omega
  cases hrun : a.run _ b with
  | ok p =>
    obtain ⟨before, p1, p2, -, -, -, -, hbefore, h1, h2, -⟩ := Applier.run_eq_ok hrun
    exact (hfull before p1 p2 hbefore h1 h2).elim
  | error stopped =>
    suffices hshortage : ∃ required, stopped.error = .slotAllocation required by
      obtain ⟨required, herror⟩ := hshortage
      exact ⟨required, stopped.body, by rw [← herror]⟩
    unfold Applier.run at hrun
    split at hrun
    · cases hrun
      exact ⟨_, rfl⟩
    · rename_i before hbefore
      rcases error_of_bind hrun with h1 | ⟨p1, h1, hrun⟩
      · exact ((htabled before hbefore).insertAll_error h1).shortage_of_fit
          fun hmisfit => hmisfit ⟨_, hinserted⟩
      · rcases error_of_bind hrun with h2 | ⟨p2, h2, -⟩
        · exact ((harrived before p1 hbefore h1).replaceAll_error h2).shortage_of_fit
            fun hmisfit => hmisfit ⟨_, hreplaced⟩
        · exact (hfull before p1 p2 hbefore h1 h2).elim

/-- When a script was applied, no slot is past the limit by more than the script makes the parameters
grow, no reference is parked, and all parameters are in reach; a method with room for that is
addressable as before. Without room for the parameters the application fails for want of slots. -/
theorem apply_stays_addressable {m : Method} {bound : Nat} (hw : ∀ t, 0 < a.widths t)
    (ha : ∀ slot actual expected, a.adapters slot actual expected = none)
    (hg : ∀ k, a.generators.generate? k = none) (hbound : bound ≤ maxSlot)
    (hcode : ∀ i ∈ m.body.code, ∀ x, i.slot? = some x → x ≤ bound ∨ x = unreachableSlot)
    (hlocals : ∀ l ∈ m.body.locals, l.slot ≤ bound) :
    let types := m.body.signature.types
    let reach := max maxSlot (bound + Row.growth a.widths types (s.result types))
    (∀ changed m', a.apply s m = (.ok changed, m') →
      SlotTable.ofSignature a.widths m'.body.signature = .ok m'.slots ∧
      (∀ i ∈ m'.body.code, ∀ x, i.slot? = some x →
        x ≤ reach ∧ x ≠ placeholderSlot ∨ x = unreachableSlot) ∧
      ∀ l ∈ m'.body.locals, l.slot ≤ reach) ∧
    ∀ f types', s.flatten types.length = .ok f → s.replay types = .ok types' →
      slotLimit < m.body.signature.receiverSlots + totalWidth a.widths types' →
      ∃ required m', a.apply s m = (.error (.slotAllocation required), m') := by
  intro types reach
  have hlength : m.body.signature.params.length = types.length := by
    simp [types, Signature.types, Parameter.types]
  have htracked : ∀ f, s.flatten types.length = .ok f → ∃ tr : Tracking,
      tr.toFlat types.length = .ok f ∧ Tracking.Reached s types.length tr ∧
      s.replay types = .ok (tr.tokens.map (Token.typeIn types)) := by
    intro f hflat
    obtain ⟨tr, hfollow, hf⟩ := Tracking.flatten_eq_ok hflat
    refine ⟨tr, hf, Tracking.reached_of_follow hfollow, ?_⟩
    rw [replay_eq_follow, hfollow]
    rfl
  constructor
  · intro changed m' h
    obtain ⟨f, p, hflat, hrun, rfl⟩ := Applier.apply_eq_ok h
    rw [hlength] at hflat
    obtain ⟨tr, hf, hr, hreplay⟩ := htracked f hflat
    obtain ⟨-, -, -, htable⟩ := Applier.run_signature hrun
    have hplaces : ∀ q ∈ m.body.places, q.1 ≤ bound := by
      intro q hq
      obtain ⟨l, hl, rfl⟩ := List.mem_map.1 hq
      exact hlocals l hl
    obtain ⟨⟨hcode', hplaces'⟩, hgrowth⟩ := hr.run_capped hw ha hg hf hcode hplaces hrun
    rw [← hr.result_eq hreplay] at hcode' hplaces' hgrowth
    change Row.growth a.widths types (s.result types) ≤ slotLimit at hgrowth
    refine ⟨htable, fun i hi x hx => ?_, fun l hl => hplaces' _ (List.mem_map_of_mem hl)⟩
    refine (hcode' i hi x hx).imp_left fun hle => ⟨hle, ?_⟩
    rintro rfl
    have hfar : maxSlot + slotLimit < placeholderSlot := by decide
    omega
  · intro f types' hflat hreplay hshort
    obtain ⟨tr, hf, hr, hleft⟩ := htracked f hflat
    rw [hleft, Except.ok.injEq] at hreplay
    subst hreplay
    obtain ⟨required, left, hrun⟩ := hr.run_short hf hshort
    refine ⟨required, { m with body := left }, ?_⟩
    rw [Applier.apply, hlength, hflat]
    simp only [Applier.applyFlat, hrun]

/-- A method without parameters that reads a local at the last slot. -/
def lastReader : Method where
  body :=
    { signature := ⟨[], none, true⟩
      locals := [⟨"x", .int, 65535, {}⟩]
      code := [.load 65535 .int, .ret] }

/-- The same method with a parameter, and the local past the last slot. -/
def pushedReader : Method where
  body :=
    { signature := ⟨[.generated .int "injected_0"], none, true⟩
      locals := [⟨"injected_0", .int, 0, {}⟩, ⟨"x", .int, 65536, {}⟩]
      code := [.load 65536 .int, .ret] }
  slots := ⟨0, [⟨0, 1⟩]⟩

def push : Script := [.insert 0 .int]

theorem flatten_push : push.flatten 0 = .ok { insertions := [(0, .int)] } := by
  let tr : Tracking := ⟨[.inserted 0 .int], []⟩
  have hfollow : Tracking.follow 0 push (.initial 0) = .ok tr := rfl
  have hreorders : tr.beforeReorders 0 = [.inserted 0 .int] :=
    congrArg (Tracking.refill _) List.mergeSort_nil
  simp only [Script.flatten, hfollow, Tracking.toFlat, Tracking.reorders, Tracking.afterInsertions,
    hreorders]
  rfl

theorem insert_push : Applier.insert {} ⟨lastReader.body, {}, {}⟩ 0 .int =
    .ok ⟨pushedReader.body, pushedReader.slots, ⟨true, false, true, false⟩⟩ := by
  let declared : Body := { pushedReader.body with
    locals := [⟨"injected_0", .int, 0, {}⟩, ⟨"x", .int, 65535, {}⟩]
    code := lastReader.body.code }
  have htake : Snapshot.take standardWidths lastReader.body =
      ⟨[⟨"x", .int, 65535, 1⟩], [65535]⟩ :=
    congrArg₂ Snapshot.mk (List.mergeSort_singleton ..) (List.mergeSort_singleton ..)
  have hchanges : Snapshot.changes ⟨[⟨"x", .int, 65535, 1⟩], [65535]⟩ standardWidths declared =
      ⟨[], [(⟨"injected_0", .int, 0, 1⟩, 0)]⟩ :=
    congrArg (Snapshot.Changes.mk _) (List.mergeSort_singleton ..)
  change (do
    let p : Progress := ⟨declared, {}, {}⟩
    let snapshot := Snapshot.take standardWidths lastReader.body
    return (← (p.reconcile standardWidths snapshot).rebuild standardWidths).changedSignature) = _
  simp only [htake, Progress.reconcile, Snapshot.reconcile, Snapshot.reconcileCount, hchanges]
  rfl

theorem apply_push : Applier.apply {} push lastReader =
    (.ok ⟨true, true, true, false⟩, pushedReader) := by
  have hlength : lastReader.body.signature.params.length = 0 := rfl
  have hbefore : SlotTable.ofSignature standardWidths lastReader.body.signature = .ok {} := rfl
  simp [Applier.apply, hlength, flatten_push, Applier.applyFlat, Applier.run, hbefore,
    FlatScript.settledReorders, insert_push, Progress.changedSlots, pushedReader]

/-- The bound is met: the local goes one past the limit, as far as the parameter takes it. -/
theorem apply_stays_addressable_on_push :
    Applier.apply {} push lastReader = (.ok ⟨true, true, true, false⟩, pushedReader) ∧
      SlotTable.ofSignature standardWidths pushedReader.body.signature = .ok pushedReader.slots ∧
      (∀ i ∈ pushedReader.body.code, ∀ x, i.slot? = some x →
        x ≤ 65536 ∧ x ≠ placeholderSlot ∨ x = unreachableSlot) ∧
      ∀ l ∈ pushedReader.body.locals, l.slot ≤ 65536 := by
  have hcode : ∀ i ∈ lastReader.body.code, ∀ x, i.slot? = some x →
      x ≤ 65535 ∨ x = unreachableSlot := by
    intro i hi x hx
    left
    simp only [lastReader, List.mem_cons, List.not_mem_nil, or_false] at hi
    rcases hi with rfl | rfl <;> cases hx
    exact Nat.le_refl _
  have hlocals : ∀ l ∈ lastReader.body.locals, l.slot ≤ 65535 := by decide
  refine ⟨apply_push, (apply_stays_addressable standardWidths_pos (fun _ _ _ => rfl)
    (fun _ => rfl) (Nat.le_refl _) hcode hlocals).1 _ _ apply_push⟩

/-- What is no parameter may go past the last slot. -/
theorem apply_leaves_unaddressable :
    ¬ ∀ (s : Script) (m m' : Method) (changed : Changed),
      (∀ i ∈ m.body.code, ∀ x, i.slot? = some x → x ≤ maxSlot) →
      (∀ l ∈ m.body.locals, l.slot ≤ maxSlot) → Applier.apply {} s m = (.ok changed, m') →
      (∀ i ∈ m'.body.code, ∀ x, i.slot? = some x → x ≤ maxSlot ∨ x = unreachableSlot) ∧
        ∀ l ∈ m'.body.locals, l.slot ≤ maxSlot := by
  intro h
  have hcode : ∀ i ∈ lastReader.body.code, ∀ x, i.slot? = some x → x ≤ maxSlot := by
    intro i hi x hx
    simp only [lastReader, List.mem_cons, List.not_mem_nil, or_false] at hi
    rcases hi with rfl | rfl <;> cases hx
    exact Nat.le_refl _
  obtain ⟨-, hlocals⟩ := h push lastReader pushedReader _ hcode (by decide) apply_push
  exact absurd (hlocals ⟨"x", .int, 65536, {}⟩ (by decide)) (by decide)

end Reparam
