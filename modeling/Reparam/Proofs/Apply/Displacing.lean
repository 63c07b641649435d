import Reparam.Proofs.Apply.Noting
import Reparam.Proofs.Apply.Rewriting
import Reparam.Proofs.Flatten.Reordering

/-! When an application notes that slots moved: if the table is another one, or if parameters that
stay change their order. A parameter that takes the place of another one in a table that looks the
same goes unnoted otherwise. -/
namespace Reparam

variable {a : Applier} {w : Widths} {sig sig' : Signature} {table before after : SlotTable}
  {types types' : List ValueType} {p p' : Progress} {order : List Nat} {n i j x y : Nat}

/-! Parameters start one behind the other. -/

namespace SlotTable

theorem slotOf_lt (hw : ∀ t, 0 < w t) (h : ofSignature w sig = .ok table) (hij : i < j)
    (hi : table.slotOf? i = some x) (hj : table.slotOf? j = some y) : x < y := by
  have hparams : sig.types = (sig.types.map (·, "")).map (·.1) := by
    simp [Function.comp_def]
  obtain ⟨-, rfl⟩ := (slotOf_eq_some h hparams).1 hi
  obtain ⟨hlt, rfl⟩ := (slotOf_eq_some h hparams).1 hj
  exact Nat.add_lt_add_left (span_take_lt hw hij (Nat.le_of_lt hlt)) _

theorem lt_of_slotOf (hw : ∀ t, 0 < w t) (h : ofSignature w sig = .ok table)
    (hi : table.slotOf? i = some x) (hj : table.slotOf? j = some y) (hxy : x < y) : i < j := by
  rcases Nat.lt_trichotomy i j with hlt | rfl | hlt
  · exact hlt
  · rw [hi, Option.some.injEq] at hj
    omega
  · exact absurd hxy (Nat.lt_asymm (slotOf_lt hw h hlt hj hi))

end SlotTable

namespace Applier

/-- If no slot is moved, no parameter is. -/
theorem order_eq_range_of_movedSlots (hw : ∀ t, 0 < w t)
    (hbefore : SlotTable.ofSignature w sig = .ok before)
    (hafter : SlotTable.ofSignature w sig' = .ok after)
    (hlength : sig'.types.length = sig.types.length)
    (hperm : order.Perm (List.range sig.types.length))
    (hnone : movedSlots before after order = []) : order = List.range sig.types.length := by
  have hstays : ∀ new old x y, order[new]? = some old → before.slotOf? old = some x →
      after.slotOf? new = some y → x = y := by
    intro new old x y hnew hx hy
    by_contra hne
    have hmem := mem_movedSlots.2 ⟨old, new, hnew, hx, hy, hne⟩
    rw [hnone] at hmem
    cases hmem
  -- starts ascend with the places in both tables, so the places before ascend with those after
  have hlen := hperm.length_eq
  rw [List.length_range] at hlen
  refine eq_range_of_ascending (List.pairwise_iff_getElem.2 fun i j hi hj hij => ?_)
    (fun i hi => List.mem_range.1 (hperm.subset hi)) hlen
  have hstart : ∀ k (hk : k < order.length), ∃ x, before.slotOf? order[k] = some x ∧
      after.slotOf? k = some x := by
    intro k hk
    have hold := List.mem_range.1 (hperm.subset (List.getElem_mem hk))
    obtain ⟨x, hx⟩ := SlotTable.exists_slotOf (SlotTable.entries_length hbefore ▸ hold)
    obtain ⟨y, hy⟩ := @SlotTable.exists_slotOf after k (by
      rw [SlotTable.entries_length hafter]
      omega)
    exact ⟨x, hx, hstays k _ x y (List.getElem?_eq_getElem hk) hx hy ▸ hy⟩
  obtain ⟨x, hx, hx'⟩ := hstart i hi
  obtain ⟨y, hy, hy'⟩ := hstart j hj
  exact SlotTable.lt_of_slotOf hw hbefore hx hy (SlotTable.slotOf_lt hw hafter hij hx' hy')

/-- Steps that do not note slots do not note any one after the other. -/
theorem slots_foldlM {β : Type} {step : Progress → β → Except Stopped Progress} {edits : List β}
    (hstep : ∀ {p p' e}, step p e = .ok p' → p'.changed.slots = p.changed.slots)
    (h : edits.foldlM step p = .ok p') : p'.changed.slots = p.changed.slots :=
  @foldlM_keeps _ _ _ _ (fun q => q.changed.slots = p.changed.slots) _ _ _
    (fun _ _ _ _ hq hs => (hstep hs).trans hq) rfl h

/-- A reordering notes that slots moved unless the order is the one there is. -/
theorem slots_permute (hw : ∀ t, 0 < a.widths t) (h : Tabled a.widths sig types p)
    (hperm : order.Perm (List.range types.length))
    (horder : order.map (types[·]?) = types'.map some) (hp : a.permute order p = .ok p') :
    p'.changed.slots = true ↔ p.changed.slots = true ∨ order ≠ List.range order.length := by
  have h' := h.permute hperm horder hp
  rcases notes_permute hp with ⟨hrange, rfl⟩ | ⟨hother, hn⟩
  · simp [← hrange]
  · have hmoved : movedSlots p.table p'.table order ≠ [] := fun hnone => hother <| by
      have hlength := congrArg List.length horder
      rw [List.length_map, List.length_map, hperm.length_eq, List.length_range] at hlength
      rw [← h.types] at hperm
      have hrange := order_eq_range_of_movedSlots hw h.table h'.table
        (by rw [h.types, h'.types, hlength]) hperm hnone
      rw [hrange, List.length_range]
    rw [hn.slots_eq]
    simp [hmoved, hother]

end Applier

/-- Places that hold what they held before are all places in order. -/
theorem order_eq_range_of_nodup {α : Type} {xs : List α} (hnodup : xs.Nodup)
    (horder : order.map (xs[·]?) = xs.map some) : order = List.range order.length := by
  have hlength : order.length = xs.length := by simpa using congrArg List.length horder
  refine List.ext_getElem (by simp) fun i hi hi' => ?_
  have hplace := congrArg (·[i]?) horder
  simp only [List.getElem?_map, List.getElem?_eq_getElem hi, Option.map_some,
    List.getElem?_eq_getElem (hlength ▸ hi), Option.some.injEq] at hplace
  obtain ⟨hlt, hsame⟩ := List.getElem?_eq_some_iff.1 hplace
  rw [List.getElem_range]
  exact (hnodup.getElem_inj_iff).1 hsame

namespace Tracking

variable {α : Type} {fresh : ValueType → α} {retype : ValueType → α → α} {labels : List α}
  {I : List α → Progress → Prop} {s : Script} {tr : Tracking} {f : FlatScript} {b : Body}

/-- The first three phases bring a body in line with the tokens before reordering. -/
theorem Reached.carried (h : Reached s labels.length tr) (hf : tr.toFlat labels.length = .ok f)
    (hc : Carries a fresh retype I) {p1 p2 p3 : Progress} (hI : I labels p)
    (h1 : a.insertAll f.insertions p = .ok p1)
    (h2 : a.replaceAll f.replacements p1 = .ok p2)
    (h3 : a.substituteAll (descendingByFirst f.substitutions) [] p2 = .ok p3) :
    I ((tr.beforeReorders labels.length).map (Token.labelIn fresh retype labels)) p3 := by
  obtain ⟨pairs, hpairs, rfl⟩ := toFlat_eq_ok hf
  obtain ⟨xs1, hxs1, hI1⟩ := hc.insertAll hI h1
  rw [ascendingByFirst_eq located_pairwise,
    run_insertions (ordinals_afterInsertions h.sound)] at hxs1
  cases hxs1
  obtain ⟨xs2, hxs2, hI2⟩ := hc.replaceAll hI1 h2
  rw [run_replacements] at hxs2
  cases hxs2
  obtain ⟨xs3, hxs3, hI3⟩ := hc.substituteAll (pairwise_descendingByFirst _) (by simp) hI2 h3
  rw [run_substitutions h hpairs] at hxs3
  cases hxs3
  exact hI3

/-- The reorders change the order if and only if the parameters that stay are in another order. -/
theorem Reached.order_iff (h : Reached s n tr) (hf : tr.toFlat n = .ok f)
    (horder : Applier.orderOf (tr.beforeReorders n).length f.settledReorders
      (List.range (tr.beforeReorders n).length) = .ok order) :
    order = List.range order.length ↔ (ordinals tr.tokens).Pairwise (· < ·) := by
  have hplaces := map_getElem_of_run (d := .inserted 0 default)
    (fun _ _ => h.run_settledReorders hf) horder
  obtain ⟨-, hperm⟩ := @Applier.orderOf_eq_ok _ _ _ _ (fun _ => 0) (fun _ k => k) horder
    List.length_range
  rw [← h.sound.beforeReorders_eq_iff]
  constructor
  · exact fun hrange => (eq_of_order_range hperm hplaces hrange).symm
  · intro hsame
    rw [← hsame] at hplaces
    exact order_eq_range_of_nodup h.sound.nodup_beforeReorders.of_map hplaces

/-- Slots moved if the table is another one in the end, or if parameters that stay are in another
order. -/
theorem Reached.slots_iff (hw : ∀ t, 0 < a.widths t)
    (h : Reached s b.signature.types.length tr) (hf : tr.toFlat b.signature.types.length = .ok f)
    (hrun : a.run f b = .ok p') :
    ∃ before, SlotTable.ofSignature a.widths b.signature = .ok before ∧
      (p'.changed.slots = true ↔
        p'.table ≠ before ∨ ¬ (ordinals tr.tokens).Pairwise (· < ·)) := by
  obtain ⟨before, p1, p2, p3, p4, p5, p6, hbefore, h1, h2, h3, h4, h5, h6, rfl⟩ :=
    Applier.run_phases hrun
  refine ⟨before, hbefore, ?_⟩
  have hc := Tabled.carries a b.signature
  have hinitial : Tabled a.widths b.signature b.signature.types { body := b, table := before } :=
    ⟨rfl, rfl, rfl, hbefore⟩
  have htabled3 := h.carried hf hc hinitial h1 h2 h3
  obtain ⟨order, horder, hp⟩ := Applier.reorderAll_eq_ok h4
  have hlength := hc.length_params htabled3
  rw [List.length_map] at hlength
  have hiff := h.order_iff hf (hlength ▸ horder)
  -- only the reorders note slots before the tables are compared
  have hslots2 : p2.changed.slots = false :=
    (Applier.slots_foldlM (fun hq => (Applier.notes_replace hq).slots_same rfl) h2).trans
      (Applier.slots_foldlM (fun hq => (Applier.notes_insert hq).slots_same rfl) h1)
  have hslots3 : p3.changed.slots = false :=
    @Applier.substituteAll_keeps a (fun q => q.changed.slots = false) _ _ _ _
      (fun hq hs => ((Applier.notes_substitute hs).slots_same rfl).trans hq) hslots2 h3
  obtain ⟨ys, -, hperm, hplaces⟩ := @Applier.orderOf_run _ (fun t => t) (fun t _ => t) _ _ _ _ _
    (hc.length_params htabled3 ▸ horder) (.refl _) (map_range_getElem _)
  have hslots4 : p4.changed.slots = true ↔ order ≠ List.range order.length := by
    simpa [hslots3] using Applier.slots_permute hw htabled3 hperm hplaces hp
  have hslots6 : p6.changed.slots = p4.changed.slots :=
    (Applier.slots_foldlM (fun hq => (Applier.notes_inline hq).slots_same rfl) h6).trans
      (Applier.slots_foldlM (fun hq => (Applier.notes_remove hq).slots_same rfl) h5)
  rw [← hiff]
  split
  · simp [*]
  · simp [*, Progress.changedSlots]

end Tracking

section

variable {left : List Origin}

theorem mem_filterMap_ordinal {k : Nat} :
    k ∈ left.filterMap Origin.ordinal? ↔ .reference k ∈ left := by
  rw [List.mem_filterMap]
  constructor
  · rintro ⟨o, ho, hk⟩
    cases o <;> cases hk
    exact ho
  · exact fun h => ⟨_, h, rfl⟩

/-- In as many places as there were, the parameters that were there are where they were if they are
in order and if none came in or none is gone. -/
theorem eq_references (hlength : left.length = n)
    (hsorted : (left.filterMap Origin.ordinal?).Pairwise (· < ·))
    (hbound : ∀ k, .reference k ∈ left → k < n)
    (h : (∀ serial, .inserted serial ∉ left) ∨ ∀ k < n, .reference k ∈ left) :
    left = (List.range n).map .reference := by
  have hall : ∀ o ∈ left, o.ordinal?.isSome := by
    rcases h with hnone | hall
    · intro o ho
      cases o with
      | reference k => rfl
      | inserted serial => exact (hnone serial ho).elim
    · rw [← List.filterMap_length_eq_length]
      have hsub : List.range n ⊆ left.filterMap Origin.ordinal? := fun k hk =>
        mem_filterMap_ordinal.2 (hall k (List.mem_range.1 hk))
      have hle := (List.subperm_of_subset List.nodup_range hsub).length_le
      have hge := List.length_filterMap_le Origin.ordinal? left
      rw [List.length_range] at hle
      omega
  have hsame : (left.filterMap Origin.ordinal?).map .reference = left := by
    rw [List.map_filterMap]
    refine (List.filterMap_congr fun o ho => ?_).trans List.filterMap_some
    have hsome := hall o ho
    cases o <;> [rfl; cases hsome]
  have hlen : (left.filterMap Origin.ordinal?).length = n := by
    rw [List.filterMap_length_eq_length.2 hall, hlength]
  have hrange := eq_range_of_ascending hsorted
    (fun k hk => hbound k (mem_filterMap_ordinal.1 hk)) hlen
  rw [← hrange, hsame]

end

/-- In a table as long as the first one, the parameters that a script leaves fill all places. -/
theorem Tracking.Reached.length_origins {s : Script} {tr : Tracking} {f : FlatScript} {b : Body}
    (h : Reached s b.signature.types.length tr) (hf : tr.toFlat b.signature.types.length = .ok f)
    (hp : a.run f b = .ok p') (hbefore : SlotTable.ofSignature a.widths b.signature = .ok before)
    (htable : p'.table = before) : tr.origins.length = b.signature.types.length := by
  obtain ⟨hreplay, -, -, hafter⟩ := Applier.run_signature hp
  rw [h.replay_toFlat hf, Except.ok.injEq] at hreplay
  have hlength := SlotTable.entries_length hafter
  rw [htable, SlotTable.entries_length hbefore, ← hreplay, List.length_map] at hlength
  rw [Tracking.origins, List.length_map, hlength]

/-- An application notes that slots moved if and only if the table is another one in the end or the
parameters that stay are in another order. Whatever stays and starts elsewhere is noted, unless the
table is the same, something else came in and something is gone. -/
theorem apply_notes_slots (hw : ∀ t, 0 < a.widths t) {s : Script} {m m' : Method} {changed : Changed}
    (h : a.apply s m = (.ok changed, m')) :
    let n := m.body.signature.params.length
    ∃ before left, SlotTable.ofSignature a.widths m.body.signature = .ok before ∧
      s.origins n = .ok left ∧
      (changed.slots = true ↔
        m'.slots ≠ before ∨ ¬ (left.filterMap Origin.ordinal?).Pairwise (· < ·)) ∧
      ∀ j k : Nat, left[j]? = some (.reference k) → before.slotOf? k ≠ m'.slots.slotOf? j →
        changed.slots = true ∨
          j ≠ k ∧ (∃ serial, .inserted serial ∈ left) ∧ ∃ i < n, .reference i ∉ left := by
  obtain ⟨f, hf, h⟩ := Applier.exists_flat_of_apply h
  obtain ⟨p, hp, rfl, rfl⟩ := Applier.applyFlat_eq_ok h
  obtain ⟨tr, hfollow, hf⟩ := Tracking.flatten_eq_ok hf
  have hreached := Tracking.reached_of_follow hfollow
  have hn : m.body.signature.params.length = m.body.signature.types.length := by
    simp [Signature.types, Parameter.types]
  rw [hn] at hreached hf ⊢
  obtain ⟨before, hbefore, hslots⟩ := hreached.slots_iff hw hf hp
  rw [← tr.ordinals_origins] at hslots
  refine ⟨before, tr.origins, hbefore, hreached.origins, hslots, fun j k hj hmoved => ?_⟩
  refine Classical.or_iff_not_imp_left.2 fun hunnoted => ?_
  rw [hslots, not_or, not_not, not_not] at hunnoted
  obtain ⟨htable, hsorted⟩ := hunnoted
  have hlength := hreached.length_origins hf hp hbefore htable
  have hplace : j ≠ k := by
    rintro rfl
    exact hmoved (by rw [htable])
  refine ⟨hplace, ?_⟩
  by_contra hneither
  have hall := eq_references hlength hsorted (fun i hi => ((hreached.sound.alive i).1 hi).1) <| by
    rw [not_and_or] at hneither
    push Not at hneither
    exact hneither
  rw [hall, List.getElem?_map, Option.map_eq_some_iff] at hj
  obtain ⟨i, hi, ⟨⟩⟩ := hj
  obtain ⟨hlt, hval⟩ := List.getElem?_eq_some_iff.1 hi
  rw [List.getElem_range] at hval
  exact hplace hval

theorem apply_notes_slots_on_swap :
    ∃ before left, SlotTable.ofSignature standardWidths caller.body.signature = .ok before ∧
      swapCaller.origins 2 = .ok left ∧
      (swappedCaller.slots ≠ before ∨ ¬ (left.filterMap Origin.ordinal?).Pairwise (· < ·)) := by
  obtain ⟨before, left, hbefore, hleft, hiff, -⟩ :=
    apply_notes_slots standardWidths_pos apply_swapCaller
  exact ⟨before, left, hbefore, hleft, hiff.1 rfl⟩

/-- A method with two parameters of one type, of which it reads the first. -/
def pair : Method where
  body :=
    { signature := ⟨[.unnamed .int, .unnamed .int], none, true⟩
      locals := [⟨"x", .int, 0, {}⟩, ⟨"y", .int, 1, {}⟩]
      code := [.load 0 .int, .ret] }

/-- The first parameter has taken the place of the second, and another one its own. -/
def pushedPair : Method where
  body :=
    { signature := ⟨[.generated .int "injected_0", .unnamed .int], none, true⟩
      locals := [⟨"injected_0", .int, 0, {}⟩, ⟨"x", .int, 1, {}⟩]
      code := [.load 1 .int, .ret] }
  slots := ⟨0, [⟨0, 1⟩, ⟨1, 1⟩]⟩

def pushPair : Script := [.insert 0 .int, .remove 2]

theorem flatten_pushPair : pushPair.flatten 2 =
    .ok { insertions := [(0, .int)], removals := [2] } := by
  let tr : Tracking := ⟨[.inserted 0 .int, .reference 0 none], [(1, .removed)]⟩
  have hfollow : Tracking.follow 0 pushPair (.initial 2) = .ok tr := rfl
  have hremovals : tr.beforeRemovals 2 =
      [.inserted 0 .int, .reference 0 none, .reference 1 none] := rfl
  have hreorders : tr.beforeReorders 2 =
      [.inserted 0 .int, .reference 0 none, .reference 1 none] := by
    simp [Tracking.beforeReorders, hremovals, List.mergeSort, List.MergeSort.Internal.splitInTwo,
      Token.ordinal?, Tracking.refill]
  simp only [Script.flatten, hfollow, Tracking.toFlat, Tracking.reorders, Tracking.afterInsertions,
    hreorders]
  rfl

/-- Both parameters are there, behind the new one. -/
def crowdedPair : Progress where
  body :=
    { signature := ⟨[.generated .int "injected_0", .unnamed .int, .unnamed .int], none, true⟩
      locals := [⟨"injected_0", .int, 0, {}⟩, ⟨"x", .int, 1, {}⟩, ⟨"y", .int, 2, {}⟩]
      code := [.load 1 .int, .ret] }
  table := ⟨0, [⟨0, 1⟩, ⟨1, 1⟩, ⟨2, 1⟩]⟩
  changed := { signature := true, instructions := true }

theorem insert_pushPair :
    Applier.insert {} ⟨pair.body, pushedPair.slots, {}⟩ 0 .int = .ok crowdedPair := by
  let declared : Body := { crowdedPair.body with
    locals := [⟨"injected_0", .int, 0, {}⟩, ⟨"x", .int, 0, {}⟩, ⟨"y", .int, 1, {}⟩]
    code := pair.body.code }
  have htake : Snapshot.take standardWidths pair.body =
      ⟨[⟨"x", .int, 0, 1⟩, ⟨"y", .int, 1, 1⟩], [0]⟩ :=
    congrArg₂ Snapshot.mk (List.mergeSort_of_pairwise (by decide)) (List.mergeSort_singleton ..)
  have hchanges : Snapshot.changes ⟨[⟨"x", .int, 0, 1⟩, ⟨"y", .int, 1, 1⟩], [0]⟩ standardWidths
      declared = ⟨[], [(⟨"injected_0", .int, 0, 1⟩, 0)]⟩ :=
    congrArg (Snapshot.Changes.mk _) (List.mergeSort_singleton ..)
  change (do
    let p : Progress := ⟨declared, pushedPair.slots, {}⟩
    let snapshot := Snapshot.take standardWidths pair.body
    return (← (p.reconcile standardWidths snapshot).rebuild standardWidths).changedSignature) = _
  simp only [htake, Progress.reconcile, Snapshot.reconcile, Snapshot.reconcileCount, hchanges]
  rfl

theorem remove_pushPair : Applier.remove {} crowdedPair 2 =
    .ok ⟨pushedPair.body, pushedPair.slots, ⟨true, false, true, true⟩⟩ := by
  let dropped : Progress := { crowdedPair with body := pushedPair.body }
  have htake : Snapshot.take standardWidths crowdedPair.body =
      ⟨[⟨"injected_0", .int, 0, 1⟩, ⟨"x", .int, 1, 1⟩, ⟨"y", .int, 2, 1⟩], [1]⟩ :=
    congrArg₂ Snapshot.mk (List.mergeSort_of_pairwise (by decide)) (List.mergeSort_singleton ..)
  have hchanges : Snapshot.changes
      ⟨[⟨"injected_0", .int, 0, 1⟩, ⟨"x", .int, 1, 1⟩, ⟨"y", .int, 2, 1⟩], [1]⟩ standardWidths
      dropped.body = ⟨[⟨"y", .int, 2, 1⟩], []⟩ :=
    congrArg (Snapshot.Changes.mk _) List.mergeSort_nil
  change (do
    let snapshot := Snapshot.take standardWidths crowdedPair.body
    return (← (dropped.reconcile standardWidths snapshot).rebuild standardWidths).changedFrames) = _
  simp only [htake, Progress.reconcile, Snapshot.reconcile, Snapshot.reconcileCount, hchanges]
  rfl

theorem apply_pushPair :
    Applier.apply {} pushPair pair = (.ok ⟨true, false, true, true⟩, pushedPair) := by
  have hlength : pair.body.signature.params.length = 2 := rfl
  have hbefore : SlotTable.ofSignature standardWidths pair.body.signature =
      .ok pushedPair.slots := rfl
  simp [Applier.apply, hlength, flatten_pushPair, Applier.applyFlat, Applier.run, hbefore,
    FlatScript.settledReorders, insert_pushPair, remove_pushPair]

/-- A parameter that stays takes the place of one that is removed, and no slot counts as moved. -/
theorem apply_overlooks_slot : ¬ ∀ (s : Script) (m m' : Method) (changed : Changed)
    (before : SlotTable) (left : List Origin) (j k : Nat),
    Applier.apply {} s m = (.ok changed, m') →
    SlotTable.ofSignature standardWidths m.body.signature = .ok before →
    s.origins m.body.signature.params.length = .ok left → left[j]? = some (.reference k) →
    before.slotOf? k ≠ m'.slots.slotOf? j → changed.slots = true := by
  intro h
  have hslots := h pushPair pair pushedPair _ pushedPair.slots [.inserted 0, .reference 0] 1 0
    apply_pushPair rfl rfl rfl (by decide)
  cases hslots

end Reparam
