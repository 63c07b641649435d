import Reparam.Proofs.Apply.Outcome

/-! What applying a script does to the code of a method, said with the script alone: every operand
goes where its parameter went as the edits were read one after the other. -/
namespace Reparam

variable {a : Applier} {s : Script} {n : Nat} {types : List ValueType} {tr : Tracking}
  {tokens : List Token} {w : Widths} {serial : Nat} {o last : Origin}

namespace Row

/-- The slots that inserted parameters take and that others take beyond what they took before. -/
def growth (w : Widths) (types : List ValueType) : Row → Nat
  | [] => 0
  | (.inserted _, t) :: row => w t + growth w types row
  | (.reference k, t) :: row => (w t - w (types.getD k default)) + growth w types row

theorem growth_perm {row row' : Row} (h : row.Perm row') :
    growth w types row = growth w types row' := by
  induction h with
  | nil => rfl
  | cons q _ ih =>
    obtain ⟨_ | _, t⟩ := q <;> simp only [growth, ih]
  | swap p q row =>
    obtain ⟨_ | _, t⟩ := p <;> obtain ⟨_ | _, t'⟩ := q <;> simp only [growth] <;> omega
  | trans _ _ ih ih' => exact ih.trans ih'

/-- Parameters that never were anything else do not grow. -/
theorem growth_references (ks : List Nat) (row : Row) :
    growth w types (ks.map (fun k => (.reference k, types.getD k default)) ++ row) =
      growth w types row := by
  induction ks with
  | nil => rfl
  | cons k ks ih => rw [List.map_cons, List.cons_append, growth, ih, Nat.sub_self, Nat.zero_add]

end Row

namespace Script

/-- The parameters that a script leaves, by origin and type. -/
def result (s : Script) (types : List ValueType) : Row :=
  match s.origins types.length, s.replay types with
  | .ok left, .ok out => left.zip out
  | _, _ => []

/-- The code with the calls retyped behind the loads of every parameter that stays an object. -/
def retyped (s : Script) (types : List ValueType) (table : SlotTable) (code : Code) : Code :=
  (List.range types.length).foldl (fun code k =>
    match table.slotOf? k, (s.result types).lookup (.reference k) with
    | some slot, some t => code.retyped slot (types.getD k default) t
    | _, _ => code) code

end Script

namespace Tracking

/-! What flattening needs to know of types and widths. -/

theorem Reached.result_eq (h : Reached s types.length tr)
    (hreplay : s.replay types = .ok (tr.tokens.map (Token.typeIn types))) :
    s.result types = tr.tokens.map (Token.full types) := by
  rw [Script.result, h.origins, hreplay]
  exact List.zip_map' ..

theorem peak_eq (tokens : List Token) :
    peak w types tokens =
      Row.extent w ((passedOver Token.insertedType? tokens).map (Token.first types)) +
        Row.growth w types (tokens.map (Token.full types)) := by
  induction tokens with
  | nil => rfl
  | cons t tokens ih =>
    cases t with
    | inserted k t =>
      have hpick : Token.insertedType? (.inserted k t) = some t := rfl
      have hmax : max (w t) (w t) = w t := Nat.max_self _
      rw [passedOver_cons_some hpick]
      change max (w t) (w t) + peak w types tokens = _ + (w t + _)
      omega
    | reference k r =>
      have hpick : Token.insertedType? (.reference k r) = none := rfl
      rw [passedOver_cons_none hpick]
      change max (w (types.getD k default)) (w (Token.typeIn types (.reference k r))) +
        peak w types tokens = w (types.getD k default) + _ +
          (w (Token.typeIn types (.reference k r)) - w (types.getD k default) + _)
      omega

theorem growth_afterInsertions (tr : Tracking) (n : Nat) :
    Row.growth w types ((tr.afterInsertions n).map (Token.full types)) =
      Row.growth w types (tr.tokens.map (Token.full types)) := by
  rw [Row.growth_perm (afterInsertions_perm.map _)]
  simp only [List.map_append, List.map_map]
  exact (Row.growth_references _ _).trans (Row.growth_references _ _)

theorem Sound.peak_afterInsertions (h : tr.Sound types.length serial) :
    peak w types (tr.afterInsertions types.length) = Row.extent w (Row.ofTypes types) +
      Row.growth w types (tr.tokens.map (Token.full types)) := by
  rw [peak_eq, passedOver_first, ordinals_afterInsertions h, ← Row.ofTypes_eq_range,
    growth_afterInsertions]

/-- A parameter that the tracking retypes has its type in the end, and one that it leaves alone has
the type that it came with, if it is there in the end at all. -/
theorem Reached.lookup_result (h : Reached s types.length tr)
    (hresult : s.result types = tr.tokens.map (Token.full types)) {k : Nat}
    {r : Option ValueType} (hk : .reference k r ∈ tr.afterInsertions types.length) :
    (∀ t, r = some t → (s.result types).lookup (.reference k) = some t) ∧
      (r = none → ∀ t, (s.result types).lookup (.reference k) = some t →
        t = types.getD k default) := by
  have once : ((tr.tokens.map (Token.full types)).map (·.1)).Nodup := by
    rw [List.map_map]
    exact h.sound.nodup
  rw [hresult]
  constructor
  · rintro t rfl
    have hmem : Token.reference k (some t) ∈ tr.tokens := by
      have hmem := afterInsertions_perm.subset hk
      simpa using hmem
    exact (lookup_eq_some_iff_mem once).2 (List.mem_map_of_mem hmem)
  · rintro rfl t ht
    obtain ⟨token, htoken, he⟩ := List.mem_map.1 ((lookup_eq_some_iff_mem once).1 ht)
    rw [Token.full, Prod.mk.injEq] at he
    have hthere : token ∈ tr.afterInsertions types.length :=
      afterInsertions_perm.symm.subset
        (List.mem_append_right _ (List.mem_append_right _ htoken))
    have hsame : token = .reference k none :=
      List.inj_on_of_nodup_map h.sound.nodup_afterInsertions hthere hk he.1
    rw [← he.2, hsame]
    rfl

/-- The calls that a run retypes are those behind the loads of parameters that stay objects. -/
theorem Reached.retyped_eq (h : Reached s types.length tr) {table : SlotTable}
    (hresult : s.result types = tr.tokens.map (Token.full types))
    (htable : ∀ k < types.length, ∃ slot, table.slotOf? k = some slot) (code : Code) :
    (tr.afterInsertions types.length).foldl
        (Code.retypedFor (fun k => (table.slotOf? k).getD 0) types) code =
      s.retyped types table code := by
  rw [Script.retyped, ← ordinals_afterInsertions h.sound]
  have hlt {t : Token} {k : Nat} (ht : t ∈ tr.afterInsertions types.length)
      (hk : t.ordinal? = some k) : k < types.length := by
    rw [← List.mem_range, ← ordinals_afterInsertions h.sound]
    exact List.mem_filterMap.2 ⟨t, ht, hk⟩
  have hlookup {k : Nat} {r : Option ValueType} := h.lookup_result (k := k) (r := r) hresult
  generalize tr.afterInsertions types.length = tokens at hlt hlookup
  induction tokens generalizing code with
  | nil => rfl
  | cons t tokens ih =>
    have ih (code : Code) := ih code (fun ht hk => hlt (List.mem_cons_of_mem _ ht) hk)
      (fun hk => hlookup (List.mem_cons_of_mem _ hk))
    rw [List.foldl_cons, ih]
    cases t with
    | inserted serial t => rfl
    | reference k r =>
      obtain ⟨slot, hslot⟩ := htable k (hlt List.mem_cons_self rfl)
      rw [ordinals_reference, List.foldl_cons]
      refine congrArg (List.foldl _ · _) ?_
      obtain ⟨hsome, hnone⟩ := hlookup List.mem_cons_self
      cases r with
      | some t => simp only [Code.retypedFor, hslot, Option.getD_some, hsome t rfl]
      | none =>
        cases ht : (s.result types).lookup (.reference k) with
        | some t => simp only [Code.retypedFor, hslot, hnone rfl t ht, Code.retyped_self]
        | none => simp only [Code.retypedFor, hslot]

variable {g : Premises} {f : FlatScript} {b : Body} {p : Progress} {table : SlotTable}

/-- There is room for what comes in and for what grows if there is room behind the parameters. -/
theorem Sound.peak_le (h : tr.Sound types.length serial)
    (hbound : ((Row.ofTypes types).table g.applier.widths g.receiver).nextFree +
      Row.growth g.applier.widths types (tr.tokens.map (Token.full types)) ≤ g.bound) :
    g.receiver + peak g.applier.widths types (tr.afterInsertions types.length) ≤ g.bound := by
  rw [h.peak_afterInsertions, ← Nat.add_assoc, ← Row.nextFree_table]
  exact hbound

/-- A run takes a body that stands for its parameters to one that stands for those that the script
leaves. -/
theorem Reached.stands_after (h : Reached s types.length tr)
    (hresult : s.result types = tr.tokens.map (Token.full types))
    (hf : tr.toFlat types.length = .ok f)
    (htable : table = (Row.ofTypes types).table g.applier.widths g.receiver)
    (hbound : table.nextFree + Row.growth g.applier.widths types (s.result types) ≤ g.bound)
    (hb : SlotTable.ofSignature g.applier.widths b.signature = .ok table)
    (hstands : Stands g (Row.ofTypes types) table.siteOf b.code { body := b, table })
    (hrun : g.applier.run f b = .ok p) :
    Stands g (tr.tokens.map (Token.full types)) (tr.siteAfter g types)
      (s.retyped types table b.code) p := by
  subst htable
  have hslots (k : Nat) (hk : k < types.length) := Row.slotOf_ofTypes.2
    ⟨hk, (rfl : Row.start g.applier.widths (.reference k) g.receiver (Row.ofTypes types) = _)⟩
  rw [← h.retyped_eq hresult fun k hk => ⟨_, hslots k hk⟩]
  exact h.stands_run hf (h.sound.peak_le (hresult ▸ hbound)) (SlotTable.siteOf_ne_parked _)
    (SlotTable.siteOf_ne_generated _) (fun _ hk => Row.siteOf_starts g.widths_pos hk)
    (fun _ _ _ _ _ hsite => SlotTable.eq_of_siteOf hsite) hb hstands hrun

/-- Instructions of retyped code with a slot were there before. -/
theorem mem_of_mem_retyped {code : Code} {i : Instruction} {x : Nat}
    (hi : i ∈ s.retyped types table code) (hx : i.slot? = some x) : i ∈ code := by
  unfold Script.retyped at hi
  generalize List.range types.length = ks at hi
  induction ks generalizing code with
  | nil => exact hi
  | cons k ks ih =>
    have hmem := ih hi
    dsimp only at hmem
    split at hmem
    · exact Code.mem_of_mem_retyped hmem hx
    · exact hmem

/-- The code that stands for what a script leaves is put together from what becomes of the
instructions. -/
theorem Reached.forall₂_becomes (h : Reached s types.length tr) {code : Code}
    (hlimit : g.receiver + Row.extent g.applier.widths (Row.ofTypes types) ≤ slotLimit)
    (hplace : ∀ i ∈ code, ∀ x, i.slot? = some x → x < g.receiver ∨
      x ∈ ((Row.ofTypes types).table g.applier.widths g.receiver).entries.map (·.slot) ∨
      g.receiver + Row.extent g.applier.widths (Row.ofTypes types) ≤ x)
    (hat : ∀ i ∈ code, ∀ x, i.slot? = some x →
      (tr.siteAfter g types x).At g (tr.tokens.map (Token.full types)) i) (pieces : List Code) :
    List.Forall₂ (Becomes g.applier s types.length
        ((Row.ofTypes types).table g.applier.widths g.receiver)
        (Row.table g.applier.widths g.receiver (tr.tokens.map (Token.full types))) tr.origins)
      code pieces ↔ pieces = code.map fun i =>
        Code.placed g (tr.tokens.map (Token.full types)) (tr.siteAfter g types) [i] := by
  constructor
  · intro hpieces
    have hsame := hpieces.imp fun i piece hb => (h.eq_placed_of_becomes hlimit hb).symm
    rwa [← List.forall₂_map_left_iff, List.forall₂_eq_eq_eq, eq_comm] at hsame
  · rintro rfl
    rw [List.forall₂_map_right_iff, List.forall₂_same]
    exact fun i hi => h.becomes_placed (hplace i hi) (hat i hi)

end Tracking

open Tracking

/-- Applying a script to an orderly body rewrites every instruction as the script says, read one
edit after the other, and in no other way. Only the owners of calls change besides, behind the loads
of parameters that become objects of another class. -/
theorem apply_rewrites_code {m m' : Method} {changed : Changed} {before : SlotTable}
    (hw : ∀ t, 0 < a.widths t)
    (ha : ∀ slot actual expected, a.adapters slot actual expected = none)
    (hg : ∀ k code, a.generators.generate? k = some code → ∀ i ∈ code, i.slot? = none)
    (hb : SlotTable.ofSignature a.widths m.body.signature = .ok before)
    (ho : m.body.Orderly before (Row.growth a.widths m.body.signature.types
      (s.result m.body.signature.types)))
    (h : a.apply s m = (.ok changed, m')) :
    let types := m.body.signature.types
    ∃ left pieces, s.origins types.length = .ok left ∧
      s.replay types = .ok m'.body.signature.types ∧
      SlotTable.ofSignature a.widths m'.body.signature = .ok m'.slots ∧
      (∀ pieces', List.Forall₂ (Becomes a s types.length before m'.slots left)
        (s.retyped types before m.body.code) pieces' ↔ pieces' = pieces) ∧
      m'.body.code = pieces.flatten := by
  intro types
  have hlength : m.body.signature.params.length = types.length := by
    simp [types, Signature.types, Parameter.types]
  obtain ⟨f, p, hflat, hrun, rfl⟩ := Applier.apply_eq_ok h
  rw [hlength] at hflat
  obtain ⟨tr, hfollow, hf⟩ := flatten_eq_ok hflat
  have hreached := reached_of_follow hfollow
  have hreplay : s.replay types = .ok (tr.tokens.map (Token.typeIn types)) := by
    rw [replay_eq_follow, hfollow]
    rfl
  obtain ⟨hmade, hlimit⟩ := Row.ofSignature_eq_ok (Row.types_ofTypes _).symm hb
  have hinitial := stands_ofBody hw ha hg hb ho
  generalize hpremises : Premises.ofBody .. = g at hinitial
  obtain ⟨rfl, hreceiver, hbound⟩ : g.applier = a ∧ g.receiver = before.receiver ∧
      g.bound = before.nextFree + Row.growth a.widths types (s.result types) := by
    subst hpremises
    exact ⟨rfl, rfl, rfl⟩
  clear hpremises
  have hbefore : before = (Row.ofTypes types).table g.applier.widths g.receiver := by
    rw [hreceiver, hmade]
    rfl
  subst hbefore
  have hreach : g.receiver + Row.extent g.applier.widths (Row.ofTypes types) ≤ slotLimit := by
    rw [hreceiver, hmade]
    exact hlimit
  have hfinal := hreached.stands_after (hreached.result_eq hreplay) hf rfl
    (Nat.le_of_eq hbound.symm) hb hinitial hrun
  have hplace : ∀ i ∈ s.retyped types
      ((Row.ofTypes types).table g.applier.widths g.receiver) m.body.code, ∀ x, i.slot? = some x →
      x < g.receiver ∨
      x ∈ ((Row.ofTypes types).table g.applier.widths g.receiver).entries.map (·.slot) ∨
      g.receiver + Row.extent g.applier.widths (Row.ofTypes types) ≤ x := by
    intro i hi x hx
    rw [← Row.nextFree_table]
    exact ho.place (by rwa [Row.nextFree_table]) (mem_of_mem_retyped hi hx) hx
  have hpieces := hreached.forall₂_becomes hreach hplace hfinal.sites
  rw [← hfinal.table] at hpieces
  refine ⟨tr.origins, _, hreached.origins, ?_, ?_, hpieces, ?_⟩
  · rw [hreplay, hfinal.types, Row.types, List.map_map]
    rfl
  · rw [hfinal.table, ← hfinal.receiver]
    exact Row.ofSignature_of_le hfinal.types (hfinal.receiver ▸ hfinal.fits.limit)
  · rw [hfinal.code, Code.placed, List.flatMap_def]
    refine congrArg List.flatten (List.map_congr_left fun i _ => ?_)
    exact (List.flatMap_singleton ..).symm

theorem standardWidths_pos (t : ValueType) : 0 < standardWidths t := by
  unfold standardWidths
  split <;> decide

/-- A method that calls its second parameter. -/
def caller : Method where
  body :=
    { signature := ⟨[.unnamed .long, .unnamed (.object "A")], none, true⟩
      locals := [⟨"x", .long, 0, {}⟩, ⟨"y", .object "A", 2, {}⟩]
      code := [.load 0 .long, .load 2 .reference, .invoke "A" "f" "()V", .store 3 .int] }

/-- The same method with the parameters in the other order, one of them of another class. -/
def swappedCaller : Method where
  body :=
    { signature := ⟨[.unnamed (.object "B"), .unnamed .long], none, true⟩
      locals := [⟨"x", .long, 1, {}⟩, ⟨"y", .object "B", 0, {}⟩]
      code := [.load 1 .long, .load 0 .reference, .invoke "B" "f" "()V", .store 3 .int] }
  slots := ⟨0, [⟨0, 1⟩, ⟨1, 2⟩]⟩

def swapCaller : Script := [.replace 1 (.object "B"), .swap 0 1]

theorem flatten_swapCaller : swapCaller.flatten 2 =
    .ok { replacements := [(1, .object "B")], reorders := [.swap 0 1] } := by
  let tr : Tracking := ⟨[.reference 1 (some (.object "B")), .reference 0 none], []⟩
  have hfollow : follow 0 swapCaller (initial 2) = .ok tr := rfl
  have hremovals : tr.beforeRemovals 2 = tr.tokens := rfl
  have hreorders : tr.beforeReorders 2 =
      [.reference 0 none, .reference 1 (some (.object "B"))] := by
    simp [beforeReorders, hremovals, tr, List.mergeSort, List.MergeSort.Internal.splitInTwo,
      Token.ordinal?, refill]
  simp only [Script.flatten, hfollow, toFlat, reorders, afterInsertions, hreorders]
  rfl

theorem apply_swapCaller :
    Applier.apply {} swapCaller caller = (.ok ⟨true, true, true, true⟩, swappedCaller) := by
  have hlength : caller.body.signature.params.length = 2 := rfl
  simp only [Applier.apply, Applier.applyFlat, hlength, flatten_swapCaller, Applier.run,
    Applier.insertAll_nil, Applier.removeAll_nil, Applier.inlineAll_nil,
    FlatScript.settledReorders, ascendingByFirst, descendingByFirst_nil, List.mergeSort_nil]
  rfl

theorem apply_rewrites_code_on_swap :
    Applier.apply {} swapCaller caller = (.ok ⟨true, true, true, true⟩, swappedCaller) ∧
      ∃ left pieces, swapCaller.origins 2 = .ok left ∧
        swapCaller.replay [.long, .object "A"] = .ok [.object "B", .long] ∧
        SlotTable.ofSignature standardWidths swappedCaller.body.signature =
          .ok swappedCaller.slots ∧
        (∀ pieces', List.Forall₂
          (Becomes {} swapCaller 2 ⟨0, [⟨0, 2⟩, ⟨2, 1⟩]⟩ swappedCaller.slots left)
          (swapCaller.retyped [.long, .object "A"] ⟨0, [⟨0, 2⟩, ⟨2, 1⟩]⟩ caller.body.code) pieces' ↔
            pieces' = pieces) ∧
        swappedCaller.body.code = pieces.flatten := by
  refine ⟨apply_swapCaller, apply_rewrites_code ?_ (fun _ _ _ => rfl) ?_ rfl ?_ apply_swapCaller⟩
  · exact standardWidths_pos
  · intro k code h
    cases h
  · decide

theorem mem_flatten_of_plain {before after : SlotTable} {left : List Origin} {code : Code}
    {pieces : List Code} {i : Instruction}
    (h : List.Forall₂ (Becomes a s n before after left) code pieces) (hi : i ∈ code)
    (hs : i.slot? = none) : i ∈ pieces.flatten := by
  induction h with
  | nil => cases hi
  | cons hpiece _ ih =>
    rw [List.flatten_cons, List.mem_append]
    rcases List.mem_cons.1 hi with rfl | hi
    · cases hpiece with
      | plain => exact .inl List.mem_cons_self
      | _ hx => simp [hs] at hx
    · exact .inr (ih hi)

/-- A call has no slot, and still its owner changes. -/
theorem apply_changes_owner :
    ¬ ∀ (s : Script) (m m' : Method) (changed : Changed) (before : SlotTable),
      SlotTable.ofSignature standardWidths m.body.signature = .ok before →
      m.body.Orderly before (Row.growth standardWidths m.body.signature.types
        (s.result m.body.signature.types)) →
      Applier.apply {} s m = (.ok changed, m') →
      ∃ left pieces, s.origins m.body.signature.types.length = .ok left ∧
        List.Forall₂ (Becomes {} s m.body.signature.types.length before m'.slots left)
          m.body.code pieces ∧ m'.body.code = pieces.flatten := by
  intro h
  obtain ⟨left, pieces, -, hpieces, hcode⟩ :=
    h swapCaller caller _ _ ⟨0, [⟨0, 2⟩, ⟨2, 1⟩]⟩ rfl (by decide) apply_swapCaller
  have hcall : .invoke "A" "f" "()V" ∈ swappedCaller.body.code := by
    rw [hcode]
    exact mem_flatten_of_plain hpieces (by decide) rfl
  revert hcall
  decide

end Reparam
