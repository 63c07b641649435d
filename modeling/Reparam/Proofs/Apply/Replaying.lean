import Reparam.Proofs.Apply.Following
import Reparam.Proofs.Locals.Laid

/-! The signature of a method follows the replay of the script that is applied to it, whatever the
body, the script and the applier are. -/
namespace Reparam

variable {a : Applier} {s : Signature} {types types' : List ValueType} {p p' : Progress}
  {index d : Nat} {t : ValueType} {order : List Nat}

/-- The parameters have the given types, the rest of the signature is that of another one, and the
table is made from it. -/
structure Tabled (w : Widths) (s : Signature) (types : List ValueType) (p : Progress) : Prop where
  types : p.body.signature.types = types
  result : p.body.signature.result = s.result
  isStatic : p.body.signature.isStatic = s.isStatic
  table : SlotTable.ofSignature w p.body.signature = .ok p.table

namespace Tabled

/-- Other parameters, with the table made anew. -/
theorem of_params {w : Widths} {params : List Parameter} (h : Tabled w s types p)
    (htable : SlotTable.ofSignature w { p.body.signature with params } = .ok p'.table)
    (htypes : Signature.types { p.body.signature with params } = types')
    (hsignature : p'.body.signature = { p.body.signature with params }) :
    Tabled w s types' p' where
  types := hsignature ▸ htypes
  result := (congrArg Signature.result hsignature).trans h.result
  isStatic := (congrArg Signature.isStatic hsignature).trans h.isStatic
  table := hsignature ▸ htable

theorem of_code {w : Widths} {code : Code} (h : Tabled w s types p)
    (hbody : p'.body = { p.body with code }) (htable : p'.table = p.table) :
    Tabled w s types p' := by
  have hmade : SlotTable.ofSignature w { p.body.signature with
      params := p.body.signature.params } = .ok p'.table := htable ▸ h.table
  exact h.of_params hmade h.types (by rw [hbody])

theorem insert (h : Tabled a.widths s types p) (hp : a.insert p index t = .ok p') :
    Tabled a.widths s (types.insertIdx index t) p' := by
  obtain ⟨declared, position, -, -, -, hbody, htable⟩ := Applier.insert_eq_ok hp
  refine h.of_params htable ?_ (congrArg Body.signature hbody)
  rw [← h.types]
  exact Signature.types_insertIdx ..

theorem replace (h : Tabled a.widths s types p) (hp : a.replace p index t = .ok p') :
    Tabled a.widths s (types.modify index fun _ => t) p' := by
  obtain ⟨entry, param, r, -, -, hr, hbody, htable⟩ := Applier.replace_eq_ok hp
  obtain ⟨code, hcode⟩ := a.exists_adaptCode entry.slot param.type t r
  rw [hcode, hr] at hbody
  refine h.of_params htable ?_ (congrArg Body.signature hbody)
  rw [← h.types, ← List.set_eq_modify]
  exact Signature.types_set ..

theorem dropParameter {w : Widths} (h : Tabled w s types p)
    (hp : p.dropParameter w index d = .ok p') : Tabled w s (types.eraseIdx index) p' := by
  obtain ⟨entry, i, l, -, -, -, hbody, htable⟩ := Progress.dropParameter_eq_ok hp
  refine h.of_params htable ?_ (congrArg Body.signature hbody)
  rw [← h.types]
  exact Signature.types_eraseIdx ..

theorem permute (h : Tabled a.widths s types p) (hperm : order.Perm (List.range types.length))
    (horder : order.map (types[·]?) = types'.map some) (hp : a.permute order p = .ok p') :
    Tabled a.widths s types' p' := by
  rcases Applier.permute_eq_ok hp with ⟨hrange, rfl⟩ | ⟨hbody, htable⟩
  · rw [eq_of_order_range hperm horder hrange]
    exact h
  · refine h.of_params htable (Signature.types_filterMap ?_) (congrArg Body.signature hbody)
    rw [h.types]
    exact horder

/-- Applying keeps signature and table in line with the types. -/
theorem carries (a : Applier) (s : Signature) :
    Carries a (fun t => t) (fun t _ => t) (Tabled a.widths s) where
  length_params h := by
    rw [← h.types, Signature.types, Parameter.types, List.length_map]
  length_entries h := by rw [SlotTable.entries_length h.table, h.types]
  of_code h hbody htable := h.of_code hbody htable
  insert h _ hp := h.insert hp
  replace h _ hp := h.replace hp
  drop h _ hp := h.dropParameter hp
  permute h hperm horder hp := h.permute hperm horder hp

end Tabled

/-- What an application that goes well does to the signature. -/
theorem Applier.run_signature {f : FlatScript} {b : Body} (h : a.run f b = .ok p) :
    f.replay b.signature.types = .ok p.body.signature.types ∧
      p.body.signature.result = b.signature.result ∧
      p.body.signature.isStatic = b.signature.isStatic ∧
      SlotTable.ofSignature a.widths p.body.signature = .ok p.table := by
  have hinitial : ∀ before, SlotTable.ofSignature a.widths b.signature = .ok before →
      Tabled a.widths b.signature b.signature.types { body := b, table := before } :=
    fun before hbefore => ⟨rfl, rfl, rfl, hbefore⟩
  obtain ⟨types, hreplay, htabled⟩ := (Tabled.carries a b.signature).run hinitial h
  rw [htabled.types]
  exact ⟨hreplay, htabled.result, htabled.isStatic, htabled.table⟩

/-- A flat script that is applied replays to the types that there are in the end, and the table is
that of the final signature. If it is not applied, as one that does not replay never is, the table
stays as it was. A script does neither if more targets in front of a source are gone by its turn
than there are places. -/
theorem applyFlat_follows_replay (a : Applier) (f : FlatScript) (m : Method) :
    (∀ changed m', a.applyFlat f m = (.ok changed, m') →
      f.replay m.body.signature.types = .ok m'.body.signature.types ∧
      SlotTable.ofSignature a.widths m'.body.signature = .ok m'.slots) ∧
    (∀ err m', a.applyFlat f m = (.error err, m') → m'.slots = m.slots) ∧
    (∀ err, f.replay m.body.signature.types = .error err →
      ∃ err' m', a.applyFlat f m = (.error err', m') ∧ m'.slots = m.slots) ∧
    (∀ done target source rest,
      descendingByFirst f.substitutions = done ++ (target, source) :: rest →
      source < (done.map (·.1)).reverse.countP (· < source) →
      (∃ err, f.replay m.body.signature.types = .error err) ∧
        ∃ err m', a.applyFlat f m = (.error err, m') ∧ m'.slots = m.slots) := by
  have hok : ∀ changed m', a.applyFlat f m = (.ok changed, m') →
      f.replay m.body.signature.types = .ok m'.body.signature.types ∧
      SlotTable.ofSignature a.widths m'.body.signature = .ok m'.slots := by
    intro changed m' h
    unfold Applier.applyFlat at h
    split at h
    · rename_i p hp
      obtain ⟨hreplay, -, -, htable⟩ := Applier.run_signature hp
      cases h
      exact ⟨hreplay, htable⟩
    · cases h
  have herror : ∀ err m', a.applyFlat f m = (.error err, m') → m'.slots = m.slots := by
    intro err m' h
    unfold Applier.applyFlat at h
    split at h <;> cases h
    rfl
  have hrefused : ∀ err, f.replay m.body.signature.types = .error err →
      ∃ err' m', a.applyFlat f m = (.error err', m') ∧ m'.slots = m.slots := by
    intro err hreplay
    cases hresult : a.applyFlat f m with
    | mk outcome m' =>
      cases outcome with
      | ok changed =>
        have := (hok changed m' hresult).1
        rw [hreplay] at this
        cases this
      | error err' => exact ⟨err', m', rfl, herror err' m' hresult⟩
  refine ⟨hok, herror, hrefused, fun done target source rest hsplit hastray => ?_⟩
  obtain ⟨err, hreplay⟩ : ∃ err, f.replay m.body.signature.types = .error err :=
    FlatScript.exists_error_of_astray hsplit hastray
  exact ⟨⟨err, hreplay⟩, hrefused err hreplay⟩

/-- A method with two parameters, of which it reads the second. -/
def readSecond : Method where
  body :=
    { signature := ⟨[⟨.int, some "x", false⟩, ⟨.long, some "y", false⟩], none, true⟩
      locals := [⟨"x", .int, 0, {}⟩, ⟨"y", .long, 1, {}⟩]
      code := [.load 1 .long, .ret] }
  slots := ⟨0, [⟨0, 1⟩, ⟨1, 2⟩]⟩

/-- The same method with the parameters in the other order. -/
def readFirst : Method where
  body :=
    { signature := ⟨[⟨.long, some "y", false⟩, ⟨.int, some "x", false⟩], none, true⟩
      locals := [⟨"x", .int, 2, {}⟩, ⟨"y", .long, 0, {}⟩]
      code := [.load 0 .long, .ret] }
  slots := ⟨0, [⟨0, 2⟩, ⟨2, 1⟩]⟩

theorem applyFlat_swap : Applier.applyFlat {} { reorders := [.swap 0 1] } readSecond =
    (.ok ⟨true, true, true, true⟩, readFirst) := by
  simp only [Applier.applyFlat, Applier.run, Applier.insertAll_nil, Applier.removeAll_nil,
    Applier.inlineAll_nil, FlatScript.settledReorders, ascendingByFirst, descendingByFirst_nil,
    List.mergeSort_nil]
  rfl

theorem replay_absent : FlatScript.replay { removals := [2] } [.int, .long] =
    .error (.outOfRange (.remove 2) 2) := by
  simp only [FlatScript.replay, FlatScript.run, FlatScript.settledReorders, ascendingByFirst,
    descendingByFirst, descending, List.mergeSort_nil, List.mergeSort_singleton]
  rfl

/-- A method with four parameters that it does not read. -/
def idle : Method where
  body :=
    { signature := ⟨[⟨.int, some "x", false⟩, ⟨.int, some "y", false⟩, ⟨.int, some "z", false⟩,
        ⟨.int, some "u", false⟩], none, true⟩
      locals := [⟨"x", .int, 0, {}⟩, ⟨"y", .int, 1, {}⟩, ⟨"z", .int, 2, {}⟩, ⟨"u", .int, 3, {}⟩]
      code := [.ret] }
  slots := ⟨0, [⟨0, 1⟩, ⟨1, 1⟩, ⟨2, 1⟩, ⟨3, 1⟩]⟩

theorem descendingByFirst_repeated : descendingByFirst [(0, 3), (0, 3), (0, 1)] =
    [(0, 3), (0, 3)] ++ (0, 1) :: [] :=
  List.mergeSort_of_pairwise (by decide)

theorem replay_repeated :
    FlatScript.replay { substitutions := [(0, 3), (0, 3), (0, 1)] } idle.body.signature.types =
      .error (.outOfRange (.substitute 0 1) 2) := by
  simp only [FlatScript.replay, FlatScript.run, descendingByFirst_repeated, ascendingByFirst,
    List.mergeSort_nil]
  rfl

theorem applyFlat_follows_replay_on_swap :
    (Applier.applyFlat {} { reorders := [.swap 0 1] } readSecond =
        (.ok ⟨true, true, true, true⟩, readFirst) ∧
      FlatScript.replay { reorders := [.swap 0 1] } [.int, .long] = .ok [.long, .int] ∧
      SlotTable.ofSignature standardWidths readFirst.body.signature = .ok readFirst.slots) ∧
    (FlatScript.replay { removals := [2] } [.int, .long] = .error (.outOfRange (.remove 2) 2) ∧
      ∃ err m', Applier.applyFlat {} { removals := [2] } readSecond = (.error err, m') ∧
        m'.slots = readSecond.slots) ∧
    1 < [0, 0].countP (· < 1) ∧
      FlatScript.replay { substitutions := [(0, 3), (0, 3), (0, 1)] } idle.body.signature.types =
        .error (.outOfRange (.substitute 0 1) 2) ∧
      ∃ err m', Applier.applyFlat {} { substitutions := [(0, 3), (0, 3), (0, 1)] } idle =
        (.error err, m') ∧ m'.slots = idle.slots :=
  ⟨⟨applyFlat_swap,
      (applyFlat_follows_replay {} { reorders := [.swap 0 1] } readSecond).1 _ _ applyFlat_swap⟩,
    ⟨replay_absent,
      (applyFlat_follows_replay {} { removals := [2] } readSecond).2.2.1 _ replay_absent⟩,
    by decide, replay_repeated,
    ((applyFlat_follows_replay {} { substitutions := [(0, 3), (0, 3), (0, 1)] } idle).2.2.2
      _ _ _ _ descendingByFirst_repeated (by decide)).2⟩

end Reparam
