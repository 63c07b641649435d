import Reparam.Apply.Method
import Reparam.Proofs.Apply.Rerouting

/-! A whole application of a flat script: the reorders bring the row into the order that flattening
reads off, and the six phases together take a body from the old parameters to the new ones. -/
namespace Reparam

variable {g : Premises} {types : List ValueType} {tokens wanted : List Token} {σ : Nat → Site}
  {base : Code} {p p' : Progress} {reorders : List Reorder} {order order' : List Nat} {length : Nat}

namespace Applier

/-- The order that reorders lead to is what they make of the list of places. -/
theorem orderOf_eq_ok {fresh : ValueType → Nat} {retype : ValueType → Nat → Nat}
    (h : orderOf length reorders order = .ok order') (hlength : order.length = length) :
    Script.run fresh retype (reorders.map (·.toEdit)) order = .ok order' ∧ order'.Perm order := by
  induction reorders generalizing order with
  | nil =>
    cases h
    exact ⟨rfl, .refl _⟩
  | cons r reorders ih =>
    cases r with
    | swap i j =>
      simp only [orderOf] at h
      split at h
      · rename_i hmax
        have hstep : (Edit.swap i j).Step fresh retype order (exchange order i j) :=
          .swap (by omega) (by omega)
        obtain ⟨hrun, hperm⟩ := ih h ((exchange_length order i j).trans hlength)
        exact ⟨(Script.run_cons hstep).trans hrun, hperm.trans exchange_perm⟩
      · cases h
    | move source dest =>
      simp only [orderOf] at h
      split at h
      · rename_i hmax
        have hsource : source < order.length := by omega
        have hdest : dest < order.length := by omega
        have hstep : (Edit.move source dest).Step fresh retype order
            (relocate order source dest) := .move hsource hdest
        obtain ⟨hrun, hperm⟩ := ih h ((relocate_length hsource hdest).trans hlength)
        exact ⟨(Script.run_cons hstep).trans hrun, hperm.trans (relocate_perm hdest)⟩
      · cases h

/-! Phases with nothing to do, or with one thing. -/

section

variable (a : Applier) (p : Progress) (index : Nat) (t : ValueType)

@[simp] theorem insertAll_nil : a.insertAll [] p = .ok p := by
  rw [insertAll, ascendingByFirst, List.mergeSort_nil]
  rfl

@[simp] theorem insertAll_single : a.insertAll [(index, t)] p = a.insert p index t := by
  rw [insertAll, ascendingByFirst, List.mergeSort_singleton]
  exact bind_pure _

@[simp] theorem replaceAll_nil : a.replaceAll [] p = .ok p := rfl

@[simp] theorem replaceAll_single : a.replaceAll [(index, t)] p = a.replace p index t :=
  bind_pure _

@[simp] theorem substituteAll_nil (gone : List Nat) : a.substituteAll [] gone p = .ok p := rfl

@[simp] theorem reorderAll_nil : a.reorderAll [] p = .ok p := by
  simp [reorderAll, orderOf, permute]

@[simp] theorem removeAll_nil : a.removeAll [] p = .ok p := by
  rw [removeAll, descending, List.mergeSort_nil]
  rfl

@[simp] theorem removeAll_single : a.removeAll [index] p = a.remove p index := by
  rw [removeAll, descending, List.mergeSort_singleton]
  exact bind_pure _

@[simp] theorem inlineAll_nil : a.inlineAll [] p = .ok p := by
  rw [inlineAll, descendingByFirst_nil]
  rfl

end

theorem reorderAll_eq_ok {a : Applier} (h : a.reorderAll reorders p = .ok p') :
    ∃ order, orderOf p.body.signature.params.length reorders
        (List.range p.body.signature.params.length) = .ok order ∧ a.permute order p = .ok p' := by
  unfold reorderAll at h
  dsimp only at h
  split at h
  · rename_i order horder
    exact ⟨order, horder, h⟩
  · cases h

end Applier

/-- A place outside of the list stands for no element of it. -/
theorem map_getElem_of_run {d : Token}
    (hrun : ∀ fresh retype, Script.run fresh retype (reorders.map (·.toEdit)) tokens = .ok wanted)
    (horder : Applier.orderOf tokens.length reorders (List.range tokens.length) = .ok order) :
    order.map (tokens[·]?) = wanted.map some := by
  obtain ⟨hplaces, hperm⟩ := @Applier.orderOf_eq_ok _ _ _ _ (fun _ => tokens.length)
    (fun _ k => k) horder List.length_range
  have natural := @Script.run_map _ _ (tokens.getD · d) (fun _ => tokens.length) (fun _ k => k)
    (fun _ => d) (fun _ t => t) (fun _ => by simp) (fun _ _ => rfl) (reorders.map (·.toEdit))
    (List.range tokens.length)
  have hall : (List.range tokens.length).map (tokens.getD · d) = tokens := by
    refine List.ext_getElem (by simp) fun i hi hi' => ?_
    simp [hi']
  rw [hall, hrun, hplaces] at natural
  cases natural
  rw [List.map_map]
  refine List.map_congr_left fun k hk => ?_
  have hlt : k < tokens.length := List.mem_range.1 (hperm.subset hk)
  simp [hlt]

/-- All reorders at once. -/
theorem Stands.reorderAll
    (hrun : ∀ fresh retype, Script.run fresh retype (reorders.map (·.toEdit)) tokens = .ok wanted)
    (hperm : wanted.Perm tokens) (h : Stands g (tokens.map (Token.full types)) σ base p)
    (hp : g.applier.reorderAll reorders p = .ok p') :
    Stands g (wanted.map (Token.full types)) σ base p' := by
  obtain ⟨order, horder, hp⟩ := Applier.reorderAll_eq_ok hp
  have hlength : p.body.signature.params.length = tokens.length := by
    have := congrArg List.length h.types
    simpa [Signature.types, Parameter.types, Row.types] using this
  rw [hlength] at horder
  refine h.permute hp ?_ (hperm.map _)
  have hplaces := congrArg (List.map (Option.map (Token.full types)))
    (map_getElem_of_run (d := .inserted 0 default) hrun horder)
  simpa [Function.comp_def] using hplaces

/-! Tokens with different origins. -/

theorem map_origin_filter (tokens : List Token) :
    (tokens.filter (·.ordinal?.isSome)).map Token.origin = (ordinals tokens).map .reference := by
  induction tokens with
  | nil => rfl
  | cons t tokens ih =>
    cases t with
    | reference ordinal r =>
      rw [ordinals_reference, List.map_cons, ← ih]
      rfl
    | inserted serial t =>
      rw [ordinals_inserted, ← ih]
      rfl

theorem nodup_origins (hordinals : (ordinals tokens).Nodup)
    (hinserted : ((tokens.filter fun t => !t.ordinal?.isSome).map Token.origin).Nodup) :
    (tokens.map Token.origin).Nodup := by
  have hsplit := (List.filter_append_perm (fun t : Token => t.ordinal?.isSome) tokens).map
    Token.origin
  rw [List.map_append, map_origin_filter] at hsplit
  refine hsplit.nodup_iff.1 (List.nodup_append.2 ⟨?_, hinserted, ?_⟩)
  · exact hordinals.map fun i j h => by simpa using h
  · intro o ho o' ho'
    obtain ⟨ordinal, -, rfl⟩ := List.mem_map.1 ho
    obtain ⟨t, ht, rfl⟩ := List.mem_map.1 ho'
    cases t with
    | reference => simp [Token.ordinal?] at ht
    | inserted => simp [Token.origin]

namespace Tracking

variable {n serial : Nat} {tr : Tracking}

/-- Only reference parameters are slotted in. -/
theorem filter_inserted_afterInsertions :
    ((tr.afterInsertions n).filter fun t => !t.ordinal?.isSome).Perm
      (tr.tokens.filter fun t => !t.ordinal?.isSome) := by
  rw [afterInsertions, foldl_slotIn_filter fun _ _ => rfl]
  refine (beforeReorders_perm.filter _).trans (.of_eq ?_)
  rw [beforeRemovals, foldl_slotIn_filter fun _ _ => rfl]

theorem Sound.nodup_afterInsertions (h : tr.Sound n serial) :
    ((tr.afterInsertions n).map Token.origin).Nodup := by
  refine nodup_origins ?_ ?_
  · rw [ordinals_afterInsertions h]
    exact List.nodup_range
  · rw [(filter_inserted_afterInsertions.map _).nodup_iff]
    exact h.nodup.sublist (List.filter_sublist.map _)

theorem Sound.nodup_beforeReorders (h : tr.Sound n serial) :
    ((tr.beforeReorders n).map Token.origin).Nodup := by
  rw [← passedOver_afterInsertions h]
  exact h.nodup_afterInsertions.sublist (List.filter_sublist.map _)

theorem Sound.nodup_beforeRemovals (h : tr.Sound n serial) :
    ((tr.beforeRemovals n).map Token.origin).Nodup :=
  (beforeReorders_perm.map _).nodup_iff.1 h.nodup_beforeReorders

theorem Sound.nodup_afterRemovals (h : tr.Sound n serial) :
    ((passedOver (tr.fated removedFate) (tr.beforeRemovals n)).map Token.origin).Nodup :=
  h.nodup_beforeRemovals.sublist (List.filter_sublist.map _)

end Tracking

/-- The parameters that a script finds, each by its ordinal. -/
def Row.ofTypes (types : List ValueType) : Row := types.zipIdx.map fun (t, k) => (.reference k, t)

theorem Row.ofTypes_eq_range (types : List ValueType) :
    Row.ofTypes types = (List.range types.length).map fun k =>
      (.reference k, types.getD k default) := by
  refine List.ext_getElem (by simp [Row.ofTypes]) fun k hk hk' => ?_
  have hlt : k < types.length := by simpa [Row.ofTypes] using hk
  simp [Row.ofTypes, hlt]

theorem passedOver_first (tokens : List Token) :
    (passedOver Token.insertedType? tokens).map (Token.first types) =
      (ordinals tokens).map fun k => (.reference k, types.getD k default) :=
  Tracking.map_passedOver_insertedType (fun _ _ => rfl) tokens

/-- What a run does. The table that there is in the end is compared with the first one. -/
theorem Applier.run_phases {a : Applier} {f : FlatScript} {b : Body} (h : a.run f b = .ok p') :
    ∃ before p1 p2 p3 p4 p5 p6, SlotTable.ofSignature a.widths b.signature = .ok before ∧
      a.insertAll f.insertions { body := b, table := before } = .ok p1 ∧
      a.replaceAll f.replacements p1 = .ok p2 ∧
      a.substituteAll (descendingByFirst f.substitutions) [] p2 = .ok p3 ∧
      a.reorderAll f.settledReorders p3 = .ok p4 ∧ a.removeAll f.removals p4 = .ok p5 ∧
      a.inlineAll f.inlines p5 = .ok p6 ∧
      p' = if p6.table = before then p6 else p6.changedSlots := by
  unfold run at h
  split at h
  · cases h
  · rename_i before hbefore
    obtain ⟨p1, h1, h⟩ := exists_of_bind h
    obtain ⟨p2, h2, h⟩ := exists_of_bind h
    obtain ⟨p3, h3, h⟩ := exists_of_bind h
    obtain ⟨p4, h4, h⟩ := exists_of_bind h
    obtain ⟨p5, h5, h⟩ := exists_of_bind h
    obtain ⟨p6, h6, h⟩ := exists_of_bind h
    cases h
    exact ⟨before, p1, p2, p3, p4, p5, p6, hbefore, h1, h2, h3, h4, h5, h6, rfl⟩

theorem Applier.run_eq_ok {a : Applier} {f : FlatScript} {b : Body} (h : a.run f b = .ok p') :
    ∃ before p1 p2 p3 p4 p5 p6, SlotTable.ofSignature a.widths b.signature = .ok before ∧
      a.insertAll f.insertions { body := b, table := before } = .ok p1 ∧
      a.replaceAll f.replacements p1 = .ok p2 ∧
      a.substituteAll (descendingByFirst f.substitutions) [] p2 = .ok p3 ∧
      a.reorderAll f.settledReorders p3 = .ok p4 ∧ a.removeAll f.removals p4 = .ok p5 ∧
      a.inlineAll f.inlines p5 = .ok p6 ∧ p'.body = p6.body ∧ p'.table = p6.table := by
  obtain ⟨before, p1, p2, p3, p4, p5, p6, hbefore, h1, h2, h3, h4, h5, h6, rfl⟩ := run_phases h
  refine ⟨before, p1, p2, p3, p4, p5, p6, hbefore, h1, h2, h3, h4, h5, h6, ?_⟩
  split <;> exact ⟨rfl, rfl⟩

theorem Applier.applyFlat_eq_ok {a : Applier} {f : FlatScript} {m m' : Method} {changed : Changed}
    (h : a.applyFlat f m = (.ok changed, m')) :
    ∃ p, a.run f m.body = .ok p ∧ p.changed = changed ∧ m' = ⟨p.body, p.table⟩ := by
  unfold applyFlat at h
  split at h
  · rename_i p hp
    cases h
    exact ⟨p, hp, rfl, rfl⟩
  · cases h

theorem Applier.exists_flat_of_apply {a : Applier} {s : Script} {m m' : Method}
    {changed : Changed} (h : a.apply s m = (.ok changed, m')) :
    ∃ f, s.flatten m.body.signature.params.length = .ok f ∧
      a.applyFlat f m = (.ok changed, m') := by
  unfold apply at h
  split at h
  · exact ⟨_, ‹_›, h⟩
  · cases h

/-- What an application does. -/
theorem Applier.apply_eq_ok {a : Applier} {s : Script} {m m' : Method} {changed : Changed}
    (h : a.apply s m = (.ok changed, m')) :
    ∃ f p, s.flatten m.body.signature.params.length = .ok f ∧ a.run f m.body = .ok p ∧
      m' = ⟨p.body, p.table⟩ := by
  obtain ⟨f, hf, h⟩ := exists_flat_of_apply h
  obtain ⟨p, hp, -, hm'⟩ := applyFlat_eq_ok h
  exact ⟨f, p, hf, hp, hm'⟩

open Tracking

variable {s : Script} {tr : Tracking} {f : FlatScript} {b : Body} {before : SlotTable}
  {starts : Nat → Nat}

/-- Where a site goes in all: substituted parameters lead to others, then the removed ones are never
reached, and last the inlined ones give way to generated code. -/
def finalSite (tr : Tracking) (n : Nat) (s : Site) : Site :=
  Site.reroute tr.whenInlined (passedOver (tr.fated removedFate) (tr.beforeRemovals n))
    (Site.reroute tr.whenRemoved (tr.beforeRemovals n)
      (Site.reroute (tr.whenSubstituted n) (tr.afterInsertions n) s))

/-- How a body stands just before removals. -/
theorem Tracking.Reached.stands_reordered {p1 p2 p3 p4 : Progress}
    (h : Reached s types.length tr) (hf : tr.toFlat types.length = .ok f)
    (hpeak : g.receiver + peak g.applier.widths types (tr.afterInsertions types.length) ≤ g.bound)
    (hparked : ∀ x, σ x ≠ .parked) (hgen : ∀ x k, σ x ≠ .generated k)
    (hstarts : ∀ k < types.length, σ (starts k) = .parameter (.reference k))
    (honly : ∀ i ∈ base, ∀ x, i.slot? = some x → ∀ k,
      σ x = .parameter (.reference k) → x = starts k)
    (hstands : Stands g (Row.ofTypes types) σ base p)
    (h1 : g.applier.insertAll f.insertions p = .ok p1)
    (h2 : g.applier.replaceAll f.replacements p1 = .ok p2)
    (h3 : g.applier.substituteAll (descendingByFirst f.substitutions) [] p2 = .ok p3)
    (h4 : g.applier.reorderAll f.settledReorders p3 = .ok p4) :
    Stands g ((tr.beforeRemovals types.length).map (Token.full types))
      (fun x => Site.reroute (tr.whenSubstituted types.length) (tr.afterInsertions types.length)
        (σ x))
      ((tr.afterInsertions types.length).foldl (Code.retypedFor starts types) base) p4 := by
  obtain ⟨pairs, hpairs, hfields⟩ := toFlat_eq_ok hf
  have hordinals := ordinals_afterInsertions h.sound
  have hsubstitutions := h.substitutions_ok hpairs
  have hreorders : ∀ fresh retype, Script.run fresh retype (f.settledReorders.map (·.toEdit))
      (tr.beforeReorders types.length) = .ok (tr.beforeRemovals types.length) :=
    fun _ _ => h.run_settledReorders hf
  have hdescending := h.descending_substitutions hpairs
  generalize f.settledReorders = reorders at hreorders h4
  subst hfields
  have hinitial : Stands g ((passedOver Token.insertedType?
      (tr.afterInsertions types.length)).map (Token.first types)) σ base p := by
    rw [passedOver_first, hordinals, ← Row.ofTypes_eq_range]
    exact hstands
  have hinserted := hinitial.insertAll h.sound.nodup_afterInsertions hpeak h1
  have hsites (k : Nat) (hk : k ∈ ordinals (tr.afterInsertions types.length)) :
      σ (starts k) = .parameter (.reference k) := by
    rw [hordinals] at hk
    exact hstarts k (List.mem_range.1 hk)
  have hreplaced := hinserted.replaceAll hpeak hgen hsites
    (fun i hi x hx k _ ho => honly i hi x hx k ho) h2
  have hsubstituted := hreplaced.substituteAll h h.sound.nodup_afterInsertions hparked
    hsubstitutions (by rwa [hdescending] at h3)
  rw [passedOver_afterInsertions h.sound] at hsubstituted
  exact hsubstituted.reorderAll hreorders beforeReorders_perm.symm h4

theorem Tracking.Reached.stands_run (h : Reached s types.length tr)
    (hf : tr.toFlat types.length = .ok f)
    (hpeak : g.receiver + peak g.applier.widths types (tr.afterInsertions types.length) ≤ g.bound)
    (hparked : ∀ x, σ x ≠ .parked) (hgen : ∀ x k, σ x ≠ .generated k)
    (hstarts : ∀ k < types.length, σ (starts k) = .parameter (.reference k))
    (honly : ∀ i ∈ base, ∀ x, i.slot? = some x → ∀ k,
      σ x = .parameter (.reference k) → x = starts k)
    (hb : SlotTable.ofSignature g.applier.widths b.signature = .ok before)
    (hstands : Stands g (Row.ofTypes types) σ base { body := b, table := before })
    (hrun : g.applier.run f b = .ok p') :
    Stands g (tr.tokens.map (Token.full types)) (fun x => finalSite tr types.length (σ x))
      ((tr.afterInsertions types.length).foldl (Code.retypedFor starts types) base) p' := by
  obtain ⟨made, p1, p2, p3, p4, p5, p6, hmade, h1, h2, h3, h4, h5, h6, hbody, htable⟩ :=
    Applier.run_eq_ok hrun
  rw [hb, Except.ok.injEq] at hmade
  subst hmade
  have hreordered := h.stands_reordered hf hpeak hparked hgen hstarts honly hstands h1 h2 h3 h4
  obtain ⟨pairs, -, hfields⟩ := toFlat_eq_ok hf
  subst hfields
  have hparked1 (x : Nat) : Site.reroute (tr.whenSubstituted types.length)
      (tr.afterInsertions types.length) (σ x) ≠ .parked := by
    exact Site.reroute_ne_parked (hparked x) whenSubstituted_ne_parked
  have hremoved := hreordered.removeAll h.sound.nodup_beforeRemovals hparked1 h5
  have hparked2 (x : Nat) : Site.reroute tr.whenRemoved (tr.beforeRemovals types.length)
      (Site.reroute (tr.whenSubstituted types.length) (tr.afterInsertions types.length) (σ x)) ≠
        .parked := by
    exact Site.reroute_ne_parked (hparked1 x) whenRemoved_ne_parked
  rw [inlines_eq] at h6
  have hinlined := hremoved.inlineAll h.sound.nodup_afterRemovals hparked2 h6
  rw [passedOver_beforeRemovals h.sound] at hinlined
  exact hinlined.of_code (by rw [hbody]) htable hinlined.code hinlined.sites

end Reparam
