import Reparam.Proofs.Apply.Departing
import Reparam.Proofs.Apply.Retyping

/-! A parameter gets another type: what lies behind it moves for the new width, and the calls behind
its loads are retyped. -/
namespace Reparam

variable {g : Premises} {row front back : Row} {o : Origin} {t t' : ValueType}
  {σ : Nat → Site} {base : Code} {p p' : Progress} {index x0 : Nat}

theorem Site.resized_self {stop width : Nat} (h : width ≤ stop) (slot : Nat) :
    resized stop width width slot = slot := by
  unfold resized
  split
  · rename_i hle
    simp only [Bool.and_eq_true, decide_eq_true_eq] at hle
    omega
  · rfl

/-- The body with all slots remapped. -/
def Body.remapped (f : Nat → Nat) (b : Body) : Body :=
  { b with locals := b.locals.map fun l => { l with slot := f l.slot }, code := b.code.remap f }

theorem Body.remapped_of_fixed {f : Nat → Nat} (h : ∀ x, f x = x) (b : Body) : b.remapped f = b := by
  have hf : f = id := funext h
  have hlocals : b.locals.map (fun l => { l with slot := f l.slot }) = b.locals := by
    rw [hf]
    exact List.map_id _
  have hcode : b.code.remap f = b.code := by
    refine (List.map_congr_left fun i _ => ?_).trans (List.map_id _)
    cases hx : i.slot? with
    | none => exact Instruction.mapSlot_eq_self hx f
    | some x =>
      simp only [Instruction.mapSlot, hx, h]
      exact Instruction.withSlot_self hx
  rw [remapped, hlocals, hcode]

@[simp] theorem Progress.remapSlots_body (f : Nat → Nat) (p : Progress) :
    (p.remapSlots f).body = p.body.remapped f := by
  rw [remapSlots, tally_body]
  rfl

@[simp] theorem Progress.remapSlots_table (f : Nat → Nat) (p : Progress) :
    (p.remapSlots f).table = p.table := by
  rw [remapSlots, tally_table]

theorem Body.remapped_places (f : Nat → Nat) (b : Body) :
    (b.remapped f).places = b.places.map fun q => (f q.1, q.2) := by
  simp only [remapped, places, List.map_map, Function.comp_def]

namespace Applier

variable {a : Applier} {entry : SlotEntry} {width : Nat}

theorem resize_body (entry : SlotEntry) (width : Nat) (p : Progress) :
    (resize entry width p).body =
      p.body.remapped (Site.resized entry.stop entry.width width) := by
  unfold resize
  by_cases h : width = entry.width
  · subst h
    rw [if_pos rfl, Body.remapped_of_fixed]
    exact Site.resized_self (Nat.le_add_left _ _)
  · rw [if_neg h, Progress.remapSlots_body]
    rfl

theorem adaptCode_body (ha : ∀ slot actual expected, a.adapters slot actual expected = none)
    (slot : Nat) (old new : ValueType) (p : Progress) :
    (a.adaptCode slot old new p).body =
      { p.body with code := p.body.code.retyped slot old new } := by
  cases old with
  | object oldName =>
    cases new with
    | object newName => simp only [adaptCode, Code.retyped, ha, Progress.tally_body]
    | _ => rfl
  | _ => rfl

/-- The local of a parameter with another type. -/
def relabel (slot : Nat) (name : Option String) (t : ValueType) (b : Body) : List Local :=
  match b.localIndex? slot name with
  | some i => b.locals.modify i ({ · with type := t })
  | none => b.locals

/-- Adapting code changes nothing but the code. -/
theorem exists_adaptCode (a : Applier) (slot : Nat) (old new : ValueType) (p : Progress) :
    ∃ code, (a.adaptCode slot old new p).body = { p.body with code } := by
  unfold adaptCode
  split
  · exact ⟨_, Progress.tally_body ..⟩
  · exact ⟨_, rfl⟩

/-- What a replacement does. -/
theorem replace_eq_ok (h : a.replace p index t = .ok p') :
    ∃ entry param q,
      let signature := { p.body.signature with
        params := p.body.signature.params.set index { param with type := t } }
      p.table.entries[index]? = some entry ∧ p.body.signature.params[index]? = some param ∧
      q.body = ({ p.body with
        signature, locals := relabel entry.slot param.name t p.body }).remapped
          (Site.resized entry.stop entry.width (a.widths t)) ∧
      p'.body = (a.adaptCode entry.slot param.type t q).body ∧
      SlotTable.ofSignature a.widths signature = .ok p'.table := by
  unfold replace at h
  obtain ⟨entry, hentry, h⟩ := exists_of_bind h
  dsimp only at h
  split at h
  · cases h
  · rename_i param hparam
    generalize hresized : resize entry (a.widths t) _ = r at h
    obtain ⟨q, hq, h⟩ := exists_of_bind h
    obtain ⟨hbody, htable⟩ := Progress.rebuild_eq_ok hq
    obtain ⟨code, hcode⟩ := a.exists_adaptCode entry.slot param.type t r
    rw [hcode, ← hresized, resize_body] at htable
    cases h
    refine ⟨entry, param, r, Progress.entry_eq_ok hentry, hparam, ?_, hbody, htable⟩
    rw [← hresized, resize_body]
    rfl

end Applier

theorem Code.placed_eq_remap (h : ∀ x k, σ x ≠ .generated k) :
    base.placed g row σ = base.remap fun x => (σ x).slot g row := by
  unfold placed remap
  rw [← List.flatMap_singleton' (base.map _), List.flatMap_map]
  refine List.flatMap_congr fun i _ => ?_
  cases hx : i.slot? with
  | none => rw [Instruction.mapSlot_eq_self hx]
  | some x => simp only [Site.put_of_ne (h x), Instruction.mapSlot, hx]

theorem perm_modify {α : Type} {xs : List α} {i : Nat} {x : α} (h : xs[i]? = some x) (f : α → α) :
    (xs.modify i f).Perm (f x :: xs.eraseIdx i) := by
  obtain ⟨pre, post, rfl, rfl⟩ := exists_append_of_getElem? h
  rw [modify_middle, eraseIdx_middle]
  exact List.perm_middle

/-- A parameter has the type that the row says, and another one when the row does. -/
theorem Row.types_replace {signature : Signature} {param : Parameter}
    (h : signature.types = types (front ++ (o, t) :: back))
    (hparam : signature.params[front.length]? = some param) :
    param.type = t ∧ Signature.types { signature with
      params := signature.params.set front.length { param with type := t' } } =
        types (front ++ (o, t') :: back) := by
  constructor
  · have hat := congrArg (·[front.length]?) h
    simp only [Signature.types, Parameter.types, List.getElem?_map, hparam] at hat
    simpa [types] using hat
  · have hset : Signature.types { signature with
        params := signature.params.set front.length { param with type := t' } } =
        signature.types.set front.length t' := List.map_set ..
    rw [hset, h]
    simp [types]

/-- Replacing the type of a parameter takes every site along, and retypes calls behind the loads of
the one slot that stands for the parameter. -/
theorem Stands.replace (h : Stands g (front ++ (o, t) :: back) σ base p)
    (hp : g.applier.replace p front.length t' = .ok p')
    (hbound : g.receiver + Row.extent g.applier.widths (front ++ (o, t') :: back) ≤ g.bound)
    (hgen : ∀ x k, σ x ≠ .generated k) (hx0 : σ x0 = .parameter o)
    (honly : ∀ i ∈ base, ∀ x, i.slot? = some x → σ x = .parameter o → x = x0) :
    Stands g (front ++ (o, t') :: back) σ (base.retyped x0 t t') p' := by
  obtain ⟨entry, param, q, hentry, hparam, hq, hbody, htable⟩ := Applier.replace_eq_ok hp
  rw [Applier.adaptCode_body g.no_adapters, hq] at hbody
  obtain ⟨ho, -, hfront⟩ := Row.not_mem_of_nodup h.nodup
  have hback : o ∉ back.origins := fun hm => ho (by
    rw [Row.origins_append]
    exact List.mem_append_right _ hm)
  have horigins : Row.origins (front ++ (o, t') :: back) = Row.origins (front ++ (o, t) :: back) := by
    simp [Row.origins]
  rw [h.table, Row.table, Row.entries_getElem, Option.some.injEq] at hentry
  subst hentry
  obtain ⟨i, l, hi, hl, hslot⟩ := h.exists_local param.name
  obtain ⟨-, hrest⟩ := h.local_eq hl hslot
  simp only [Applier.relabel, hi] at hbody
  obtain ⟨hparamType, htypes⟩ := @Row.types_replace front back o t t' _ _ h.types hparam
  obtain ⟨hfits, htable⟩ := Row.fits_of_signature htypes h.receiver htable hbound
  have hstart (t : ValueType) : (Site.parameter o).slot g (front ++ (o, t) :: back) =
      g.receiver + Row.extent g.applier.widths front := Row.start_at hfront
  have moved {s : Site} (hs : s.In g (front ++ (o, t) :: back)) :
      s.slot g (front ++ (o, t') :: back) =
        Site.resized (g.receiver + Row.extent g.applier.widths front + g.applier.widths t)
          (g.applier.widths t) (g.applier.widths t') (s.slot g (front ++ (o, t) :: back)) :=
    Site.slot_resize hs h.fits hfront hback
  have hin {s : Site} (hs : s.In g (front ++ (o, t) :: back)) : s.In g (front ++ (o, t') :: back) :=
    hs.of_origins fun p hp => by
      subst hp
      rw [horigins]
      exact hs
  refine ⟨?_, ?_, htable, ?_, hfits, ?_, ?_, ?_⟩
  · rw [hbody]
    exact htypes
  · rw [hbody]
    exact h.receiver
  · rw [horigins]
    exact h.nodup
  · rw [hbody]
    have hmodified := (perm_modify hl fun l => { l with type := t' }).map fun l => (l.slot, l.type)
    rw [List.map_cons, hslot, ← hstart t] at hmodified
    refine List.Perm.trans (.of_eq (Body.remapped_places _ _)) ?_
    refine List.Perm.trans ?_ ((g.sites_perm front back o t').map _).symm
    refine ((hmodified.trans (hrest.cons _)).map _).trans (.of_eq ?_)
    rw [List.map_cons, List.map_cons, List.map_map,
      moved (s := .parameter o) Row.mem_origins_middle]
    congr 1
    refine List.map_congr_left fun q hq => ?_
    rw [moved (g.in_of_mem_sites hq).1.insert]
    rfl
  · rw [hbody]
    change Code.retyped _ _ _ (Code.remap _ p.body.code) = _
    rw [h.code, @Code.remap_placed g _ (front ++ (o, t') :: back) _ σ σ base, hparamType,
      Code.placed_eq_remap hgen, Code.placed_eq_remap hgen, ← hstart t', ← hx0]
    · -- no other slot of the base code stands for the parameter
      refine Code.retyped_remap (f := fun x => (σ x).slot g (front ++ (o, t') :: back))
        fun i hi x hx => ⟨fun he => ?_, fun he => by rw [he]⟩
      rw [hx0] at he
      refine honly i hi x hx (Site.eq_parameter ?_ hfits Row.mem_origins_middle he)
      exact hin (h.sites i hi x hx).1
    · exact fun i hi x hx => Site.remap_put hx (.inl rfl) (moved (h.sites i hi x hx).1).symm
  · intro i hi x hx
    obtain ⟨hs, hsuits⟩ := h.sites i (Code.mem_of_mem_retyped hi hx) x hx
    exact ⟨hin hs, hsuits⟩

end Reparam
