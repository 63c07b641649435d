import Reparam.Proofs.Apply.Moving
import Reparam.Proofs.Apply.Rewriting
import Reparam.Proofs.Locals.Stopping

/-! How far up insertions and replacements take the slots of a body, whatever the body is: a slot
stays the start of a parameter, or goes up by no more than the parameters came to need. -/
namespace Reparam

variable {a : Applier} {w : Widths} {s : Signature} {receiver x n : Nat} {t u : ValueType}
  {types pre post : List ValueType} {tokens : List Token} {p p' : Progress} {new : Declaration}
  {P Q : Nat → Prop} {f : Nat → Nat} {code : Code}

/-- All slots that code addresses have a property. -/
def Code.Operands (P : Nat → Prop) (code : Code) : Prop := ∀ i ∈ code, ∀ x, i.slot? = some x → P x

theorem Code.Operands.imp (h : code.Operands P) (hpq : ∀ x, P x → Q x) : code.Operands Q :=
  fun i hi x hx => hpq x (h i hi x hx)

theorem Code.Operands.remap (h : code.Operands P) (hf : ∀ x, P x → Q (f x)) :
    (code.remap f).Operands Q := by
  intro i hi y hy
  obtain ⟨j, hj, x, hx, rfl⟩ := exists_of_mem_remap hi hy
  exact hf x (h j hj x hx)

/-- A parameter starts at a slot when parameters of these types are laid out from a slot on. -/
def Starts (w : Widths) (receiver : Nat) (types : List ValueType) (x : Nat) : Prop :=
  ∃ front t back, types = front ++ t :: back ∧ x = receiver + totalWidth w front

namespace Starts

theorem le_maxSlot (hw : ∀ t, 0 < w t) (hlimit : receiver + totalWidth w types ≤ slotLimit)
    (h : Starts w receiver types x) : x ≤ maxSlot := by
  obtain ⟨front, t, back, rfl, rfl⟩ := h
  have ht := hw t
  rw [totalWidth_append, totalWidth_cons, slotLimit] at hlimit
  omega

theorem insert (hw : ∀ t, 0 < w t) (h : Starts w receiver (pre ++ post) x)
    (hslot : new.slot = receiver + totalWidth w pre) (hwidth : new.width = w t) :
    Starts w receiver (pre ++ t :: post) (Snapshot.moveUp x new) := by
  obtain ⟨front, u, back, hsplit, rfl⟩ := h
  have hu := hw u
  unfold Snapshot.moveUp
  rw [hslot, hwidth]
  rcases List.append_eq_append_iff.1 hsplit with ⟨mid, rfl, rfl⟩ | ⟨mid, rfl, hmid⟩
  · rw [if_pos (by rw [totalWidth_append]; omega)]
    refine ⟨pre ++ t :: mid, u, back, by simp, ?_⟩
    simp only [totalWidth_append, totalWidth_cons]
    omega
  · cases mid with
    | nil =>
      rw [List.append_nil, if_pos (Nat.le_refl _)]
      refine ⟨front ++ [t], u, back, by simp_all, ?_⟩
      simp only [totalWidth_append, totalWidth_cons, totalWidth_nil]
      omega
    | cons v mid =>
      cases hmid
      rw [if_neg (by simp only [totalWidth_append, totalWidth_cons]; omega)]
      exact ⟨front, u, mid ++ t :: post, by simp, rfl⟩

theorem resize (hw : ∀ t, 0 < w t) (hlimit : receiver + totalWidth w (pre ++ u :: post) ≤ slotLimit)
    (h : Starts w receiver (pre ++ u :: post) x) : Starts w receiver (pre ++ t :: post)
      (Site.resized (receiver + totalWidth w pre + w u) (w u) (w t) x) := by
  have hfree : isReserved x = false := by
    have := h.le_maxSlot hw hlimit
    simp only [isReserved, decide_eq_false_iff_not]
    omega
  obtain ⟨front, v, back, hsplit, rfl⟩ := h
  have hv := hw v
  unfold Site.resized
  rw [hfree]
  simp only [Bool.not_false, Bool.and_true, decide_eq_true_eq]
  rcases List.append_eq_append_iff.1 hsplit with ⟨mid, rfl, hmid⟩ | ⟨mid, rfl, hmid⟩
  · cases mid with
    | nil =>
      cases hmid
      rw [List.append_nil, if_neg (by omega)]
      exact ⟨pre, t, post, rfl, rfl⟩
    | cons v' mid =>
      cases hmid
      rw [if_pos (by simp only [totalWidth_append, totalWidth_cons]; omega)]
      refine ⟨pre ++ t :: mid, v, back, by simp, ?_⟩
      simp only [totalWidth_append, totalWidth_cons]
      omega
  · cases mid with
    | nil =>
      cases hmid
      rw [List.append_nil, if_neg (by omega)]
      exact ⟨front, t, post, rfl, rfl⟩
    | cons v' mid =>
      cases hmid
      rw [if_neg (by simp only [totalWidth_append, totalWidth_cons]; omega)]
      exact ⟨front, v, mid ++ t :: post, by simp, rfl⟩

end Starts

/-- Beside the parameters of a body no slot lies past a bound, but for references to removed ones. -/
structure Bounded (w : Widths) (s : Signature) (ts : List ValueType) (n : Nat) (p : Progress) :
    Prop extends Tabled w s ts p where
  code : p.body.code.Operands fun x => x ≤ n ∨ Starts w s.receiverSlots ts x ∨ x = unreachableSlot
  places : ∀ q ∈ p.body.places, q.1 ≤ n ∨ Starts w s.receiverSlots ts q.1

/-- A parameter with another type has its local where it was. -/
theorem Applier.exists_of_mem_relabel {slot : Nat} {name : Option String} {b : Body} {l : Local}
    (h : l ∈ relabel slot name t b) : ∃ l' ∈ b.locals, l'.slot = l.slot := by
  unfold relabel at h
  split at h
  · rename_i i hi
    obtain ⟨k, hk⟩ := List.mem_iff_getElem?.1 h
    rw [List.getElem?_modify] at hk
    obtain ⟨l', hl', rfl⟩ := Option.map_eq_some_iff.1 hk
    refine ⟨l', List.mem_of_getElem? hl', ?_⟩
    split <;> rfl
  · exact ⟨l, h, rfl⟩

theorem isReserved_unreachable : isReserved unreachableSlot = true := rfl

namespace Bounded

theorem insert (hw : ∀ t, 0 < a.widths t) (h : Bounded a.widths s (pre ++ post) n p)
    (hp : a.insert p pre.length t = .ok p') :
    Bounded a.widths s (pre ++ t :: post) (n + a.widths t) p' := by
  obtain ⟨new, hslot, hwidth, hcode, hplaces⟩ := Applier.insert_moves hp
  rw [SlotTable.insertionSlot_at h.table h.types, h.receiverSlots_eq] at hslot
  have htypes := insertIdx_middle pre post t
  have hup : ∀ x, x ≤ n ∨ Starts a.widths s.receiverSlots (pre ++ post) x →
      Snapshot.moveUp x new ≤ n + a.widths t ∨
        Starts a.widths s.receiverSlots (pre ++ t :: post) (Snapshot.moveUp x new) := by
    intro x hx
    refine hx.imp (fun hx => ?_) fun hx => hx.insert hw hslot hwidth
    unfold Snapshot.moveUp
    split <;> omega
  refine ⟨htypes ▸ h.toTabled.insert hp, ?_, ?_⟩
  · rw [hcode]
    refine h.code.remap fun x hx => ?_
    unfold Snapshot.settled
    split
    · rename_i hreserved
      rcases hx with hx | hx | hx
      · exact .inl (Nat.le_add_right_of_le hx)
      · have hle := hx.le_maxSlot hw h.totalWidth_le
        simp only [isReserved, decide_eq_true_eq] at hreserved
        omega
      · exact .inr (.inr hx)
    · rename_i hfree
      rcases hx with hx | hx | rfl
      · exact (hup x (.inl hx)).imp_right .inl
      · exact (hup x (.inr hx)).imp_right .inl
      · exact (hfree isReserved_unreachable).elim
  · intro q hq
    rcases List.mem_cons.1 (hplaces.subset hq) with rfl | hq
    · exact .inr ⟨pre, t, post, rfl, hslot⟩
    · obtain ⟨q', hq', rfl⟩ := List.mem_map.1 hq
      exact hup q'.1 (h.places q' hq')

theorem replace (hw : ∀ t, 0 < a.widths t)
    (ha : ∀ slot actual expected, a.adapters slot actual expected = none)
    (h : Bounded a.widths s (pre ++ u :: post) n p) (hp : a.replace p pre.length t = .ok p') :
    Bounded a.widths s (pre ++ t :: post) (n + (a.widths t - a.widths u)) p' := by
  have htypes : (pre ++ u :: post).modify pre.length (fun _ => t) = pre ++ t :: post :=
    modify_middle pre post u _
  obtain ⟨entry, param, q, hentry, -, hq, hbody, -⟩ := Applier.replace_eq_ok hp
  rw [SlotTable.entries_at h.table h.types, h.receiverSlots_eq, Option.some.injEq] at hentry
  subst hentry
  rw [Applier.adaptCode_body ha, hq] at hbody
  have hup : ∀ x, x ≤ n ∨ Starts a.widths s.receiverSlots (pre ++ u :: post) x →
      let x' := Site.resized (s.receiverSlots + totalWidth a.widths pre + a.widths u)
        (a.widths u) (a.widths t) x
      x' ≤ n + (a.widths t - a.widths u) ∨
        Starts a.widths s.receiverSlots (pre ++ t :: post) x' := by
    intro x hx
    refine hx.imp (fun hx => ?_) fun hx => hx.resize hw h.totalWidth_le
    unfold Site.resized
    split
    · rename_i hle
      simp only [Bool.and_eq_true, decide_eq_true_eq] at hle
      omega
    · omega
  refine ⟨htypes ▸ h.toTabled.replace hp, ?_, ?_⟩
  · intro i hi x hx
    rw [hbody] at hi
    have hcode : Code.Operands (fun x => x ≤ n + (a.widths t - a.widths u) ∨
        Starts a.widths s.receiverSlots (pre ++ t :: post) x ∨ x = unreachableSlot)
        (p.body.code.remap (Site.resized (s.receiverSlots + totalWidth a.widths pre + a.widths u)
          (a.widths u) (a.widths t))) := by
      refine h.code.remap fun x hx => ?_
      rcases hx with hx | hx | rfl
      · exact (hup x (.inl hx)).imp_right .inl
      · exact (hup x (.inr hx)).imp_right .inl
      · right; right
        simp [Site.resized, isReserved_unreachable]
    exact hcode i (Code.mem_of_mem_retyped hi hx) x hx
  · intro q hq
    obtain ⟨moved, hmoved, rfl⟩ := List.mem_map.1 hq
    rw [hbody] at hmoved
    obtain ⟨l, hl, rfl⟩ := List.mem_map.1 hmoved
    obtain ⟨l', hl', hslot⟩ := Applier.exists_of_mem_relabel hl
    have hplace := h.places _ (List.mem_map_of_mem hl')
    exact hup l.slot (hslot ▸ hplace)

end Bounded

theorem Row.growth_append (front back : Row) :
    growth w types (front ++ back) = growth w types front + growth w types back := by
  induction front with
  | nil => simp [growth]
  | cons q front ih =>
    obtain ⟨_ | _, t⟩ := q <;> simp only [List.cons_append, growth, ih] <;> omega

namespace Bounded

/-- All insertions, front to back. -/
theorem insertAll (hw : ∀ t, 0 < a.widths t)
    (h : Bounded a.widths s
      ((passedOver Token.insertedType? tokens).map (Token.firstTypeIn types)) n p)
    (hp : a.insertAll (located Token.insertedType? 0 tokens) p = .ok p') :
    Bounded a.widths s (tokens.map (Token.firstTypeIn types))
      (n + Row.growth a.widths types (tokens.map (Token.first types))) p' := by
  rw [Applier.insertAll, ascendingByFirst_eq located_pairwise] at hp
  let I (pre post : List Token) : Progress → Prop := Bounded a.widths s
    (pre.map (Token.firstTypeIn types) ++
      (passedOver Token.insertedType? post).map (Token.firstTypeIn types))
    (n + Row.growth a.widths types (pre.map (Token.first types)))
  have step : I tokens [] p' := by
    refine foldlM_located (I := I) ?_ ?_ ?_ hp
    · intro pre x post p _ hx hI
      cases x with
      | inserted => cases hx
      | reference k r =>
        simpa [I, passedOver_cons_none hx, Row.growth_append, Row.growth, Token.first,
          Token.origin, Token.firstTypeIn] using hI
    · intro pre x post t p p' _ hx hI hp
      cases x with
      | reference => cases hx
      | inserted k t =>
        cases hx
        rw [← List.length_map (Token.firstTypeIn types)] at hp
        have hpassed : passedOver Token.insertedType? (.inserted k t :: post) =
            passedOver Token.insertedType? post := passedOver_cons_some rfl
        simp only [I, hpassed] at hI
        have hnext := hI.insert hw hp
        simpa [I, Row.growth_append, Row.growth, Token.first, Token.origin, Token.firstTypeIn,
          Nat.add_assoc] using hnext
    · simpa [I, Row.growth] using h
  simpa [I, passedOver] using step

/-- All replacements, front to back. -/
theorem replaceAll (hw : ∀ t, 0 < a.widths t)
    (ha : ∀ slot actual expected, a.adapters slot actual expected = none)
    (h : Bounded a.widths s (tokens.map (Token.firstTypeIn types))
      (n + Row.growth a.widths types (tokens.map (Token.first types))) p)
    (hp : a.replaceAll (located Token.retypedType? 0 tokens) p = .ok p') :
    Bounded a.widths s (tokens.map (Token.typeIn types))
      (n + Row.growth a.widths types (tokens.map (Token.full types))) p' := by
  let I (pre post : List Token) : Progress → Prop := Bounded a.widths s
    (pre.map (Token.typeIn types) ++ post.map (Token.firstTypeIn types))
    (n + Row.growth a.widths types
      (pre.map (Token.full types) ++ post.map (Token.first types)))
  have step : I tokens [] p' := by
    refine foldlM_located (I := I) ?_ ?_ ?_ hp
    · intro pre x post p _ hx hI
      have hsame : x.typeIn types = x.firstTypeIn types := by
        cases x with
        | inserted => rfl
        | reference k r =>
          cases hx
          rfl
      simpa [I, Token.full, Token.first, hsame] using hI
    · intro pre x post t p p' _ hx hI hp
      cases x with
      | inserted => cases hx
      | reference k r =>
        cases hx
        rw [← List.length_map (Token.typeIn types)] at hp
        have hgrown : Row.growth a.widths types ((pre ++ [Token.reference k (some t)]).map
            (Token.full types) ++ post.map (Token.first types)) =
            Row.growth a.widths types (pre.map (Token.full types) ++
              (Token.reference k (some t) :: post).map (Token.first types)) +
            (a.widths t - a.widths (Token.firstTypeIn types (.reference k (some t)))) := by
          simp only [Row.growth_append, List.map_append, List.map_cons, List.map_nil, Token.full,
            Token.first, Token.origin, Token.firstTypeIn, Token.typeIn, Row.growth]
          omega
        have hnext := Bounded.replace hw ha hI hp
        rw [Nat.add_assoc, ← hgrown] at hnext
        simpa [I, Token.typeIn] using hnext
    · simpa [I] using h
  simpa [I] using step

end Bounded
end Reparam
