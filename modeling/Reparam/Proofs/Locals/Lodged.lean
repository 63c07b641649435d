import Reparam.Proofs.Locals.Laid
import Reparam.Proofs.Apply.Sites

/-! Declared locals of which every parameter has its own. Whatever moves all slots in step with the
parameters keeps it so. -/
namespace Reparam

variable {w : Widths} {params params' front back : List (ValueType × String)}
  {q : ValueType × String} {t t' : ValueType} {name : String} {others decls decls' : List Declaration}
  {d : Declaration} {f : Nat → Nat} {receiver next next' gap gap' : Nat}

/-- Locals that belong to no parameter: at most one of them is the receiver's, and the others lie
behind the parameters. -/
structure Elsewhere (receiver next : Nat) (others : List Declaration) : Prop where
  apart : ∀ d ∈ others, d.slot < receiver ∨ next ≤ d.slot
  receiver : (others.filter (·.slot < receiver)).length ≤ 1

theorem Elsewhere.moved (h : Elsewhere receiver next others) (hle : receiver ≤ next')
    (hlow : ∀ slot < receiver, f slot = slot) (hhigh : ∀ slot, next ≤ slot → next' ≤ f slot) :
    Elsewhere receiver next' (others.map (·.moved f)) where
  apart := by
    intro d' hd'
    obtain ⟨d, hd, rfl⟩ := List.mem_map.1 hd'
    rcases h.apart d hd with hlt | hge
    · exact .inl (Nat.lt_of_le_of_lt (Nat.le_of_eq (hlow _ hlt)) hlt)
    · exact .inr (hhigh _ hge)
  receiver := by
    have hsame : others.filter (fun d => decide ((d.moved f).slot < receiver)) =
        others.filter (·.slot < receiver) := by
      refine List.filter_congr fun d hd => decide_eq_decide.2 ?_
      change f d.slot < receiver ↔ _
      by_cases hlt : d.slot < receiver
      · rw [hlow _ hlt]
      · have := hhigh d.slot ((h.apart d hd).resolve_left hlt)
        omega
    rw [List.filter_map, List.length_map]
    exact hsame ▸ h.receiver

/-- Every parameter has a local of its type and with its name at its slot, and no other local lies
where parameters do. -/
def Lodged (w : Widths) (receiver : Nat) (params : List (ValueType × String))
    (decls : List Declaration) : Prop :=
  ∃ others, Elsewhere receiver (receiver + span w params) others ∧
    decls.Perm (laid w receiver params ++ others)

/-- The same with a gap of some slots between the parameters. -/
def Parted (w : Widths) (receiver : Nat) (front : List (ValueType × String)) (gap : Nat)
    (back : List (ValueType × String)) (decls : List Declaration) : Prop :=
  ∃ others, Elsewhere receiver (receiver + span w front + gap + span w back) others ∧
    decls.Perm (laid w receiver front ++ laid w (receiver + span w front + gap) back ++ others)

theorem parted_zero_iff :
    Parted w receiver front 0 back decls ↔ Lodged w receiver (front ++ back) decls := by
  simp only [Parted, Lodged, laid_append, span_append, Nat.add_zero, Nat.add_assoc]

/-- The gap is where a parameter is missing. -/
theorem parted_iff : Parted w receiver front (w q.1) back decls ↔
    Lodged w receiver (front ++ q :: back)
      (⟨q.2, q.1, receiver + span w front, w q.1⟩ :: decls) := by
  refine exists_congr fun others => and_congr ?_ ?_
  · simp only [span_append, span_cons, Nat.add_assoc]
  · rw [laid_middle, List.append_assoc, List.append_assoc, List.cons_append]
    constructor
    · exact fun h => (h.cons _).trans List.perm_middle.symm
    · exact fun h => (List.perm_cons _).1 (h.trans List.perm_middle)

/-- What lies before the gap stays, and what lies behind it goes as far as the gap changes. -/
theorem Parted.moved (hw : ∀ t, 0 < w t) (h : Parted w receiver front gap back decls)
    (hlow : ∀ slot < receiver + span w front, f slot = slot)
    (hmid : ∀ slot, receiver + span w front + gap ≤ slot →
      slot < receiver + span w front + gap + span w back → f slot + gap = slot + gap')
    (hhigh : ∀ slot, receiver + span w front + gap + span w back ≤ slot →
      receiver + span w front + gap' + span w back ≤ f slot) :
    Parted w receiver front gap' back (decls.map (·.moved f)) := by
  obtain ⟨others, hothers, hdecls⟩ := h
  refine ⟨others.map (·.moved f), ?_, ?_⟩
  · exact hothers.moved (by omega) (fun slot hlt => hlow slot (by omega)) hhigh
  · have hfront : (laid w receiver front).map (·.moved f) = laid w receiver front := by
      refine laid_moved hw fun slot _ hlt => ?_
      rw [hlow slot hlt]
    have hback : (laid w (receiver + span w front + gap) back).map (·.moved f) =
        laid w (receiver + span w front + gap') back := by
      refine laid_moved hw fun slot hge hlt => ?_
      have := hmid slot hge hlt
      omega
    refine (hdecls.map _).trans (.of_eq ?_)
    rw [List.map_append, List.map_append, hfront, hback]

namespace Lodged

theorem of_perm (h : Lodged w receiver params decls) (hperm : decls'.Perm decls) :
    Lodged w receiver params decls' := by
  obtain ⟨others, hothers, hdecls⟩ := h
  exact ⟨others, hothers, hperm.trans hdecls⟩

theorem mem_at (h : Lodged w receiver (front ++ q :: back) decls) :
    ⟨q.2, q.1, receiver + span w front, w q.1⟩ ∈ decls := by
  obtain ⟨others, -, hdecls⟩ := h
  rw [laid_middle] at hdecls
  exact hdecls.symm.subset (by simp)

/-- The local at the slot of a parameter is the one of the parameter. -/
theorem eq_at (hw : ∀ t, 0 < w t) (h : Lodged w receiver (front ++ q :: back) decls)
    (hd : d ∈ decls) (hslot : d.slot = receiver + span w front) :
    d = ⟨q.2, q.1, receiver + span w front, w q.1⟩ := by
  obtain ⟨others, hothers, hdecls⟩ := h
  have hmem := hdecls.subset hd
  have hq := hw q.1
  simp only [laid_middle, List.mem_append, List.mem_cons] at hmem
  rcases hmem with (hm | he | hm) | hm
  · have := mem_laid hw hm
    omega
  · exact he
  · have := mem_laid hw hm
    omega
  · have := hothers.apart d hm
    rw [span_append, span_cons] at this
    omega

/-- Taking the local of a parameter out leaves a gap. -/
theorem part (hw : ∀ t, 0 < w t) (h : Lodged w receiver (front ++ q :: back) decls)
    (hdecls : decls.Perm (d :: decls')) (hslot : d.slot = receiver + span w front) :
    d = ⟨q.2, q.1, receiver + span w front, w q.1⟩ ∧
      Parted w receiver front (w q.1) back decls' := by
  have hd := h.eq_at hw (hdecls.symm.subset List.mem_cons_self) hslot
  rw [hd] at hdecls
  exact ⟨hd, parted_iff.2 (h.of_perm hdecls.symm)⟩

end Lodged

/-- A new parameter fills the gap that opens when everything behind it moves up. -/
theorem Lodged.insert (hw : ∀ t, 0 < w t) (h : Lodged w receiver (front ++ back) decls)
    {new : Declaration} (hnew : new = ⟨name, t, receiver + span w front, w t⟩)
    (hdecls : decls'.Perm (new :: decls.map (·.moved fun slot => Snapshot.moveUp slot new))) :
    Lodged w receiver (front ++ (t, name) :: back) decls' := by
  subst hnew
  have hmoved : Parted w receiver front (w t) back (decls.map (·.moved fun slot =>
      Snapshot.moveUp slot ⟨name, t, receiver + span w front, w t⟩)) := by
    refine (parted_zero_iff.2 h).moved hw (fun slot hlt => ?_) (fun slot hge _ => ?_)
      fun slot hge => ?_
    · exact if_neg (Nat.not_le_of_lt hlt)
    · rw [Snapshot.moveUp, if_pos (by omega : receiver + span w front ≤ slot)]
      rfl
    · rw [Snapshot.moveUp, if_pos (by omega : receiver + span w front ≤ slot)]
      change _ ≤ slot + w t
      omega
  exact ((parted_iff (q := (t, name))).1 hmoved).of_perm hdecls

/-- The gap closes when everything behind it moves down. -/
theorem Parted.close (hw : ∀ t, 0 < w t) (h : Parted w receiver front (w q.1) back decls)
    {gone : Declaration} (hgone : gone = ⟨q.2, q.1, receiver + span w front, w q.1⟩) :
    Lodged w receiver (front ++ back)
      (decls.map (·.moved fun slot => Snapshot.moveDown slot gone)) := by
  subst hgone
  have hq := hw q.1
  refine parted_zero_iff.1 (h.moved hw (fun slot hlt => ?_) (fun slot hge _ => ?_)
    fun slot hge => ?_)
  · exact if_neg (Nat.not_lt_of_lt hlt)
  · rw [Snapshot.moveDown, if_pos (by omega : receiver + span w front < slot)]
    change slot - w q.1 + w q.1 = _
    omega
  · rw [Snapshot.moveDown, if_pos (by omega : receiver + span w front < slot)]
    change _ ≤ slot - w q.1
    omega

/-- The gap gets another width, and is filled again. -/
theorem Parted.resize (hw : ∀ t, 0 < w t) (h : Parted w receiver front (w t) back decls)
    (hold : receiver + span w (front ++ (t, name) :: back) ≤ slotLimit)
    (hnew : receiver + span w (front ++ (t', name) :: back) ≤ slotLimit) :
    Lodged w receiver (front ++ (t', name) :: back)
      (⟨name, t', receiver + span w front, w t'⟩ ::
        decls.map (·.moved (Site.resized (receiver + span w front + w t) (w t) (w t')))) := by
  simp only [span_append, span_cons, slotLimit] at hold hnew
  have hmoved : Parted w receiver front (w t') back
      (decls.map (·.moved (Site.resized (receiver + span w front + w t) (w t) (w t')))) := by
    refine h.moved hw (fun slot hlt => ?_) (fun slot hge hlt => ?_) fun slot hge => ?_
    · exact if_neg (by simp; omega)
    · rw [Site.resized, if_pos (by simp [isReserved]; omega)]
      omega
    · -- a slot that cannot be addressed stays, and lies behind all parameters anyway
      by_cases hreserved : isReserved slot
      · rw [Site.resized, if_neg (by simp [hreserved])]
        simp only [isReserved, decide_eq_true_eq] at hreserved
        omega
      · rw [Site.resized, if_pos (by simp [hreserved]; omega)]
        omega
  exact (parted_iff (q := (t', name))).1 hmoved

/-- What stands at the places of an order, somewhere in a list, is all of it. -/
theorem perm_of_order {α : Type} {xs ys : List α} {order : List Nat}
    (hperm : order.Perm (List.range xs.length)) (horder : order.map (xs[·]?) = ys.map some) :
    ys.Perm xs := by
  have hall : (List.range xs.length).map (xs[·]?) = xs.map some := by
    refine List.ext_getElem (by simp) fun i hi hi' => ?_
    simp at hi ⊢
  have h := (hperm.map (xs[·]?)).filterMap id
  rw [horder, hall, List.filterMap_map, List.filterMap_map] at h
  simpa using h

/-- Parameters in another order, with all slots moved at once. -/
theorem Lodged.permute {order : List Nat} (h : Lodged w receiver params decls)
    (hperm : order.Perm (List.range params.length))
    (horder : order.map (params[·]?) = params'.map some)
    (hmoved : ∀ j k, order[j]? = some k →
      f (receiver + span w (params.take k)) = receiver + span w (params'.take j))
    (hstay : ∀ slot, slot < receiver ∨ receiver + span w params ≤ slot → f slot = slot) :
    Lodged w receiver params' (decls.map (·.moved f)) := by
  obtain ⟨others, hothers, hdecls⟩ := h
  have hspan : span w params' = span w params :=
    totalWidth_perm ((perm_of_order hperm horder).map _)
  refine ⟨others.map (·.moved f), ?_, ?_⟩
  · rw [hspan]
    exact hothers.moved (Nat.le_add_right _ _) (fun slot hlt => hstay slot (.inl hlt))
      fun slot hge => Nat.le_trans hge (Nat.le_of_eq (hstay slot (.inr hge)).symm)
  · have hlaid : ((laid w receiver params').Perm ((laid w receiver params).map (·.moved f))) := by
      refine @perm_of_order _ _ _ order (by simpa using hperm) (List.ext_getElem? fun j => ?_)
      have hat := congrArg (·[j]?) horder
      simp only [List.getElem?_map] at hat
      simp only [List.getElem?_map, laid_getElem, Option.map_map]
      cases hj : order[j]? with
      | none =>
        rw [hj] at hat
        cases hq : params'[j]? with
        | none => rfl
        | some q => simp [hq] at hat
      | some k =>
        rw [hj] at hat
        cases hq : params'[j]? with
        | none => simp [hq] at hat
        | some q =>
          have hk : params[k]? = some q := by simpa [hq] using hat
          simp [hk, Declaration.moved, hmoved j k hj]
    refine (hdecls.map _).trans ?_
    rw [List.map_append]
    exact hlaid.symm.append_right _

end Reparam
