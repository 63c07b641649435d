import Reparam.Proofs.Edit.Frame

/-! The swaps and moves that flattening reads off two lists of tokens. Both lists hold their
inserted tokens at the same places, so that only reference parameters ever trade places. -/
namespace Reparam

variable {wanted current : List Token} {names : List Nat} {resolve : Nat → Nat} {base : Nat}
  {fresh : ValueType → Token} {retype : ValueType → Token → Token}

def Token.IsReference (t : Token) : Prop := t.ordinal?.isSome

section Perm

variable {w c : Token} {j : Nat}

theorem perm_of_swap (h : (c :: current).Perm (w :: wanted)) (hj : current[j]? = some w) :
    (current.set j c).Perm wanted := by
  obtain ⟨hlt, rfl⟩ := List.getElem?_eq_some_iff.1 hj
  have hset := @List.set_set_perm _ (c :: current) 0 (j + 1) (by simp) (by simpa)
  exact (List.perm_cons _).1 (hset.trans h)

theorem perm_of_move (h : (c :: current).Perm (w :: wanted)) (hj : current[j]? = some w) :
    (c :: current.eraseIdx j).Perm wanted := by
  obtain ⟨hlt, rfl⟩ := List.getElem?_eq_some_iff.1 hj
  have herase := (List.getElem_cons_eraseIdx_perm hlt).symm
  exact (List.perm_cons _).1 ((((herase.cons c).trans (.swap ..)).symm).trans h)

/-- The token that is wanted in front stands further back. -/
theorem exists_findIdx (h : (c :: current).Perm (w :: wanted)) (hne : c ≠ w) :
    ∃ j, current.findIdx? (· = w) = some j ∧ current[j]? = some w := by
  have hmem : w ∈ current :=
    (List.mem_cons.1 (h.symm.subset List.mem_cons_self)).resolve_left hne.symm
  obtain ⟨j, hfind⟩ : ∃ j, current.findIdx? (· = w) = some j := by
    rw [← Option.isSome_iff_exists, List.findIdx?_isSome]
    simpa using hmem
  obtain ⟨hlt, hw, -⟩ := List.findIdx?_eq_some_iff_getElem.1 hfind
  exact ⟨j, hfind, List.getElem?_eq_some_iff.2 ⟨hlt, by simpa using hw⟩⟩

end Perm

/-- One list can be brought into the order of the other one by moving reference parameters, and
every place that holds one is called by a name that `resolve` resolves. -/
structure Settleable (resolve : Nat → Nat) (base : Nat) (wanted current : List Token)
    (names : List Nat) : Prop where
  perm : current.Perm wanted
  places : ∀ (i : Nat) (w c : Token), wanted[i]? = some w → current[i]? = some c → w ≠ c →
    w.IsReference ∧ c.IsReference
  named : ∀ (i : Nat) (c : Token), current[i]? = some c → c.IsReference →
    ∃ name, names[i]? = some name ∧ resolve name = base + i
  length : names.length = current.length

namespace Settleable

variable {w c : Token} {name j : Nat}

theorem tail (h : Settleable resolve base (w :: wanted) (w :: current) (name :: names)) :
    Settleable resolve (base + 1) wanted current names where
  perm := (List.perm_cons w).1 h.perm
  places i := h.places (i + 1)
  named i c hc hr := by
    obtain ⟨name, hn, ha⟩ := h.named (i + 1) c hc hr
    exact ⟨name, hn, by omega⟩
  length := Nat.succ_inj.1 h.length

theorem head_isReference (h : Settleable resolve base (w :: wanted) (c :: current) (name :: names))
    (hne : c ≠ w) : w.IsReference ∧ c.IsReference :=
  h.places 0 w c rfl rfl hne.symm

theorem head_name (h : Settleable resolve base (w :: wanted) (c :: current) (name :: names))
    (hne : c ≠ w) : resolve name = base := by
  obtain ⟨_, hn, ha⟩ := h.named 0 c rfl (h.head_isReference hne).2
  cases hn
  exact ha

theorem other_name (h : Settleable resolve base (w :: wanted) (c :: current) (name :: names))
    (hne : c ≠ w) (hj : current[j]? = some w) : resolve (names.getD j maxIndex) = base + (j + 1) := by
  obtain ⟨other, hn, ha⟩ := h.named (j + 1) w hj (h.head_isReference hne).1
  have : names[j]? = some other := hn
  rw [List.getD_eq_getElem?_getD, this]
  exact ha

theorem swap (h : Settleable resolve base (w :: wanted) (c :: current) (name :: names))
    (hne : c ≠ w) (hj : current[j]? = some w) :
    Settleable resolve (base + 1) wanted (current.set j c) names where
  perm := perm_of_swap h.perm hj
  places i v d hv hd hvd := by
    have href := h.head_isReference hne
    have := h.places (i + 1) v
    grind
  named i d hd hr := by
    have href := h.head_isReference hne
    have := h.named (i + 1)
    grind
  length := by simpa using h.length

theorem getElem?_moved {i : Nat} :
    (c :: current.eraseIdx j)[i]? =
      if i = 0 then some c else if i ≤ j then current[i - 1]? else current[i]? := by
  grind

theorem move (h : Settleable resolve base (w :: wanted) (c :: current) (name :: names))
    (hne : c ≠ w) (hj : current[j]? = some w)
    (hall : ∀ i ≤ j, ∀ t, current[i]? = some t → t.IsReference) :
    Settleable resolve (base + 1) wanted (c :: current.eraseIdx j) names where
  perm := perm_of_move h.perm hj
  places i v d hv hd hvd := by
    have hplace := h.places (i + 1) v
    rw [getElem?_moved] at hd
    by_cases hi : i ≤ j
    · -- up to the place that gave the token away every token is a reference parameter
      have hlt : i < current.length := by grind
      have hcur := hall i hi current[i] (List.getElem?_eq_getElem hlt)
      have hv' : v.IsReference := by
        by_cases he : v = current[i]
        · exact he ▸ hcur
        · exact (hplace current[i] hv (List.getElem?_eq_getElem hlt) he).1
      refine ⟨hv', ?_⟩
      split at hd
      · cases hd
        exact (h.head_isReference hne).2
      · exact hall (i - 1) (by omega) d hd
    · rw [if_neg (by omega), if_neg hi] at hd
      exact hplace d hv hd hvd
  named i d hd hr := by
    obtain ⟨e, he, her⟩ : ∃ e, current[i]? = some e ∧ e.IsReference := by
      rw [getElem?_moved] at hd
      by_cases hi : i ≤ j
      · have hlt : i < current.length := by grind
        exact ⟨current[i], by simp, hall i hi _ (by simp)⟩
      · rw [if_neg (by omega), if_neg hi] at hd
        exact ⟨d, hd, hr⟩
    obtain ⟨name', hn, ha⟩ := h.named (i + 1) e he her
    exact ⟨name', hn, by omega⟩
  length := by
    have := h.length
    grind

end Settleable

theorem isReference_of_contiguous {c : Token} {j : Nat}
    (h : (c :: current.take (j + 1)).all (·.ordinal?.isSome)) :
    ∀ i ≤ j, ∀ t, current[i]? = some t → t.IsReference := by
  intro i hi t ht
  refine List.all_eq_true.1 h t (List.mem_cons_of_mem _ ?_)
  exact List.mem_of_getElem? (i := i) (by rw [List.getElem?_take_of_lt (by omega), ht])

theorem run_settle (pre : List Token) (h : Settleable resolve pre.length wanted current names) :
    Script.run fresh retype
      ((Tracking.settle wanted current names).map fun r => (r.mapIndices resolve).toEdit)
      (pre ++ current) = .ok (pre ++ wanted) := by
  induction wanted generalizing current names pre with
  | nil =>
    have := List.Perm.eq_nil h.perm
    subst this
    rfl
  | cons w wanted ih =>
    obtain _ | ⟨c, current⟩ := current
    · exact absurd h.perm.symm.eq_nil (by simp)
    obtain _ | ⟨name, names⟩ := names
    · exact absurd h.length (by simp)
    by_cases hcw : c = w
    · subst hcw
      rw [Tracking.settle, if_pos rfl]
      have := ih (pre ++ [c]) (by simpa using h.tail)
      simpa using this
    · obtain ⟨j, hfind, hj⟩ := exists_findIdx h.perm hcw
      obtain ⟨hlt, hw'⟩ := List.getElem?_eq_some_iff.1 hj
      have hname := h.head_name hcw
      have hother := h.other_name hcw hj
      rw [Tracking.settle, if_neg hcw, hfind]
      simp only
      split
      · rename_i hmove
        have step : (Edit.move (pre.length + (j + 1)) pre.length).Step fresh retype
            (pre ++ c :: current) (pre ++ w :: c :: current.eraseIdx j) := by
          have : (Edit.move (j + 1) 0).Step fresh retype (c :: current)
              (relocate (c :: current) (j + 1) 0) := .move (by simpa) (by simp)
          simpa [Edit.offset, Edit.mapIndices, Nat.add_comm, relocate, hlt, hw'] using
            this.frame pre []
        have hrest := h.move hcw hj (isReference_of_contiguous hmove.2.1)
        have := ih (pre ++ [w]) (by simpa using hrest)
        rw [← hother, ← hname] at step
        refine (Script.run_cons step).trans ?_
        simpa using this
      · have step : (Edit.swap pre.length (pre.length + (j + 1))).Step fresh retype
            (pre ++ c :: current) (pre ++ w :: current.set j c) := by
          have : (Edit.swap 0 (j + 1)).Step fresh retype (c :: current)
              (exchange (c :: current) 0 (j + 1)) := .swap (by simp) (by simpa)
          simpa [Edit.offset, Edit.mapIndices, Nat.add_comm, exchange, hlt, hw'] using
            this.frame pre []
        have := ih (pre ++ [w]) (by simpa using h.swap hcw hj)
        rw [← hother, ← hname] at step
        refine (Script.run_cons step).trans ?_
        simpa using this

end Reparam
