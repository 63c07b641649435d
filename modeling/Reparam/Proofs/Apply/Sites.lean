import Reparam.Apply.Phases
import Reparam.Proofs.Apply.Row
import Reparam.Proofs.Slots.Reconciling

/-! What the slots of a body stand for while a script is applied. A site says so without a number:
its slot follows from where the parameters are laid out. -/
namespace Reparam

/-- What an instruction or a local refers to: a slot of the receiver, a parameter, a slot at some
distance behind the parameters, code that is never reached, a reference that is parked while the
slots move, or generated code that stands in the place of the instruction. -/
inductive Site where
  | receiver (slot : Nat)
  | parameter (o : Origin)
  | beyond (distance : Nat)
  | unreachable
  | parked
  | generated (generator : Nat)
deriving DecidableEq, Repr

/-- What stays the same while a script is applied: the applier, which has no adapters and generates
no code with slots, the slots of the receiver, a bound that the parameters never go past, and the
locals that belong to no parameter. -/
structure Premises where
  applier : Applier
  receiver : Nat
  bound : Nat
  others : List (Site × ValueType)
  widths_pos : ∀ t, 0 < applier.widths t
  no_adapters : ∀ slot actual expected, applier.adapters slot actual expected = none
  plain : ∀ k code, applier.generators.generate? k = some code → ∀ i ∈ code, i.slot? = none
  others_kept : ∀ q ∈ others, (∃ slot < receiver, q.1 = .receiver slot) ∨
    ∃ distance, bound + distance ≤ maxSlot ∧ q.1 = .beyond distance

variable {g : Premises} {row front back : Row} {s : Site} {o : Origin} {t t' : ValueType}

/-- The parameters stay within the bound and can all be addressed. -/
structure Row.Fits (g : Premises) (row : Row) : Prop where
  bound : g.receiver + extent g.applier.widths row ≤ g.bound
  limit : g.receiver + extent g.applier.widths row ≤ slotLimit

namespace Site

/-- The site has the same number wherever the parameters are. -/
def isFixed : Site → Bool
  | receiver _ | parameter _ | beyond _ => false
  | unreachable | parked | generated _ => true

/-- The number of a site. Generated code has none that could be addressed. -/
def slot (g : Premises) (row : Row) : Site → Nat
  | receiver x => x
  | parameter o => Row.start g.applier.widths o g.receiver row
  | beyond distance => g.receiver + Row.extent g.applier.widths row + distance
  | unreachable | generated _ => unreachableSlot
  | parked => placeholderSlot

/-- The site is there when the parameters are these. -/
def In (g : Premises) (row : Row) : Site → Prop
  | receiver x => x < g.receiver
  | parameter o => o ∈ row.origins
  | beyond distance => g.bound + distance ≤ maxSlot
  | unreachable | parked | generated _ => True

theorem slot_le (hs : s.In g row) (hf : row.Fits g) (hfixed : s.isFixed = false) :
    s.slot g row ≤ maxSlot := by
  have hbound := hf.bound
  have hlimit := hf.limit
  unfold slotLimit at hlimit
  cases s with
  | receiver x =>
    change x < g.receiver at hs
    change x ≤ maxSlot
    omega
  | parameter o =>
    have := @Row.start_lt _ g.receiver _ _ g.widths_pos hs
    change Row.start .. ≤ maxSlot
    omega
  | beyond distance =>
    change g.bound + distance ≤ maxSlot at hs
    change _ + distance ≤ maxSlot
    omega
  | unreachable => cases hfixed
  | parked => cases hfixed
  | generated k => cases hfixed

theorem isReserved_of_fixed (g : Premises) (row : Row) (hfixed : s.isFixed = true) :
    isReserved (s.slot g row) = true := by
  cases s <;> first | rfl | cases hfixed

theorem isReserved_slot (hs : s.In g row) (hf : row.Fits g) :
    isReserved (s.slot g row) = s.isFixed := by
  cases hfixed : s.isFixed with
  | false =>
    have := slot_le hs hf hfixed
    simpa [isReserved] using this
  | true => exact isReserved_of_fixed g row hfixed

/-- No other site has the number of a parameter. -/
theorem eq_parameter (hs : s.In g row) (hf : row.Fits g) (ho : o ∈ row.origins)
    (h : s.slot g row = (parameter o).slot g row) : s = .parameter o := by
  have hlow : g.receiver ≤ (parameter o).slot g row := Row.le_start
  have hhigh := @Row.start_lt _ g.receiver _ _ g.widths_pos ho
  have hreach : isReserved ((parameter o).slot g row) = false :=
    isReserved_slot (s := .parameter o) ho hf
  have hfixed := isReserved_slot hs hf
  rw [h, hreach] at hfixed
  cases s with
  | receiver x =>
    change x < g.receiver at hs
    change x = _ at h
    omega
  | parameter p => rw [Row.start_injective g.widths_pos hs ho h]
  | beyond distance =>
    change g.receiver + _ + distance = Row.start .. at h
    omega
  | unreachable => cases hfixed
  | parked => cases hfixed
  | generated k => cases hfixed

/-- No other site has the number of a parked reference. -/
theorem eq_parked (hs : s.In g row) (hf : row.Fits g) (h : s.slot g row = placeholderSlot) :
    s = .parked := by
  have hfixed := isReserved_slot hs hf
  rw [h] at hfixed
  cases s with
  | parked => rfl
  | receiver x => cases hfixed
  | parameter o => cases hfixed
  | beyond distance => cases hfixed
  | unreachable => cases h
  | generated k => cases h

/-- One site in the place of another one. -/
def redirect (source dest : Site) (s : Site) : Site := if s = source then dest else s

/-! Where sites go when the row changes. -/

variable {d : Declaration}

theorem In.of_origins {row' : Row} (hs : s.In g row)
    (ho : ∀ o, s = .parameter o → o ∈ row'.origins) : s.In g row' := by
  cases s with
  | parameter o => exact ho o rfl
  | receiver x => exact hs
  | beyond distance => exact hs
  | unreachable => trivial
  | parked => trivial
  | generated k => trivial

/-- When a part of the row is exchanged for another one, a site that is in neither lies before it
and stays, or lies behind it and keeps its distance, or has a fixed number. -/
theorem slot_exchange (front mid mid' back : Row) (hs : s.In g (front ++ back))
    (hmid : ∀ o, s = .parameter o → o ∉ mid.origins ∧ o ∉ mid'.origins) :
    let behind := g.receiver + Row.extent g.applier.widths front
    let old := s.slot g (front ++ mid ++ back)
    let new := s.slot g (front ++ mid' ++ back)
    (s.isFixed = false ∧ old < behind ∧ new = old) ∨
    (s.isFixed = false ∧ ∃ distance, old = behind + Row.extent g.applier.widths mid + distance ∧
      new = behind + Row.extent g.applier.widths mid' + distance) ∨
    (s.isFixed = true ∧ new = old) := by
  intro behind old new
  cases s with
  | receiver x =>
    refine .inl ⟨rfl, ?_, rfl⟩
    change x < g.receiver at hs
    change x < _ + _
    omega
  | parameter o =>
    obtain ⟨hm, hm'⟩ := hmid o rfl
    by_cases hfront : o ∈ front.origins
    · have at_front (mid : Row) : (parameter o).slot g (front ++ mid ++ back) =
          Row.start g.applier.widths o g.receiver front := by
        rw [slot, List.append_assoc, Row.start_append_of_mem hfront]
      refine .inl ⟨rfl, ?_, (at_front mid').trans (at_front mid).symm⟩
      have hold : old = _ := at_front mid
      rw [hold]
      exact Row.start_lt g.widths_pos hfront
    · have at_back (mid : Row) (hm : o ∉ mid.origins) :
          (parameter o).slot g (front ++ mid ++ back) =
            behind + Row.extent g.applier.widths mid + Row.start g.applier.widths o 0 back := by
        have ho : o ∉ (front ++ mid).origins := by
          rw [Row.origins_append, List.mem_append, not_or]
          exact ⟨hfront, hm⟩
        rw [slot, Row.start_append_of_not_mem ho, ← Nat.zero_add (g.receiver + _), Row.start_add,
          Row.extent_append]
        omega
      exact .inr (.inl ⟨rfl, _, at_back mid hm, at_back mid' hm'⟩)
  | beyond distance =>
    refine .inr (.inl ⟨rfl, Row.extent g.applier.widths back + distance, ?_, ?_⟩)
    · change _ + _ + _ = _
      simp only [Row.extent_append]
      omega
    · change _ + _ + _ = _
      simp only [Row.extent_append]
      omega
  | unreachable => exact .inr (.inr ⟨rfl, rfl⟩)
  | parked => exact .inr (.inr ⟨rfl, rfl⟩)
  | generated k => exact .inr (.inr ⟨rfl, rfl⟩)

theorem settled_slot (f : Nat → Nat) (hs : s.In g row) (hf : row.Fits g) :
    Snapshot.settled f (s.slot g row) =
      if s.isFixed then s.slot g row else f (s.slot g row) := by
  rw [Snapshot.settled, isReserved_slot hs hf]

/-- A parameter that comes to the row moves up what lies behind it. -/
theorem slot_insert (hs : s.In g (front ++ back)) (hf : Row.Fits g (front ++ back))
    (ho : s ≠ .parameter o) (hslot : d.slot = g.receiver + Row.extent g.applier.widths front)
    (hwidth : d.width = g.applier.widths t) :
    s.slot g (front ++ (o, t) :: back) =
      Snapshot.settled (fun x => Snapshot.moveUp x d) (s.slot g (front ++ back)) := by
  have hcases := slot_exchange front [] [(o, t)] back hs (by
    rintro p rfl
    simpa [Row.origins] using ho)
  simp only [List.append_assoc, List.nil_append, List.singleton_append, Row.extent_nil,
    Row.extent_singleton] at hcases
  rw [settled_slot _ hs hf, Snapshot.moveUp, hslot, hwidth]
  rcases hcases with ⟨hfixed, hlt, hnew⟩ | ⟨hfixed, distance, hold, hnew⟩ | ⟨hfixed, hnew⟩
  · rw [hnew, if_neg (by simp [hfixed]), if_neg (by omega)]
  · rw [hnew, if_neg (by simp [hfixed]), if_pos (by omega)]
    omega
  · rw [hnew, if_pos hfixed]

/-- A parameter that leaves the row moves down what lies behind it. -/
theorem slot_drop (hs : s.In g (front ++ back)) (hf : Row.Fits g (front ++ (o, t) :: back))
    (ho : s ≠ .parameter o) (hslot : d.slot = g.receiver + Row.extent g.applier.widths front)
    (hwidth : d.width = g.applier.widths t) :
    s.slot g (front ++ back) =
      Snapshot.settled (fun x => Snapshot.moveDown x d) (s.slot g (front ++ (o, t) :: back)) := by
  have hpos := g.widths_pos t
  have hcases := slot_exchange front [(o, t)] [] back hs (by
    rintro p rfl
    simpa [Row.origins] using ho)
  simp only [List.append_assoc, List.nil_append, List.singleton_append, Row.extent_nil,
    Row.extent_singleton] at hcases
  have hs' : s.In g (front ++ (o, t) :: back) := hs.of_origins fun p hp => by
    subst hp
    exact (List.Sublist.map _ ((List.sublist_cons_self _ _).append_left front)).subset hs
  rw [settled_slot _ hs' hf, Snapshot.moveDown, hslot, hwidth]
  rcases hcases with ⟨hfixed, hlt, hnew⟩ | ⟨hfixed, distance, hold, hnew⟩ | ⟨hfixed, hnew⟩
  · rw [hnew, if_neg (by simp [hfixed]), if_neg (by omega)]
  · rw [hnew, if_neg (by simp [hfixed]), if_pos (by omega)]
    omega
  · rw [hnew, if_pos hfixed]

/-- Where a slot goes when what ends at a slot gets another width. -/
def resized (stop old new slot : Nat) : Nat :=
  if stop ≤ slot && !isReserved slot then slot - old + new else slot

/-- A parameter with another width moves what lies behind it, and stays itself. -/
theorem slot_resize (hs : s.In g (front ++ (o, t) :: back))
    (hf : Row.Fits g (front ++ (o, t) :: back)) (ho : o ∉ front.origins)
    (hb : o ∉ back.origins) :
    s.slot g (front ++ (o, t') :: back) =
      resized (g.receiver + Row.extent g.applier.widths front + g.applier.widths t)
        (g.applier.widths t) (g.applier.widths t') (s.slot g (front ++ (o, t) :: back)) := by
  have hpos := g.widths_pos t
  rw [resized, isReserved_slot hs hf]
  by_cases hself : s = .parameter o
  · have at_front (t : ValueType) : (parameter o).slot g (front ++ (o, t) :: back) =
        g.receiver + Row.extent g.applier.widths front := Row.start_at ho
    subst hself
    rw [at_front, at_front, if_neg]
    simp only [Bool.and_eq_true, decide_eq_true_eq]
    omega
  · have hcases := slot_exchange (s := s) (g := g) front [(o, t)] [(o, t')] back
      (hs.of_origins fun p hp => by
        subst hp
        simp only [In, Row.origins, List.map_append, List.mem_append, List.map_cons,
          List.mem_cons] at hs ⊢
        rcases hs with hs | rfl | hs
        · exact .inl hs
        · exact (hself rfl).elim
        · exact .inr hs)
      (by
        rintro p rfl
        simpa [Row.origins] using hself)
    simp only [List.append_assoc, List.singleton_append, Row.extent_singleton] at hcases
    rcases hcases with ⟨hfixed, hlt, hnew⟩ | ⟨hfixed, distance, hold, hnew⟩ | ⟨hfixed, hnew⟩
    · rw [hnew, if_neg]
      simp only [Bool.and_eq_true, decide_eq_true_eq]
      omega
    · rw [hnew, if_pos (by simp [hfixed]; omega)]
      omega
    · rw [hnew, if_neg (by simp [hfixed])]

end Site
end Reparam
