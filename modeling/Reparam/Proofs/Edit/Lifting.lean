import Reparam.Proofs.Edit.Frame

/-! Scripts for a part of a list, moved back to where the part stands in a longer one. They do the
same to the part there, on their own or behind a script that leads to the longer list. -/
namespace Reparam

variable {α : Type} {fresh : ValueType → α} {retype : ValueType → α → α} {s base : Script}
  {xs ys ys' : List α} {part part' : List ValueType}

namespace Script

/-- Where every edit starts below the limit, none is left out. -/
theorem offset_eq_map {delta limit : Nat} (h : ∀ e ∈ s, e.primary < limit) :
    s.offset delta limit = s.map (·.offset delta) := by
  rw [offset, List.filter_eq_self.2]
  intro e he
  exact decide_eq_true (h e he)

/-- What is merged works on a part of what the script before it leaves. -/
theorem run_merge (front back : List α) (hbase : base.run fresh retype xs = .ok (front ++ ys ++ back))
    (hs : s.run fresh retype ys = .ok ys') :
    (base.merge s front.length).run fresh retype xs = .ok (front ++ ys' ++ back) := by
  rw [merge, run_append hbase]
  exact run_frame front back hs

end Script

/-- A script for a part of a list of types, moved back by what stands in front of the part, replays
the part and leaves the rest alone; so it does when it is merged into a script that ends in the
longer list. The largest index is out of the question: it stands for no parameter. -/
theorem replay_lifted (front back : List ValueType) (h : s.replay part = .ok part') :
    ((∀ e ∈ s, e.primary < maxIndex) →
      (s.offset front.length maxIndex).replay (front ++ part ++ back) =
        .ok (front ++ part' ++ back)) ∧
    ∀ (base : Script) (types : List ValueType), base.replay types = .ok (front ++ part ++ back) →
      (base.merge s front.length).replay types = .ok (front ++ part' ++ back) := by
  constructor
  · intro hs
    rw [Script.offset_eq_map hs]
    exact Script.run_frame front back h
  · intro base types hbase
    exact Script.run_merge front back hbase h

/-- An insertion at the end of the part stays in front of what follows it. -/
theorem replay_lifted_on_insert :
    let s : Script := [.insert 2 .long, .substitute 0 2, .move 1 0]
    (s.offset 1 maxIndex).replay [.boolean, .int, .float, .char] =
        .ok [.boolean, .long, .float, .char] ∧
      (Script.merge [.remove 0] s 1).replay [.double, .boolean, .int, .float, .char] =
        .ok [.boolean, .long, .float, .char] := by
  obtain ⟨hoffset, hmerge⟩ := @replay_lifted [.insert 2 .long, .substitute 0 2, .move 1 0]
    [.int, .float] [.long, .float] [.boolean] [.char] rfl
  exact ⟨hoffset (by decide), hmerge [.remove 0] [.double, .boolean, .int, .float, .char] rfl⟩

end Reparam
