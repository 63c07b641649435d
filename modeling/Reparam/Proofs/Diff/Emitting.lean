import Reparam.Proofs.Diff.InStep

/-! The scripts that drafts come to while the reference parameters stand in their first order, edit
by edit. -/
namespace Reparam

variable {d : Draft} {n ordinal index : Nat} {t : ValueType} {p q : Placed} {target : List Placed}
  {working : List Entry} {e : Edit}

/-- The script that adds types one after the other, behind as many parameters as are there. -/
def Script.appending (start : Nat) (types : List ValueType) : Script :=
  (types.zipIdx start).map fun (t, i) => .insert i t

@[simp] theorem Script.appending_nil (start : Nat) : Script.appending start [] = [] := rfl

@[simp] theorem Script.appending_cons (start : Nat) (t : ValueType) (types : List ValueType) :
    Script.appending start (t :: types) = .insert start t :: Script.appending (start + 1) types := by
  simp [appending, List.zipIdx_cons]

namespace SinglePass

theorem walk_same (whole : List Mark) (index cursor : Nat) (m : Mark) (olds news : List Mark) :
    walk whole index cursor (m :: olds) (m :: news) =
      (walk whole (index + 1) (cursor + 1) olds news).consume 1 := by
  have hverdict : verdict whole cursor m m olds news = .keep := by simp [verdict]
  rw [walk, hverdict]

theorem walk_rest (whole : List Mark) (index cursor : Nat) (news : List Mark) :
    walk whole index cursor [] news = { insertions := numbered index news } := by
  cases news <;> simp [walk, numbered]

/-- What comes first on either side is consumed, and the target's others are inserted behind it. -/
theorem compareMarks_longer (m : Mark) (news : List Mark) :
    compareMarks [m] (m :: news) = .ok { insertions := numbered 1 news, consumed := 1 } := by
  simp [compareMarks, walk_same, walk_rest, Findings.consume, numbered, Nat.add_comm]

/-- Nothing is found where the target ends first. -/
theorem compareMarks_shorter (m : Mark) (olds : List Mark) :
    compareMarks (m :: olds) [m] = .ok { consumed := 1 } := by
  simp [compareMarks, walk_same, walk, Findings.consume]

theorem toScript_numbered (n : Nat) (news : List Mark) :
    (Findings.toScript { insertions := numbered 1 news, consumed := 1 }).map (·.offset n) =
      Script.appending (n + 1) (news.map (·.type)) := by
  rw [Script.appending, List.zipIdx_map, ← List.map_snd_add_zipIdx_eq_zipIdx]
  simp [Findings.toScript, numbered, Function.comp_def, Edit.offset, Edit.mapIndices]

end SinglePass

namespace Draft

theorem emit_eq (h : e.Step (fun _ => .inserted) (fun _ entry => entry) d.working working) :
    d.emit e = .ok ⟨working, d.script ++ [e]⟩ := by
  rw [emit, h.apply_eq]

theorem insertAt_eq (h : index ≤ d.working.length) (t : ValueType) :
    d.insertAt index t =
      .ok ⟨d.working.insertIdx index .inserted, d.script ++ [.insert index t]⟩ := by
  rw [insertAt, Nat.min_eq_left h]
  exact emit_eq (.insert t h)

theorem emit_append (d : Draft) (t : ValueType) :
    d.emit (.insert d.working.length t) =
      .ok ⟨d.working ++ [.inserted], d.script ++ [.insert d.working.length t]⟩ := by
  rw [← List.insertIdx_length_self]
  exact emit_eq (.insert t (Nat.le_refl _))

theorem emit_appending (d : Draft) (types : List ValueType) :
    ∃ working, (Script.appending d.working.length types).foldlM emit d =
      .ok ⟨working, d.script ++ Script.appending d.working.length types⟩ := by
  induction types generalizing d with
  | nil => exact ⟨d.working, by simp; rfl⟩
  | cons t types ih =>
    obtain ⟨working, hrest⟩ :=
      ih ⟨d.working ++ [.inserted], d.script ++ [.insert d.working.length t]⟩
    rw [List.length_append, List.length_singleton, List.append_assoc, List.singleton_append] at hrest
    refine ⟨working, ?_⟩
    rw [Script.appending_cons, List.foldlM_cons, emit_append]
    exact hrest

/-- Insertions at the ordinals that come next are added one after the other. -/
theorem insert_behind (hn : NumberedFrom d.working.length target) :
    (insertions target).foldlM perform d =
      (Script.appending d.working.length (target.map (·.type))).foldlM emit d := by
  induction target generalizing d with
  | nil => rfl
  | cons q target ih =>
    have hordinal : q.ordinal = d.working.length := hn 0 q rfl
    have hinsert : d.perform (.insertAt q.ordinal q.type) =
        d.emit (.insert d.working.length q.type) := by
      rw [perform, hordinal, insertAt, Nat.min_self]
    have hrest := @ih ⟨d.working ++ [.inserted], d.script ++ [.insert d.working.length q.type]⟩
    rw [List.length_append, List.length_singleton] at hrest
    rw [insertions, List.map_cons, List.foldlM_cons, hinsert, List.map_cons, Script.appending_cons,
      List.foldlM_cons, emit_append]
    exact hrest (hn.drop 1)

/-- The reference parameters are all there in their first order, and nothing else is. -/
def Untouched (n : Nat) (d : Draft) : Prop := d.working = (List.range n).map .reference

theorem initial_untouched (n : Nat) : (initial n).Untouched n := rfl

namespace Untouched

theorem length (h : d.Untouched n) : d.working.length = n := by
  rw [h, List.length_map, List.length_range]

theorem position (h : d.Untouched n) (hlt : ordinal < n) : d.position ordinal = .ok ordinal := by
  have hfind : d.working.findIdx? (· = .reference ordinal) = some ordinal := by
    rw [h, List.findIdx?_eq_some_iff_getElem]
    refine ⟨by simpa using hlt, by simp, fun i hi => ?_⟩
    simpa using Nat.ne_of_lt hi
  simp only [Draft.position, hfind]

theorem remove (h : d.Untouched n) (hlt : ordinal < n) :
    d.remove ordinal = .ok ⟨d.working.eraseIdx ordinal, d.script ++ [.remove ordinal]⟩ := by
  simp only [Draft.remove, h.position hlt]
  exact emit_eq (.remove (by rwa [h.length]))

/-- Another type leaves a parameter where it is. -/
theorem replace (h : d.Untouched n) (hlt : ordinal < n) (t : ValueType) :
    ∃ d', d.perform (.replace ordinal t) = .ok d' ∧ d'.Untouched n ∧
      d'.script = d.script ++ [.replace ordinal t] := by
  have hsame : d.working.modify ordinal (fun entry => entry) = d.working := List.modify_id ..
  have hemit := @emit_eq d _ _
    (.replace t (by rwa [h.length]) : (Edit.replace ordinal t).Step _ _ _ _)
  rw [hsame] at hemit
  simp only [perform, h.position hlt]
  exact ⟨_, hemit, h, rfl⟩

/-- The window of the last parameter adds what the target has more. -/
theorem window_longer (h : d.Untouched (n + 1)) (hp : p.ordinal = n) (more : List Placed) :
    d.perform (.window [p] (p :: more)) =
      (Script.appending (n + 1) (more.map (·.type))).foldlM emit d := by
  have hposition := h.position (Nat.lt_succ_self n)
  have hscript := SinglePass.toScript_numbered n (more.map fun q => ⟨q.type, q.synthetic⟩)
  simp only [List.map_map, Function.comp_def] at hscript
  have hcompare : SinglePass.compare [p] (p :: more) = .ok _ := SinglePass.compareMarks_longer ..
  simp only [perform, compareWindow, hp, hposition, hcompare, bind, Except.bind, hscript]
  cases (Script.appending (n + 1) (more.map (·.type))).foldlM emit d <;> rfl

/-- The window of two parameters of which the target has the first drops the second. -/
theorem window_shorter (h : d.Untouched n) (hlt : p.ordinal < n) (q : Placed) :
    d.perform (.window [p, q] [p]) = d.remove q.ordinal := by
  simp only [perform, compareWindow, h.position hlt, SinglePass.compare, List.map_cons,
    List.map_nil, SinglePass.compareMarks_shorter, bind, Except.bind]
  change [q.ordinal].foldlM Draft.remove d = _
  rw [List.foldlM_cons]
  cases d.remove q.ordinal <;> rfl

end Untouched

end Draft
end Reparam
