import Reparam.Proofs.Apply.Moving

/-! What every single change to a body keeps, a whole application keeps. -/
namespace Reparam.Applier

variable {a : Applier} {I : Progress → Prop} {p p' : Progress} {f : FlatScript} {b : Body}

/-- Parameters that leave or change places keep a property. -/
structure KeepsLeaving (a : Applier) (I : Progress → Prop) : Prop where
  substitute : ∀ {p p' target source}, I p → a.substitute p target source = .ok p' → I p'
  permute : ∀ {p p' order}, I p → a.permute order p = .ok p' → I p'
  remove : ∀ {p p' index}, I p → a.remove p index = .ok p' → I p'
  inline : ∀ {p p' index generator}, I p → a.inline p index generator = .ok p' → I p'

/-- So do parameters that come in or get another type. -/
structure Keeps (a : Applier) (I : Progress → Prop) : Prop extends KeepsLeaving a I where
  insert : ∀ {p p' index t}, I p → a.insert p index t = .ok p' → I p'
  replace : ∀ {p p' index t}, I p → a.replace p index t = .ok p' → I p'

theorem substituteAll_keeps {edits : List (Nat × Nat)} {gone : List Nat}
    (hstep : ∀ {p p' target source}, I p → a.substitute p target source = .ok p' → I p')
    (h : I p) (hp : a.substituteAll edits gone p = .ok p') : I p' := by
  induction edits generalizing p gone with
  | nil =>
    cases hp
    exact h
  | cons e edits ih =>
    obtain ⟨place, q, -, hq, hp⟩ := substituteAll_cons_ok hp
    exact ih (hstep h hq) hp

theorem KeepsLeaving.reorderAll (hk : KeepsLeaving a I) {reorders : List Reorder} (h : I p)
    (hp : a.reorderAll reorders p = .ok p') : I p' := by
  obtain ⟨order, -, hp⟩ := reorderAll_eq_ok hp
  exact hk.permute h hp

/-- The phases behind the replacements. -/
theorem KeepsLeaving.rest (hk : KeepsLeaving a I) {p2 p3 p4 p5 p6 : Progress} (h : I p2)
    (h3 : a.substituteAll (descendingByFirst f.substitutions) [] p2 = .ok p3)
    (h4 : a.reorderAll f.settledReorders p3 = .ok p4) (h5 : a.removeAll f.removals p4 = .ok p5)
    (h6 : a.inlineAll f.inlines p5 = .ok p6) : I p6 := by
  have hI4 := hk.reorderAll (substituteAll_keeps hk.substitute h h3) h4
  have hI5 : I p5 := foldlM_keeps (fun _ _ _ _ hI hq => hk.remove hI hq) hI4 h5
  exact foldlM_keeps (fun _ _ _ _ hI hq => hk.inline hI hq) hI5 h6

theorem Keeps.phases (hk : Keeps a I)
    (h : ∀ before, SlotTable.ofSignature a.widths b.signature = .ok before →
      I { body := b, table := before }) (hp : a.run f b = .ok p') :
    ∃ before p, SlotTable.ofSignature a.widths b.signature = .ok before ∧ I p ∧
      p' = if p.table = before then p else p.changedSlots := by
  obtain ⟨before, p1, p2, p3, p4, p5, p6, hbefore, h1, h2, h3, h4, h5, h6, hp'⟩ := run_phases hp
  have hI1 : I p1 := foldlM_keeps (fun _ _ _ _ hI hq => hk.insert hI hq) (h before hbefore) h1
  have hI2 : I p2 := foldlM_keeps (fun _ _ _ _ hI hq => hk.replace hI hq) hI1 h2
  exact ⟨before, p6, hbefore, hk.rest hI2 h3 h4 h5 h6, hp'⟩

theorem Keeps.run (hk : Keeps a I)
    (h : ∀ before, SlotTable.ofSignature a.widths b.signature = .ok before →
      I { body := b, table := before }) (hp : a.run f b = .ok p') :
    ∃ p, I p ∧ p'.body = p.body ∧ p'.table = p.table := by
  obtain ⟨before, p, -, hI, rfl⟩ := hk.phases h hp
  refine ⟨p, hI, ?_⟩
  split <;> exact ⟨rfl, rfl⟩

end Reparam.Applier
