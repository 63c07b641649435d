import Reparam.Proofs.Diff.Peeling

/-! The rounds of a plan by what they do. -/
namespace Reparam

variable {cfg : Setting} {p q p₁ q₁ : Placed} {ps qs rest reference target : List Placed}
  {round : Round} {index : Nat}

namespace Round

/-- What a round makes of the two lists. A replacement behind the first parameters is made when no
more than two are left on either side. -/
inductive Shape (cfg : Setting) : List Placed → List Placed → Round → Prop where
  | keep {p q : Placed} {ps qs : List Placed} (h : p.type = q.type) :
    Shape cfg (p :: ps) (q :: qs) ⟨[], ps, qs⟩
  | dropFirst {p p₁ q : Placed} {ps qs : List Placed} (h : p₁.type = q.type) :
    Shape cfg (p :: p₁ :: ps) (q :: qs) ⟨[.remove p.ordinal], ps, qs⟩
  | insertBehind {p p₁ q q₁ q₂ : Placed} {ps qs : List Placed} (h : p.type = q.type)
    (h₁ : p₁.type = q₂.type) :
    Shape cfg (p :: p₁ :: ps) (q :: q₁ :: q₂ :: qs) ⟨[.insertBehind p.ordinal q₁.type], ps, qs⟩
  | move {p p₁ q q₁ dest : Placed} {ps qs : List Placed} (hsize : cfg.sameSize = false)
    (hnames : cfg.compareNames = false)
    (hd : (q :: q₁ :: qs).find? (·.sameType p₁) = some dest) :
    Shape cfg (p :: p₁ :: ps) (q :: q₁ :: qs)
      ⟨[.moveTo p₁.ordinal dest.ordinal], ps, ((q :: q₁ :: qs).eraseP (·.sameType p₁)).drop 1⟩
  | replace (p q : Placed) (ps qs : List Placed) :
    Shape cfg (p :: ps) (q :: qs) ⟨[.replace p.ordinal q.type], ps, qs⟩
  | replaceSecond (p p₁ q q₁ : Placed) :
    Shape cfg [p, p₁] [q, q₁] ⟨[.replace p₁.ordinal q₁.type], [p], [q]⟩
  | swap {p p₁ q q₁ : Placed} (h : p.type = q₁.type) (h₁ : p₁.type = q.type) :
    Shape cfg [p, p₁] [q, q₁] ⟨[.swap p.ordinal p₁.ordinal], [], []⟩
  | rearrange {reference target : List Placed}
    (h : ((peelBoth reference target).kept.map (·.type)).Perm
      ((peelBoth reference target).wanted.map (·.type))) :
    Shape cfg reference target ⟨(peelBoth reference target).stages, [], []⟩
  | window (p : Placed) (ps target : List Placed) (m n : Nat) :
    Shape cfg (p :: ps) target (cut (m + 1) n (p :: ps) target)
  | dropSecond (p p₁ : Placed) (ps target : List Placed) :
    Shape cfg (p :: p₁ :: ps) target ⟨[.remove p₁.ordinal], p :: ps, target⟩

/-- Peeled lists are settled by removals, rearrangements and insertions. -/
theorem Peeled.mem_stages (l : Peeled) {stage : Stage} (h : stage ∈ l.stages) :
    (∃ ordinal, stage = .remove ordinal) ∨ (∃ ps qs, stage = .rearrange ps qs) ∨
      ∃ index t, stage = .insertAt index t := by
  unfold Peeled.stages at h
  simp only [List.mem_append, List.mem_map] at h
  rcases h with (⟨p, -, rfl⟩ | h) | ⟨q, -, rfl⟩
  · exact .inl ⟨_, rfl⟩
  · split at h
    · cases h
    · exact .inr (.inl ⟨_, _, List.mem_singleton.1 h⟩)
  · exact .inr (.inr ⟨_, _, rfl⟩)

theorem sameType_iff : p.sameType q = true ↔ p.type = q.type := beq_iff_eq

theorem agrees_type (h : p.agrees q = true) : p.type = q.type := by
  rw [Placed.agrees, Bool.and_eq_true] at h
  exact sameType_iff.1 h.1

theorem keepSameSize_shape (h : keepSameSize cfg p ps q qs = some round) :
    round.Shape cfg (p :: ps) (q :: qs) := by
  unfold keepSameSize at h
  by_cases hsame : p.sameType q
  · rw [if_pos hsame] at h
    split at h
    · cases h
      exact .keep (sameType_iff.1 hsame)
    · cases h
  · rw [if_neg hsame] at h
    split at h
    · split at h
      · rename_i hagree
        cases h
        rw [Bool.and_eq_true] at hagree
        exact .dropFirst (agrees_type hagree.1)
      · cases h
    · cases h

theorem keepMoved_shape (hsize : cfg.sameSize = false) (hnames : cfg.compareNames = false)
    (h : keepMoved p₁ q₁ rest (p :: p₁ :: rest) (q :: q₁ :: qs) = some round) :
    round.Shape cfg (p :: p₁ :: rest) (q :: q₁ :: qs) := by
  simp only [keepMoved] at h
  split at h
  · obtain ⟨dest, hdest, rfl⟩ := Option.map_eq_some_iff.1 h
    exact .move hsize hnames hdest
  · cases h

theorem keepOtherSize_shape (hsize : cfg.sameSize = false)
    (h : keepOtherSize cfg p ps q qs = some round) : round.Shape cfg (p :: ps) (q :: qs) := by
  unfold keepOtherSize at h
  split at h
  · rename_i p₁ rest q₁ others
    by_cases hsame : p.sameType q
    · rw [if_neg (by simp [hsame])] at h
      split at h
      · cases h
        exact .keep (sameType_iff.1 hsame)
      · split at h
        · split at h
          · split at h
            · rename_i hagree
              cases h
              exact .insertBehind (sameType_iff.1 hsame) (agrees_type hagree)
            · cases h
          · cases h
        · rename_i hnames
          exact keepMoved_shape hsize (by simpa using hnames) h
    · rw [if_pos (by simp [hsame])] at h
      cases h
  · cases h

theorem keep_shape (h : keep? cfg p ps target = some round) :
    round.Shape cfg (p :: ps) target := by
  unfold keep? at h
  split at h
  · cases h
  · split at h
    · exact keepSameSize_shape h
    · rename_i hsize
      exact keepOtherSize_shape (by simpa using hsize) h

theorem replaceAt_eq (h : replaceAt? index reference target = some round) :
    ∃ p q, reference[index]? = some p ∧ target[index]? = some q ∧
      round = ⟨[.replace p.ordinal q.type], reference.eraseIdx index, target.eraseIdx index⟩ := by
  unfold replaceAt? at h
  split at h
  · rename_i p q hp hq
    simp only at h
    split at h
    · cases h
    · cases h
      exact ⟨p, q, hp, hq, rfl⟩
  · cases h

theorem replace_shape (h : replace? (p :: ps) target = some round) :
    round.Shape cfg (p :: ps) target := by
  rcases Option.or_eq_some_iff.1 h with h | ⟨-, h⟩
  · obtain ⟨p', q, hp, hq, rfl⟩ := replaceAt_eq h
    obtain _ | ⟨q', qs⟩ := target
    · cases hq
    · cases hp
      cases hq
      exact .replace p q ps qs
  · split at h
    · rename_i p' p₁ q q₁ heq _
      cases heq
      split at h
      · rename_i hcond
        cases h
        simp only [Bool.and_eq_true] at hcond
        exact .swap (sameType_iff.1 hcond.1.2) (sameType_iff.1 hcond.2)
      · obtain ⟨p', q', hp, hq, rfl⟩ := replaceAt_eq h
        cases hp
        cases hq
        exact .replaceSecond p p₁ q q₁
    · cases h

theorem rearrange_shape (h : rearrange? reference target = some round) :
    round.Shape cfg reference target := by
  simp only [rearrange?] at h
  split at h
  · rename_i hperm
    cases h
    exact .rearrange (List.isPerm_iff.1 hperm)
  · cases h

theorem narrow_shape (h : rearrange? (p :: ps) target = none) :
    (narrow cfg p ps target).Shape cfg (p :: ps) target := by
  unfold narrow
  split
  · simp only
    split
    · exact .window p ps _ 1 _
    · exact .window p ps _ 0 _
  · rename_i hahead
    simp only
    split
    · rename_i n hn
      have hpos : 1 < n := by
        split at hn
        · simpa using (Option.filter_eq_some_iff.1 hn).2
        · cases hn
      obtain ⟨m, rfl⟩ : ∃ m, n = m + 1 := ⟨n - 1, by omega⟩
      exact .window p _ _ m (m + 1)
    · exact .dropSecond p _ _ _
    · -- only an empty target could leave the last parameter without a window
      rename_i list _ _ _ _ _
      obtain _ | ⟨q, qs⟩ := list
      · exact (rearrange_single p h).elim
      · exact (hahead _ q qs rfl rfl).elim

end Round

theorem nextRound_shape : (nextRound cfg p ps target).Shape cfg (p :: ps) target := by
  unfold nextRound
  cases hkeep : Round.keep? cfg p ps target with
  | some round => exact Round.keep_shape hkeep
  | none =>
    cases hreplace : Round.replace? (p :: ps) target with
    | some round => exact Round.replace_shape hreplace
    | none =>
      cases hrearrange : Round.rearrange? (p :: ps) target with
      | some round => exact Round.rearrange_shape hrearrange
      | none => exact Round.narrow_shape hrearrange

end Reparam
