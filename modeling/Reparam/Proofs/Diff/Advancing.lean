import Reparam.Proofs.Diff.Ambiguity

/-! A comparison as a loop. Every turn of it takes something off the reference list, even if nothing
is left of the target, so that there are no more turns than reference parameters. What a comparison
gives is what the loop leads to, and no turn is left without anything to do. -/
namespace Reparam

variable {cfg : Setting} {n : Nat}

/-- What stays the same in all turns of a comparison. -/
def Setting.ofLists (names : NameTieBreak) (reference target : List Parameter) : Setting :=
  ⟨reference.length = target.length, names.resolve reference target⟩

/-- A comparison under way: the script so far, and what is left of both lists. -/
structure Session where
  draft : Draft
  reference : List Placed
  target : List Placed

namespace Session

variable {s s' : Session} {result : Except DiffError Session}

def initial (reference target : List Parameter) : Session :=
  ⟨.initial reference.length, Placed.ofList reference, Placed.ofList target⟩

/-- One turn of the loop, while there is anything left of the reference list. -/
def turn? (cfg : Setting) (s : Session) : Option (Except DiffError Session) :=
  match s.reference with
  | [] => none
  | p :: ps =>
    let round := nextRound cfg p ps s.target
    some do
      let draft ← round.stages.foldlM Draft.perform s.draft
      return ⟨draft, round.reference, round.target⟩

/-- What is left of the target behind the loop is inserted. -/
def finish (s : Session) : Except DiffError Draft :=
  (insertions s.target).foldlM Draft.perform s.draft

/-- Some turns, one after the other. -/
inductive Turns (cfg : Setting) : Nat → Session → Session → Prop where
  | none (s : Session) : Turns cfg 0 s s
  | next {n : Nat} {s s' s'' : Session} (hturn : s.turn? cfg = some (.ok s'))
    (hturns : Turns cfg n s' s'') : Turns cfg (n + 1) s s''

theorem turn_eq_none (h : s.turn? cfg = none) : s.reference = [] := by
  unfold turn? at h
  split at h
  · assumption
  · cases h

theorem turn_eq_some (h : s.turn? cfg = some result) : ∃ p ps, s.reference = p :: ps ∧
    result = do
      let draft ← (nextRound cfg p ps s.target).stages.foldlM Draft.perform s.draft
      return ⟨draft, (nextRound cfg p ps s.target).reference,
        (nextRound cfg p ps s.target).target⟩ := by
  unfold turn? at h
  split at h
  · cases h
  · rename_i p ps hreference
    exact ⟨p, ps, hreference, (Option.some.inj h).symm⟩

/-! What a turn takes off. -/

theorem turn_shortens (h : s.turn? cfg = some (.ok s')) :
    s'.reference.Sublist s.reference ∧ s'.reference.length < s.reference.length := by
  obtain ⟨p, ps, hreference, hresult⟩ := turn_eq_some h
  obtain ⟨draft, -, hround⟩ := exists_of_bind hresult.symm
  cases hround
  rw [hreference]
  exact ⟨nextRound_shape.sublist.1, nextRound_shortens⟩

theorem Turns.shortens (h : Turns cfg n s s') :
    s'.reference.Sublist s.reference ∧ n + s'.reference.length ≤ s.reference.length := by
  induction h with
  | none s => exact ⟨List.Sublist.refl _, by omega⟩
  | next hturn _ ih =>
    obtain ⟨hsub, hlt⟩ := turn_shortens hturn
    exact ⟨ih.1.trans hsub, by omega⟩

/-! What the loop leads to. -/

/-- The draft that the stages lead to which a plan has for what is left. -/
def outcome (cfg : Setting) (s : Session) : Except DiffError Draft :=
  (plan cfg s.reference s.target).foldlM Draft.perform s.draft

theorem outcome_of_done (h : s.reference = []) : s.outcome cfg = s.finish := by
  rw [outcome, h, plan]
  rfl

theorem outcome_of_turn (h : s.turn? cfg = some result) :
    s.outcome cfg = result >>= outcome cfg := by
  obtain ⟨p, ps, hreference, rfl⟩ := turn_eq_some h
  rw [outcome, hreference, plan, List.foldlM_append]
  cases List.foldlM Draft.perform s.draft (nextRound cfg p ps s.target).stages <;> rfl

theorem Turns.outcome_eq (h : Turns cfg n s s') : s.outcome cfg = s'.outcome cfg := by
  induction h with
  | none s => rfl
  | next hturn _ ih => rw [outcome_of_turn hturn, ok_bind, ih]

/-- The loop goes on until nothing is left of the reference list, or until a turn fails. -/
theorem exists_turns (cfg : Setting) (s : Session) : ∃ n s', Turns cfg n s s' ∧
    (s'.reference = [] ∨ ∃ err, s'.turn? cfg = some (.error err)) := by
  induction hlen : s.reference.length using Nat.strong_induction_on generalizing s with
  | _ len ih =>
    cases hturn : s.turn? cfg with
    | none => exact ⟨0, s, .none s, .inl (turn_eq_none hturn)⟩
    | some result =>
      cases result with
      | error err => exact ⟨0, s, .none s, .inr ⟨err, hturn⟩⟩
      | ok s' =>
        obtain ⟨n, s'', hturns, hend⟩ := ih _ (hlen ▸ (turn_shortens hturn).2) s' rfl
        exact ⟨n + 1, s'', .next hturn hturns, hend⟩

end Session

/-! Nothing is left without an answer. -/

def DiffError.isStuck : DiffError → Bool
  | .stuck .. => true
  | _ => false

def Stage.isStuck : Stage → Bool
  | .stuck .. => true
  | _ => false

/-- A result that may be an error, but not for want of anything to do. -/
def Unstuck {α : Type} (x : Except DiffError α) : Prop :=
  ∀ err, x = .error err → err.isStuck = false

namespace Unstuck

variable {α β : Type} {x : Except DiffError α} {f : α → Except DiffError β}

theorem ok (a : α) : Unstuck (.ok a) := fun _ h => by cases h

theorem error {err : DiffError} (h : err.isStuck = false) : Unstuck (.error err : Except _ α) :=
  fun _ he => by
    cases he
    exact h

theorem bind (hx : Unstuck x) (hf : ∀ a, Unstuck (f a)) : Unstuck (x >>= f) := by
  intro err h
  rcases error_of_bind h with h | ⟨a, -, h⟩
  · exact hx err h
  · exact hf a err h

theorem foldlM {f : β → α → Except DiffError β} {xs : List α}
    (hf : ∀ a ∈ xs, ∀ b, Unstuck (f b a)) (b : β) : Unstuck (xs.foldlM f b) := by
  induction xs generalizing b with
  | nil => exact .ok b
  | cons a xs ih =>
    rw [List.foldlM_cons]
    exact (hf a List.mem_cons_self b).bind (ih fun a' ha => hf a' (List.mem_cons_of_mem _ ha))

end Unstuck

theorem unstuck_placeUnique (target : List Placed) (moves : List (Placed × Nat))
    (span : List Placed) : Unstuck (Rearrangement.placeUnique target moves span) := by
  induction moves generalizing span with
  | nil => exact .ok _
  | cons m moves ih =>
    obtain ⟨p, dest⟩ := m
    rw [Rearrangement.placeUnique]
    split
    · exact .ok _
    · split
      · exact ih span
      · split
        · exact ih span
        · split
          · split
            · exact .ok _
            · rename_i hrest
              exact .error (ih _ _ hrest)
          · exact .error rfl

theorem unstuck_settle (span target : List Placed) :
    Unstuck (Rearrangement.settle span target) := by
  induction target generalizing span with
  | nil =>
    rw [Rearrangement.settle]
    exact .ok _
  | cons wanted target ih =>
    obtain _ | ⟨p, span⟩ := span
    · exact .error rfl
    · rw [Rearrangement.settle]
      split
      · exact ih span
      · split
        · exact .error rfl
        · split
          · exact .ok _
          · rename_i hrest
            exact .error (ih _ _ hrest)

theorem unstuck_rearrangement (reference target : List Placed) :
    Unstuck (rearrangement reference target) := by
  unfold rearrangement
  split
  · rename_i hplace
    exact .error (unstuck_placeUnique _ _ _ _ hplace)
  · split
    · exact .ok _
    · split
      · exact .ok _
      · rename_i hsettle
        exact .error (unstuck_settle _ _ _ hsettle)

theorem unstuck_compare (reference target : List Placed) :
    Unstuck (SinglePass.compare reference target) := by
  unfold SinglePass.compare SinglePass.compareMarks
  dsimp only
  split
  · exact .ok _
  · exact .error rfl

namespace Draft

variable (d : Draft)

theorem unstuck_emit (e : Edit) : Unstuck (d.emit e) := by
  unfold emit
  split
  · exact .ok _
  · exact .error rfl

theorem unstuck_position (ordinal : Nat) : Unstuck (d.position ordinal) := by
  unfold position
  split
  · exact .ok _
  · exact .error rfl

theorem unstuck_insertAt (index : Nat) (t : ValueType) : Unstuck (d.insertAt index t) :=
  d.unstuck_emit _

theorem unstuck_remove (ordinal : Nat) : Unstuck (d.remove ordinal) :=
  (d.unstuck_position ordinal).bind fun _ => d.unstuck_emit _

theorem unstuck_reorder (source dest : Nat) : Unstuck (d.reorder source dest) := by
  unfold reorder
  dsimp only
  split
  · exact .ok _
  · split <;> exact d.unstuck_emit _

theorem unstuck_shift (s : Shift) : Unstuck (d.shift s) :=
  (d.unstuck_position _).bind fun _ => (d.unstuck_position _).bind fun _ => d.unstuck_reorder _ _

theorem unstuck_rearrange (reference target : List Placed) :
    Unstuck (d.rearrange reference target) :=
  (unstuck_rearrangement reference target).bind fun _ =>
    .foldlM (fun s _ d => d.unstuck_shift s) d

theorem unstuck_compareWindow (reference target : List Placed) :
    Unstuck (d.compareWindow reference target) := by
  unfold compareWindow
  split
  · exact .ok d
  · exact (d.unstuck_position _).bind fun _ => (unstuck_compare _ _).bind fun _ =>
      (Unstuck.foldlM (fun e _ d => d.unstuck_emit e) d).bind fun d =>
        .foldlM (fun ordinal _ d => d.unstuck_remove ordinal) d

/-- A stage with something to do fails for another reason. -/
theorem unstuck_perform {stage : Stage} (h : stage.isStuck = false) : Unstuck (d.perform stage) := by
  cases stage with
  | remove ordinal => exact d.unstuck_remove ordinal
  | insertBehind ordinal t =>
    exact (d.unstuck_position ordinal).bind fun _ => d.unstuck_insertAt _ t
  | insertAt index t => exact d.unstuck_insertAt index t
  | moveTo ordinal dest =>
    exact (d.unstuck_position ordinal).bind fun _ => d.unstuck_reorder _ dest
  | replace ordinal t => exact (d.unstuck_position ordinal).bind fun _ => d.unstuck_emit _
  | swap a b =>
    exact (d.unstuck_position a).bind fun _ => (d.unstuck_position b).bind fun _ => d.unstuck_emit _
  | rearrange reference target => exact d.unstuck_rearrange reference target
  | window reference target => exact d.unstuck_compareWindow reference target
  | stuck => cases h

end Draft

namespace Round

variable {round : Round} {reference target : List Placed}

theorem isStuck_peeled (l : Peeled) : ∀ stage ∈ l.stages, stage.isStuck = false := by
  intro stage hs
  obtain ⟨_, rfl⟩ | ⟨_, _, rfl⟩ | ⟨_, _, rfl⟩ := l.mem_stages hs <;> rfl

/-- There is always something to do. -/
theorem Shape.isStuck (h : round.Shape cfg reference target) :
    ∀ stage ∈ round.stages, stage.isStuck = false := by
  cases h with
  | rearrange => exact isStuck_peeled _
  | _ => simp [cut, Stage.isStuck]

end Round

namespace Session

theorem unstuck_turn {s : Session} {result : Except DiffError Session}
    (h : s.turn? cfg = some result) : Unstuck result := by
  obtain ⟨p, ps, -, rfl⟩ := turn_eq_some h
  exact (Unstuck.foldlM (fun stage hs d => d.unstuck_perform (nextRound_shape.isStuck stage hs))
    s.draft).bind fun _ => .ok _

theorem unstuck_finish (s : Session) : Unstuck s.finish := by
  refine .foldlM (fun stage hs d => d.unstuck_perform ?_) s.draft
  obtain ⟨q, -, rfl⟩ := List.mem_map.1 hs
  rfl

end Session

theorem unstuck_verify (d : Draft) (reference target : List Parameter) :
    Unstuck (verify d reference target) := by
  unfold verify
  split
  · exact .error rfl
  · split
    · exact .error rfl
    · split
      · exact .ok _
      · exact .error rfl

/-- The loop comes to its end, and leads to what the comparison gives. -/
theorem exists_turns_initial (names : NameTieBreak) (reference target : List Parameter) :
    let cfg := Setting.ofLists names reference target
    ∃ n s, Session.Turns cfg n (.initial reference target) s ∧ s.reference = [] ∧
      diffReported names reference target = do
        let draft ← s.finish
        let script ← verify draft reference target
        return ⟨script, (stages names reference target).filterMap (·.problem?)⟩ := by
  intro cfg
  obtain ⟨items, ⟨d, hd, -⟩, -⟩ := drafted_fits names reference target
  obtain ⟨n, s, hturns, hend⟩ := Session.exists_turns cfg (.initial reference target)
  have houtcome : s.outcome cfg = drafted names reference target := hturns.outcome_eq.symm
  rcases hend with hdone | ⟨err, hturn⟩
  · refine ⟨n, s, hturns, hdone, ?_⟩
    rw [← Session.outcome_of_done hdone, houtcome]
    rfl
  · rw [Session.outcome_of_turn hturn, hd] at houtcome
    cases houtcome

/-- Every turn of a comparison takes something off the reference list, also when there is nothing
left of the target, and there are no more turns than reference parameters. The loop comes to its end
and leads to what the comparison gives, and neither a turn nor the comparison fails for want of
anything to do. -/
theorem diffReported_advances (names : NameTieBreak) (reference target : List Parameter) :
    let cfg := Setting.ofLists names reference target
    let start := Session.initial reference target
    (∀ s s' : Session, s.turn? cfg = some (.ok s') →
      s'.reference.Sublist s.reference ∧ s'.reference.length < s.reference.length) ∧
    (∀ n s, Session.Turns cfg n start s → n + s.reference.length ≤ reference.length) ∧
    (∃ n s, Session.Turns cfg n start s ∧ s.reference = [] ∧
      diffReported names reference target = do
        let draft ← s.finish
        let script ← verify draft reference target
        return ⟨script, (stages names reference target).filterMap (·.problem?)⟩) ∧
    (∀ (s : Session) ordinal t remaining,
      s.turn? cfg ≠ some (.error (.stuck ordinal t remaining))) ∧
    ∀ ordinal t remaining,
      diffReported names reference target ≠ .error (.stuck ordinal t remaining) := by
  intro cfg start
  have hloop := exists_turns_initial names reference target
  refine ⟨fun s s' => Session.turn_shortens, fun n s h => ?_, hloop, ?_, ?_⟩
  · rw [← length_ofList reference]
    exact h.shortens.2
  · intro s ordinal t remaining h
    cases Session.unstuck_turn h _ rfl
  · intro ordinal t remaining h
    obtain ⟨n, s, -, -, hresult⟩ := hloop
    rw [hresult] at h
    have hunstuck := s.unstuck_finish.bind fun d =>
      (unstuck_verify d reference target).bind fun script => .ok (DiffReport.mk script
        ((stages names reference target).filterMap (·.problem?)))
    cases hunstuck _ h

/-- A target that runs dry at once. -/
theorem diffReported_advances_without_target :
    let reference : List Parameter := [.unnamed .int, .unnamed .int]
    ∃ n s, Session.Turns (.ofLists .never reference []) n (.initial reference []) s ∧ n ≤ 2 ∧
      s.reference = [] := by
  obtain ⟨-, hturns, ⟨n, s, h, hdone, -⟩, -⟩ :=
    diffReported_advances .never [.unnamed .int, .unnamed .int] []
  exact ⟨n, s, h, Nat.le_trans (Nat.le_add_right _ _) (hturns n s h), hdone⟩

end Reparam
