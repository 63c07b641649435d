import Reparam.Proofs.Apply.Permuting
import Reparam.Proofs.Flatten.Agreement

/-! The first two phases of an application: insertions bring in the parameters one after the other,
front to back, and then every retyped parameter gets its type. -/
namespace Reparam

/-- A run over the found elements in ascending order, with what holds before and behind a place. -/
theorem foldlM_located {α β P ε : Type} {step : P → Nat × β → Except ε P} {pick : α → Option β}
    {I : List α → List α → P → Prop} {xs : List α} {p p' : P}
    (skip : ∀ pre x post p, xs = pre ++ x :: post → pick x = none → I pre (x :: post) p →
      I (pre ++ [x]) post p)
    (take : ∀ pre x post y p p', xs = pre ++ x :: post → pick x = some y → I pre (x :: post) p →
      step p (pre.length, y) = .ok p' → I (pre ++ [x]) post p')
    (h : I [] xs p) (hf : (located pick 0 xs).foldlM step p = .ok p') : I xs [] p' := by
  suffices walk : ∀ pre post p, xs = pre ++ post → I pre post p →
      (located pick pre.length post).foldlM step p = .ok p' → I xs [] p' from walk [] xs p rfl h hf
  intro pre post p hxs hI hf
  induction post generalizing pre p with
  | nil =>
    cases hf
    rw [hxs, List.append_nil]
    exact hI
  | cons x post ih =>
    have hlength : (pre ++ [x]).length = pre.length + 1 := by simp
    have hxs' : xs = (pre ++ [x]) ++ post := by simpa using hxs
    cases hx : pick x with
    | none =>
      rw [located_cons_none hx, ← hlength] at hf
      exact ih (pre ++ [x]) p hxs' (skip pre x post p hxs hx hI) hf
    | some y =>
      rw [located_cons_some hx, ← hlength, List.foldlM_cons] at hf
      obtain ⟨q, hq, hf⟩ := exists_of_bind hf
      exact ih (pre ++ [x]) q hxs' (take pre x post y p q hxs hx hI hq) hf

namespace Token

/-- A token as it comes into the list. -/
def first (types : List ValueType) (t : Token) : Origin × ValueType :=
  (t.origin, t.firstTypeIn types)

/-- A token as it is in the end. -/
def full (types : List ValueType) (t : Token) : Origin × ValueType := (t.origin, t.typeIn types)

end Token

variable {g : Premises} {types : List ValueType} {w : Widths} {tokens : List Token} {t : Token}
  {σ : Nat → Site} {base : Code} {p p' : Progress} {starts : Nat → Nat}

theorem origins_map_first : Row.origins (tokens.map (Token.first types)) =
    tokens.map Token.origin := by
  simp [Row.origins, Token.first, Function.comp_def]

theorem origins_map_full : Row.origins (tokens.map (Token.full types)) =
    tokens.map Token.origin := by
  simp [Row.origins, Token.full, Function.comp_def]

/-- The most slots that parameters ever take while they get their types. -/
def peak (w : Widths) (types : List ValueType) : List Token → Nat
  | [] => 0
  | t :: tokens => max (w (t.firstTypeIn types)) (w (t.typeIn types)) + peak w types tokens

theorem peak_append (xs ys : List Token) :
    peak w types (xs ++ ys) = peak w types xs + peak w types ys := by
  induction xs with
  | nil => simp [peak]
  | cons x xs ih => simp only [List.cons_append, peak, ih, Nat.add_assoc]

theorem peak_le_of_sublist {xs ys : List Token} (h : xs.Sublist ys) :
    peak w types xs ≤ peak w types ys := by
  induction h with
  | slnil => exact Nat.le_refl _
  | cons y _ ih => exact Nat.le_trans ih (Nat.le_add_left _ _)
  | cons_cons y _ ih => exact Nat.add_le_add_left ih _

theorem extent_first_le (tokens : List Token) :
    Row.extent w (tokens.map (Token.first types)) ≤ peak w types tokens := by
  induction tokens with
  | nil => exact Nat.le_refl _
  | cons t tokens ih => exact Nat.add_le_add (Nat.le_max_left ..) ih

theorem extent_full_le (tokens : List Token) :
    Row.extent w (tokens.map (Token.full types)) ≤ peak w types tokens := by
  induction tokens with
  | nil => exact Nat.le_refl _
  | cons t tokens ih => exact Nat.add_le_add (Nat.le_max_right ..) ih

/-- All insertions, front to back. -/
theorem Stands.insertAll (hnodup : (tokens.map Token.origin).Nodup)
    (hpeak : g.receiver + peak g.applier.widths types tokens ≤ g.bound)
    (h : Stands g ((passedOver Token.insertedType? tokens).map (Token.first types)) σ base p)
    (hp : g.applier.insertAll (located Token.insertedType? 0 tokens) p = .ok p') :
    Stands g (tokens.map (Token.first types)) σ base p' := by
  rw [Applier.insertAll, ascendingByFirst_eq located_pairwise] at hp
  let row (pre post : List Token) : Row :=
    pre.map (Token.first types) ++ (passedOver Token.insertedType? post).map (Token.first types)
  have step : Stands g (row tokens []) σ base p' := by
    refine foldlM_located (I := fun pre post p => Stands g (row pre post) σ base p) ?_ ?_ ?_ hp
    · intro pre x post p hxs hx hI
      simpa [row, passedOver_cons_none hx] using hI
    · intro pre x post y p p' hxs hx hI hp
      have hsub : (pre ++ passedOver Token.insertedType? post).Sublist (pre ++ post) :=
        List.filter_sublist.append_left pre
      have hrow : row (pre ++ [x]) post = pre.map (Token.first types) ++ (x.origin, y) ::
          (passedOver Token.insertedType? post).map (Token.first types) := by
        cases x <;> cases hx
        simp [row, Token.first, Token.firstTypeIn]
      have hold : row pre (x :: post) = pre.map (Token.first types) ++
          (passedOver Token.insertedType? post).map (Token.first types) := by
        simp only [row, passedOver_cons_some hx]
      rw [hold] at hI
      rw [hrow]
      refine hI.insert ?_ ?_ ?_
      · rwa [List.length_map]
      · rw [hxs, (List.perm_middle.map Token.origin).nodup_iff, List.map_cons,
          List.nodup_cons] at hnodup
        rw [← List.map_append, origins_map_first]
        exact fun hm => hnodup.1 ((hsub.map _).subset hm)
      · rw [← hrow]
        simp only [row, ← List.map_append]
        have hle := @extent_first_le types g.applier.widths
          (pre ++ [x] ++ passedOver Token.insertedType? post)
        have hmono := @peak_le_of_sublist types g.applier.widths
          (pre ++ [x] ++ passedOver Token.insertedType? post) tokens (by
            rw [hxs, List.append_assoc]
            exact (List.filter_sublist.cons_cons x).append_left pre)
        omega
    · exact h
  simpa [row] using step

/-- The code with the calls retyped that belong to a token. -/
def Code.retypedFor (starts : Nat → Nat) (types : List ValueType) (code : Code) : Token → Code
  | .reference ordinal (some t) => code.retyped (starts ordinal) (types.getD ordinal default) t
  | _ => code

theorem Code.mem_of_mem_retypedAll {code : Code} {i : Instruction} {x : Nat}
    (hi : i ∈ tokens.foldl (retypedFor starts types) code) (hx : i.slot? = some x) : i ∈ code := by
  induction tokens generalizing code with
  | nil => exact hi
  | cons t tokens ih =>
    have hmem := ih hi
    unfold retypedFor at hmem
    split at hmem
    · exact mem_of_mem_retyped hmem hx
    · exact hmem

/-- All replacements, front to back. -/
theorem Stands.replaceAll
    (hpeak : g.receiver + peak g.applier.widths types tokens ≤ g.bound)
    (hgen : ∀ x k, σ x ≠ .generated k)
    (hstarts : ∀ ordinal ∈ ordinals tokens, σ (starts ordinal) = .parameter (.reference ordinal))
    (honly : ∀ i ∈ base, ∀ x, i.slot? = some x → ∀ ordinal ∈ ordinals tokens,
      σ x = .parameter (.reference ordinal) → x = starts ordinal)
    (h : Stands g (tokens.map (Token.first types)) σ base p)
    (hp : g.applier.replaceAll (located Token.retypedType? 0 tokens) p = .ok p') :
    Stands g (tokens.map (Token.full types)) σ (tokens.foldl (Code.retypedFor starts types) base)
      p' := by
  let row (pre post : List Token) : Row :=
    pre.map (Token.full types) ++ post.map (Token.first types)
  have step : Stands g (row tokens []) σ (tokens.foldl (Code.retypedFor starts types) base) p' := by
    refine foldlM_located (I := fun pre post p =>
      Stands g (row pre post) σ (pre.foldl (Code.retypedFor starts types) base) p) ?_ ?_ ?_ hp
    · intro pre x post p hxs hx hI
      have hsame : x.first types = x.full types := by
        cases x with
        | inserted => rfl
        | reference ordinal r =>
          cases hx
          rfl
      have hcode (code : Code) : Code.retypedFor starts types code x = code := by
        cases x with
        | inserted => rfl
        | reference ordinal r =>
          cases hx
          rfl
      simpa [row, List.foldl_append, hcode, hsame] using hI
    · intro pre x post y p p' hxs hx hI hp
      cases x with
      | inserted => cases hx
      | reference ordinal r =>
        cases hx
        have hordinal : ordinal ∈ ordinals tokens := by
          rw [hxs]
          exact mem_ordinals.2 ⟨some y, by simp⟩
        have hrow : row (pre ++ [.reference ordinal (some y)]) post = pre.map (Token.full types) ++
            (.reference ordinal, y) :: post.map (Token.first types) := by
          simp [row, Token.full, Token.typeIn, Token.origin]
        have hold : row pre (.reference ordinal (some y) :: post) =
            pre.map (Token.full types) ++
              (.reference ordinal, types.getD ordinal default) :: post.map (Token.first types) := by
          simp [row, Token.first, Token.firstTypeIn, Token.origin]
        rw [hold] at hI
        rw [hrow, List.foldl_append]
        refine hI.replace ?_ ?_ hgen (hstarts ordinal hordinal) fun i hi x hx ho => ?_
        · rwa [List.length_map]
        · rw [← hrow]
          simp only [row, Row.extent_append]
          have hle := @extent_full_le types g.applier.widths
            (pre ++ [.reference ordinal (some y)])
          have hle' := @extent_first_le types g.applier.widths post
          have hsum := @peak_append types g.applier.widths
            (pre ++ [.reference ordinal (some y)]) post
          rw [List.append_assoc, List.singleton_append, ← hxs] at hsum
          omega
        · exact honly i (Code.mem_of_mem_retypedAll hi hx) x hx ordinal hordinal ho
    · exact h
  simpa [row] using step

end Reparam
