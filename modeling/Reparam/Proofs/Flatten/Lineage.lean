import Reparam.Proofs.Edit.Step

/-! Where parameters come from as a script is read edit by edit, and which parameter stands in for
one that was substituted. This is the meaning that flattening has to keep. -/
namespace Reparam

variable {n serial : Nat} {s : Script} {e : Edit} {os os' : List Origin} {o o' last : Origin}
  {how : Departure Origin}

namespace Script

/-- The origins of the parameters that a script leaves, the first edit having a given number. -/
def originsFrom (serial : Nat) : Script → List Origin → Except ScriptError (List Origin)
  | [], os => .ok os
  | e :: rest, os =>
    match e.apply (fun _ => .inserted serial) (fun _ o => o) os with
    | .ok os => originsFrom (serial + 1) rest os
    | .error err => .error err

/-- The origins of the parameters that a script makes of a number of reference parameters. -/
def origins (s : Script) (n : Nat) : Except ScriptError (List Origin) :=
  s.originsFrom 0 ((List.range n).map .reference)

/-- On its way from a list the script drops one parameter and lets another one stand in for it. -/
def SubstitutesFrom (serial : Nat) (s : Script) (os : List Origin) (dropped source : Origin) :
    Prop :=
  ∃ pre target place rest reached, s = pre ++ .substitute target place :: rest ∧
    originsFrom serial pre os = .ok reached ∧
    reached[target]? = some dropped ∧ reached[place]? = some source

def Substitutes (s : Script) (n : Nat) (dropped source : Origin) : Prop :=
  SubstitutesFrom 0 s ((List.range n).map .reference) dropped source

/-- On its way from a list the script takes a parameter out in some way. -/
def DropsFrom (serial : Nat) (s : Script) (os : List Origin) (dropped : Origin)
    (how : Departure Origin) : Prop :=
  ∃ pre e rest reached, s = pre ++ e :: rest ∧ originsFrom serial pre os = .ok reached ∧
    e.departure? reached = some (dropped, how)

def Drops (s : Script) (n : Nat) (dropped : Origin) (how : Departure Origin) : Prop :=
  DropsFrom 0 s ((List.range n).map .reference) dropped how

/-- The chain from a source along the substitutions of reference parameters ends at an origin. -/
inductive LeadsTo (s : Script) (n : Nat) : Origin → Origin → Prop where
  | inserted (serial : Nat) : LeadsTo s n (.inserted serial) (.inserted serial)
  | kept {ordinal : Nat} (h : ∀ o, ¬ s.Substitutes n (.reference ordinal) o) :
    LeadsTo s n (.reference ordinal) (.reference ordinal)
  | via {ordinal : Nat} {o last : Origin} (h : s.Substitutes n (.reference ordinal) o)
    (hl : LeadsTo s n o last) : LeadsTo s n (.reference ordinal) last

/-- The chain of some substituted reference parameter ends in an inserted one that the script
drops again. -/
def Dangles (s : Script) (n : Nat) : Prop :=
  ∃ ordinal source serial left, s.Substitutes n (.reference ordinal) source ∧
    s.LeadsTo n source (.inserted serial) ∧ s.origins n = .ok left ∧ .inserted serial ∉ left

theorem originsFrom_cons (h : e.Step (fun _ => .inserted serial) (fun _ o => o) os os') :
    originsFrom serial (e :: s) os = originsFrom (serial + 1) s os' := by
  simp only [originsFrom, h.apply_eq]

/-- The first edit takes the parameter out, or a later one does. -/
theorem dropsFrom_cons (h : e.Step (fun _ => .inserted serial) (fun _ o => o) os os') :
    DropsFrom serial (e :: s) os o how ↔
      e.departure? os = some (o, how) ∨ DropsFrom (serial + 1) s os' o how := by
  constructor
  · rintro ⟨pre, e', rest, reached, hs, hr, hd⟩
    obtain _ | ⟨e'', pre⟩ := pre
    · cases hr
      cases hs
      exact .inl hd
    · rw [List.cons_append] at hs
      cases hs
      rw [originsFrom_cons h] at hr
      exact .inr ⟨pre, e', rest, reached, rfl, hr, hd⟩
  · rintro (hd | ⟨pre, e', rest, reached, rfl, hr, hd⟩)
    · exact ⟨[], e, s, os, rfl, rfl, hd⟩
    · refine ⟨e :: pre, e', rest, reached, rfl, ?_, hd⟩
      rwa [originsFrom_cons h]

theorem substitutes_iff : s.Substitutes n o o' ↔ s.Drops n o (.substituted o') := by
  constructor
  · rintro ⟨pre, target, place, rest, reached, hs, hr, ht, hp⟩
    exact ⟨pre, .substitute target place, rest, reached, hs, hr, by simp [Edit.departure?, ht, hp]⟩
  · rintro ⟨pre, e, rest, reached, hs, hr, hd⟩
    cases e with
    | substitute target place =>
      simp only [Edit.departure?] at hd
      split at hd
      · rename_i x y ht hp
        cases hd
        exact ⟨pre, target, place, rest, reached, hs, hr, ht, hp⟩
      · cases hd
    | remove => simp [Edit.departure?] at hd
    | inline => simp [Edit.departure?] at hd
    | _ => cases hd

end Script

/-- The type of a token, with the types that the reference parameters came with. -/
def Token.typeIn (types : List ValueType) : Token → ValueType
  | reference ordinal none => types.getD ordinal default
  | reference _ (some t) | inserted _ t => t

section Labels

variable {α : Type} {fresh : ValueType → α} {retype : ValueType → α → α} {labels : List α}

/-- What a token stands for in a list of any kind, with what the reference parameters came with. -/
def Token.labelIn (fresh : ValueType → α) (retype : ValueType → α → α) (labels : List α) : Token → α
  | reference ordinal none => labels.getD ordinal (fresh default)
  | reference ordinal (some t) => retype t (labels.getD ordinal (fresh default))
  | inserted _ t => fresh t

theorem Token.typeIn_eq_labelIn (types : List ValueType) :
    Token.typeIn types = Token.labelIn (fun t => t) (fun t _ => t) types := by
  funext t
  obtain ⟨ordinal, _ | t⟩ | ⟨serial, t⟩ := t <;> rfl

/-- Of two types given one after the other only the later one matters. -/
structure Forgetful (fresh : ValueType → α) (retype : ValueType → α → α) : Prop where
  retype_retype : ∀ t t' x, retype t (retype t' x) = retype t x
  retype_fresh : ∀ t t', retype t (fresh t') = fresh t

theorem Forgetful.labelIn_retype (h : Forgetful fresh retype) (t : ValueType) (x : Token) :
    (x.retype t).labelIn fresh retype labels = retype t (x.labelIn fresh retype labels) := by
  obtain ⟨ordinal, _ | t'⟩ | ⟨serial, t'⟩ := x
  · rfl
  · exact (h.retype_retype t t' _).symm
  · exact (h.retype_fresh t t').symm

theorem forgetful_types : Forgetful (fun t => t) (fun t _ => t) :=
  ⟨fun _ _ _ => rfl, fun _ _ => rfl⟩

end Labels

namespace Tracking

variable {tr tr' : Tracking}

theorem follow_cons_ok (h : follow serial (e :: s) tr = .ok tr') :
    ∃ tokens, e.Step (.inserted serial) Token.retype tr.tokens tokens ∧
      follow (serial + 1) s { tr.noteDeparture (e.departure? tr.tokens) with tokens } = .ok tr' := by
  simp only [follow] at h
  split at h
  · cases h
  · exact ⟨_, Edit.step_of_apply ‹_›, h⟩

section Labels

variable {α : Type} {fresh : ValueType → α} {retype : ValueType → α → α}

/-- Tokens take the course that the elements of any list do. -/
theorem follow_run (h : Forgetful fresh retype) (labels : List α) (s : Script) (tr : Tracking) :
    (follow serial s tr).map (fun tr => tr.tokens.map (Token.labelIn fresh retype labels)) =
      s.run fresh retype (tr.tokens.map (Token.labelIn fresh retype labels)) := by
  induction s generalizing serial tr with
  | nil => rfl
  | cons e rest ih =>
    have natural := @Edit.apply_map _ _ (Token.labelIn fresh retype labels) (.inserted serial)
      Token.retype fresh retype (fun _ => rfl) h.labelIn_retype e tr.tokens
    simp only [follow, Script.run, natural]
    cases e.apply (.inserted serial) Token.retype tr.tokens with
    | error err => rfl
    | ok tokens => exact ih _

theorem initial_labels (fresh : ValueType → α) (retype : ValueType → α → α) (labels : List α) :
    (initial labels.length).tokens.map (Token.labelIn fresh retype labels) = labels := by
  apply List.ext_getElem
  · simp [initial]
  · intro i hi hi'
    simp [initial, Token.labelIn, hi']

end Labels

theorem step_origins {tokens tokens' : List Token}
    (h : e.Step (.inserted serial) Token.retype tokens tokens') :
    e.Step (fun _ => .inserted serial) (fun _ o => o) (tokens.map Token.origin)
      (tokens'.map Token.origin) :=
  h.map (fun _ => rfl) fun t x => by cases x <;> rfl

theorem follow_origins (h : follow serial s tr = .ok tr') :
    s.originsFrom serial (tr.tokens.map Token.origin) = .ok (tr'.tokens.map Token.origin) := by
  induction s generalizing serial tr with
  | nil =>
    cases h
    rfl
  | cons e rest ih =>
    obtain ⟨tokens, he, hr⟩ := follow_cons_ok h
    rw [Script.originsFrom_cons (step_origins he), ← ih hr]

theorem initial_origins (n : Nat) :
    (initial n).tokens.map Token.origin = (List.range n).map .reference := by
  simp [initial, Function.comp_def, Token.origin]

end Tracking
end Reparam
