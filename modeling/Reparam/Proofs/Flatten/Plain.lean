import Reparam.Proofs.Flatten.Agreement

/-! Scripts that neither substitute nor inline. All that leaves the list is removed, so flattening
always succeeds, and the flat script neither substitutes nor inlines. -/
namespace Reparam

variable {α : Type} {s : Script} {e : Edit} {n ordinal : Nat} {tr : Tracking} {f : FlatScript}
  {types types' : List ValueType}

def Edit.Plain : Edit → Prop
  | .substitute .. | .inline .. => False
  | _ => True

def Script.Plain (s : Script) : Prop := ∀ e ∈ s, e.Plain

theorem Edit.Plain.departure (h : e.Plain) {xs : List α} {x : α} {how : Departure α}
    (hd : e.departure? xs = some (x, how)) : how = .removed := by
  cases e with
  | remove index =>
    obtain ⟨y, -, hy⟩ := Option.map_eq_some_iff.1 hd
    exact (congrArg Prod.snd hy).symm
  | substitute target source => exact h.elim
  | inline target generator => exact h.elim
  | insert | replace | swap | move => cases hd

theorem Edit.Plain.kind_ne (h : e.Plain) : e.kind ≠ .substitute := by
  cases e with
  | substitute target source => exact h.elim
  | insert | replace | swap | move | remove | inline => exact EditKind.noConfusion

theorem Edit.Plain.kind_ne_inline (h : e.Plain) : e.kind ≠ .inline := by
  cases e with
  | inline target generator => exact h.elim
  | insert | replace | swap | move | remove | substitute => exact EditKind.noConfusion

open Tracking

namespace Script.Plain

theorem fate (h : s.Plain) (hr : Reached s n tr) {how : Fate} (hf : tr.fate? ordinal = some how) :
    how = .removed := by
  obtain ⟨pre, e, rest, reached, rfl, -, hd⟩ := (hr.dropped _ _).1 hf
  exact (h e (by simp)).departure hd

theorem withFate_substituted (h : s.Plain) (hr : Reached s n tr) :
    tr.withFate n (·.isSubstituted) = [] := by
  refine List.filter_eq_nil_iff.2 fun ordinal _ => ?_
  cases hf : tr.fate? ordinal with
  | none => simp
  | some how => simp [h.fate hr hf, Departure.isSubstituted]

theorem fated_inlined (h : s.Plain) (hr : Reached s n tr) (t : Token) :
    tr.fated inlinedFate t = none := by
  refine Option.bind_eq_none_iff.2 fun how hhow => ?_
  obtain ⟨ordinal, -, hf⟩ := Option.bind_eq_some_iff.1 hhow
  rw [h.fate hr hf]
  rfl

theorem toFlat_fields (h : s.Plain) (hr : Reached s n tr) (hf : tr.toFlat n = .ok f) :
    f.substitutions = [] ∧ f.inlines = [] := by
  obtain ⟨pairs, hpairs, rfl⟩ := toFlat_eq_ok hf
  rw [substitutions, h.withFate_substituted hr] at hpairs
  cases hpairs
  have hlocated : located (tr.fated inlinedFate) 0 (tr.beforeRemovals n) = [] :=
    List.filterMap_eq_nil_iff.2 fun p _ => by simp [h.fated_inlined hr]
  simp [hlocated]

/-- A plain script that replays can be flattened, and the flat script replays to the same types. -/
theorem flatten (h : s.Plain) (hreplay : s.replay types = .ok types') :
    ∃ tr f, Reached s types.length tr ∧ tr.toFlat types.length = .ok f ∧
      s.flatten types.length = .ok f ∧ f.replay types = .ok types' ∧
      tr.tokens.map (Token.typeIn types) = types' := by
  rw [replay_eq_follow] at hreplay
  cases hfollow : follow 0 s (.initial types.length) with
  | error err =>
    rw [hfollow] at hreplay
    cases hreplay
  | ok tr =>
    have hr := reached_of_follow hfollow
    have hdangles := @not_dangles_of_no_substitute types.length s fun e he => (h e he).kind_ne
    rw [hfollow, Except.map, Except.ok.injEq] at hreplay
    cases hflat : tr.toFlat types.length with
    | error err =>
      exact (hdangles (hr.substitutions_error_iff.1 ⟨err, toFlat_error_iff.1 hflat⟩)).elim
    | ok f =>
      refine ⟨tr, f, hr, hflat, ?_, hreplay ▸ hr.replay_toFlat hflat, hreplay⟩
      rw [Script.flatten, hfollow]
      exact hflat

end Script.Plain

end Reparam
