import Reparam.Proofs.Diff.Success
import Reparam.Proofs.Flatten.Plain
import Reparam.Proofs.Locals.Stopping
import Reparam.Proofs.Apply.Replaying
import Reparam.Proofs.Apply.Rewriting

/-! Applying the script of a comparison to a method that declares the reference parameters. It only
inserts, replaces, reorders and removes, so with room for both lists nothing but a removal of a
parameter in use can stop it. -/
namespace Reparam

variable {d d' : Draft} {e : Edit} {names : NameTieBreak} {reference target : List Parameter}
  {script : Script}

theorem Edit.Plain.offset (h : e.Plain) (delta : Nat) : (e.offset delta).Plain := by
  cases e <;> exact h

theorem SinglePass.Findings.plain (f : SinglePass.Findings) : f.toScript.Plain := by
  intro e he
  rw [toScript, List.mem_append, List.mem_append, List.mem_append] at he
  rcases he with ((he | he) | he) | he
  all_goals
    obtain ⟨found, -, rfl⟩ := List.mem_map.1 he
    trivial

namespace Draft

/-- The script so far is plain. -/
def Plain (d : Draft) : Prop := d.script.Plain

theorem initial_plain {n : Nat} : (Draft.initial n).Plain := List.forall_mem_nil _

namespace Plain

theorem emit (hd : d.Plain) (h : d.emit e = .ok d') (he : e.Plain) : d'.Plain := by
  unfold Draft.emit at h
  split at h
  · cases h
    intro e' he'
    rcases List.mem_append.1 he' with he' | he'
    · exact hd e' he'
    · rw [List.mem_singleton.1 he']
      exact he
  · cases h

theorem insertAt {index : Nat} {t : ValueType} (hd : d.Plain) (h : d.insertAt index t = .ok d') :
    d'.Plain := hd.emit h trivial

theorem remove {ordinal : Nat} (hd : d.Plain) (h : d.remove ordinal = .ok d') : d'.Plain := by
  obtain ⟨index, -, h⟩ := exists_of_bind h
  exact hd.emit h trivial

theorem reorder {source dest : Nat} (hd : d.Plain) (h : d.reorder source dest = .ok d') :
    d'.Plain := by
  unfold Draft.reorder at h
  dsimp only at h
  split at h
  · cases h
    exact hd
  · split at h
    · exact hd.emit h trivial
    · exact hd.emit h trivial

theorem shift {s : Shift} (hd : d.Plain) (h : d.shift s = .ok d') : d'.Plain := by
  obtain ⟨source, -, h⟩ := exists_of_bind h
  obtain ⟨dest, -, h⟩ := exists_of_bind h
  exact hd.reorder h

theorem compareWindow {reference target : List Placed} (hd : d.Plain)
    (h : d.compareWindow reference target = .ok d') : d'.Plain := by
  unfold Draft.compareWindow at h
  split at h
  · cases h
    exact hd
  · obtain ⟨start, -, h⟩ := exists_of_bind h
    obtain ⟨findings, -, h⟩ := exists_of_bind h
    obtain ⟨mid, hmid, h⟩ := exists_of_bind h
    refine foldlM_keeps (fun _ _ _ _ hb hf => hb.remove hf) ?_ h
    refine foldlM_keeps (fun e he _ _ hb hf => hb.emit hf ?_) hd hmid
    obtain ⟨found, hfound, rfl⟩ := List.mem_map.1 he
    exact (findings.plain found hfound).offset start

theorem perform {stage : Stage} (hd : d.Plain) (h : d.perform stage = .ok d') : d'.Plain := by
  cases stage with
  | remove ordinal => exact hd.remove h
  | insertBehind ordinal t =>
    obtain ⟨index, -, h⟩ := exists_of_bind h
    exact hd.insertAt h
  | insertAt index t => exact hd.insertAt h
  | moveTo ordinal dest =>
    obtain ⟨index, -, h⟩ := exists_of_bind h
    exact hd.reorder h
  | replace ordinal t =>
    obtain ⟨index, -, h⟩ := exists_of_bind h
    exact hd.emit h trivial
  | swap a b =>
    obtain ⟨i, -, h⟩ := exists_of_bind h
    obtain ⟨j, -, h⟩ := exists_of_bind h
    exact hd.emit h trivial
  | rearrange reference target =>
    obtain ⟨r, -, h⟩ := exists_of_bind h
    exact foldlM_keeps (fun _ _ _ _ hb hf => hb.shift hf) hd h
  | window reference target => exact hd.compareWindow h
  | stuck ordinal t remaining => cases h

end Plain

end Draft

/-- A comparison that succeeds gives a plain script that takes the reference types to those of the
target. -/
theorem diff_eq_ok (h : diff names reference target = .ok script) :
    script.Plain ∧ script.replay (Parameter.types reference) = .ok (Parameter.types target) := by
  obtain ⟨report, hreport, h⟩ := exists_of_bind h
  cases h
  obtain ⟨d, hd, hreplay, rfl⟩ := diffReported_eq_ok hreport
  have hplain : d.Plain :=
    foldlM_keeps (fun _ _ _ _ hb hf => hb.perform hf) Draft.initial_plain hd
  exact ⟨hplain, hreplay⟩

/-! The slots that a plain script needs on the way. -/

/-- Every type that a token was given is there in the end. -/
theorem totalWidth_given_le (w : Widths) (types : List ValueType) (tokens : List Token) :
    totalWidth w (tokens.filterMap Token.insertedType?) +
      totalWidth w (tokens.filterMap Token.retypedType?) ≤
        totalWidth w (tokens.map (Token.typeIn types)) := by
  induction tokens with
  | nil => exact Nat.le_refl _
  | cons t tokens ih =>
    rw [List.map_cons, totalWidth_cons]
    obtain ⟨ordinal, _ | t⟩ | ⟨serial, t⟩ := t
    · exact Nat.le_trans ih (Nat.le_add_left _ _)
    · change totalWidth w (tokens.filterMap Token.insertedType?) +
        (w t + totalWidth w (tokens.filterMap Token.retypedType?)) ≤ w t + _
      omega
    · change w t + totalWidth w (tokens.filterMap Token.insertedType?) +
        totalWidth w (tokens.filterMap Token.retypedType?) ≤ w t + _
      omega

open Tracking

theorem Tracking.totalWidth_toFlat_le {tr : Tracking} {n : Nat} {f : FlatScript} (w : Widths)
    (types : List ValueType) (hf : tr.toFlat n = .ok f) :
    totalWidth w (f.insertions.map (·.2)) + totalWidth w (f.replacements.map (·.2)) ≤
      totalWidth w (tr.tokens.map (Token.typeIn types)) := by
  obtain ⟨pairs, -, rfl⟩ := toFlat_eq_ok hf
  -- what is slotted in again was given no type
  have hgiven {pick : Token → Option ValueType} (hpick : ∀ k, pick (.reference k none) = none) :
      totalWidth w ((located pick 0 (tr.afterInsertions n)).map (·.2)) =
        totalWidth w (tr.tokens.filterMap pick) := by
    rw [located_map_snd, totalWidth_perm (afterInsertions_perm.filterMap pick)]
    simp [List.filterMap_append, List.filterMap_map, hpick]
  rw [hgiven fun _ => rfl, hgiven fun _ => rfl]
  exact totalWidth_given_le w types tr.tokens

variable {a : Applier} {receiver : Nat} {params : List (ValueType × String)} {b : Body}
  {table : SlotTable} {s : Script} {types' : List ValueType}

/-- What a plain script does to a body in which every parameter has its local. It may be short of
slots only if there is no room for the parameters next to those that they become. -/
theorem Housed.run_plain (hw : ∀ t, 0 < a.widths t)
    (h : Housed a.widths receiver params { body := b, table }) (hs : s.Plain)
    (hreplay : s.replay b.signature.types = .ok types') :
    ∃ tr f, Reached s b.signature.types.length tr ∧ tr.toFlat b.signature.types.length = .ok f ∧
      s.flatten b.signature.types.length = .ok f ∧
      ((∃ p, a.run f b = .ok p ∧ p.body.signature.types = types' ∧
          p.body.signature.result = b.signature.result ∧
          p.body.signature.isStatic = b.signature.isStatic) ∨
        (a.rejectLiveRemovals = true ∧ ∃ ordinal slot position left,
          a.run f b = .error ⟨.unsupportedRemoval ordinal slot position, left⟩) ∨
        slotLimit < receiver + totalWidth a.widths b.signature.types + totalWidth a.widths types' ∧
          ∃ required left, a.run f b = .error ⟨.slotAllocation required, left⟩) := by
  obtain ⟨tr, f, hreached, hf, hflat, hsame, htokens⟩ := hs.flatten hreplay
  obtain ⟨hsubstitutions, hinlines⟩ := hs.toFlat_fields hreached hf
  have hwidth := totalWidth_toFlat_le a.widths b.signature.types hf
  rw [htokens] at hwidth
  refine ⟨tr, f, hreached, hf, hflat, ?_⟩
  cases hrun : a.run f b with
  | ok p =>
    obtain ⟨hreplayed, hresult, hstatic, -⟩ := Applier.run_signature hrun
    rw [hsame, Except.ok.injEq] at hreplayed
    exact .inl ⟨p, rfl, hreplayed.symm, hresult, hstatic⟩
  | error stopped =>
    obtain ⟨err, left⟩ := stopped
    have hset : Setback (slotLimit < receiver + totalWidth a.widths b.signature.types +
        totalWidth a.widths types') False (a.rejectLiveRemovals = true) False err := by
      refine (h.run_error hw hrun).imp (fun hshort => ?_) (fun hmisfit => ?_) id
        fun hne => hne hinlines
      · omega
      · exact hmisfit.elim (fun hno => hno ⟨_, hsame⟩) fun hne => hne hsubstitutions
    cases hset with
    | live ordinal slot position hreject => exact .inr (.inl ⟨hreject, _, _, _, _, rfl⟩)
    | shortage required hshort => exact .inr (.inr ⟨hshort, _, _, rfl⟩)
    | outOfRange ordinal length h => exact h.elim
    | script error h => exact h.elim
    | missing generator ordinal h => exact h.elim
    | written ordinal position h => exact h.elim

theorem Signature.descriptor_eq {s s' : Signature} (ht : s.types = s'.types)
    (hr : s.result = s'.result) : s.descriptor = s'.descriptor := by
  rw [descriptor, descriptor, ht, hr]

variable {m : Method} {f : FlatScript}

theorem Applier.apply_eq_applyFlat (h : s.flatten m.body.signature.types.length = .ok f) :
    a.apply s m = a.applyFlat f m := by
  rw [Signature.types, Parameter.types, List.length_map] at h
  rw [apply, h]

theorem Applier.applyFlat_of_ok {p : Progress} (h : a.run f m.body = .ok p) :
    a.applyFlat f m = (.ok p.changed, ⟨p.body, p.table⟩) := by
  rw [applyFlat, h]

theorem Applier.applyFlat_of_error {stopped : Stopped} (h : a.run f m.body = .error stopped) :
    a.applyFlat f m = (.error stopped.error, { m with body := stopped.body }) := by
  rw [applyFlat, h]

/-- Applying the script of a comparison to a method that declares the reference parameters leads to
the target's types and descriptor, unless a parameter that is in use is removed and that is not
allowed. All it needs is room for both lists at once. -/
theorem apply_diff (hw : ∀ t, 0 < a.widths t) (h : diff names reference target = .ok script)
    (result : Option ValueType) (isStatic : Bool) (code : Code) (slots : SlotTable)
    (hroom : Signature.receiverSlots ⟨reference, result, isStatic⟩ +
      totalWidth a.widths (Parameter.types reference) +
      totalWidth a.widths (Parameter.types target) ≤ slotLimit) :
    let m : Method := ⟨.declaring a.widths ⟨reference, result, isStatic⟩ code, slots⟩
    (∃ changed m', a.apply script m = (.ok changed, m') ∧
        m'.body.signature.types = Parameter.types target ∧
        m'.body.signature.descriptor = Signature.descriptor ⟨target, result, isStatic⟩) ∨
      a.rejectLiveRemovals = true ∧ ∃ ordinal slot position m',
        a.apply script m = (.error (.unsupportedRemoval ordinal slot position), m') := by
  intro m
  obtain ⟨hplain, hreplay⟩ := diff_eq_ok h
  obtain ⟨table, htable⟩ := SlotTable.exists_ofSignature (Nat.le_trans (Nat.le_add_right _ _) hroom)
  obtain ⟨params, hhoused⟩ := @Housed.declaring _ _ code _ htable
  obtain ⟨tr, f, -, -, hflat, hrun⟩ := hhoused.run_plain hw hplain hreplay
  have happly : a.apply script m = a.applyFlat f m := Applier.apply_eq_applyFlat hflat
  rcases hrun with
    ⟨p, hrun, htypes, hresult, -⟩ | ⟨hreject, ordinal, slot, position, left, hrun⟩ | ⟨hshort, -⟩
  · exact .inl ⟨_, _, happly.trans (Applier.applyFlat_of_ok hrun), htypes,
      Signature.descriptor_eq htypes hresult⟩
  · rw [happly, Applier.applyFlat_of_error hrun]
    exact .inr ⟨hreject, ordinal, slot, position, _, rfl⟩
  · exact absurd hroom (Nat.not_le.2 hshort)

theorem apply_diff_on_swap :
    diff .never [.unnamed .int, .unnamed .long] [.unnamed .long, .unnamed .int] =
        .ok [.swap 0 1] ∧
      ∃ changed m', Applier.apply { rejectLiveRemovals := false } [.swap 0 1]
          ⟨.declaring standardWidths ⟨[.unnamed .int, .unnamed .long], none, true⟩
            [.load 1 .long, .ret], {}⟩ = (.ok changed, m') ∧
        m'.body.signature.types = [.long, .int] ∧
        m'.body.signature.descriptor =
          Signature.descriptor ⟨[.unnamed .long, .unnamed .int], none, true⟩ := by
  have hdiff : diff .never [.unnamed .int, .unnamed .long] [.unnamed .long, .unnamed .int] =
      .ok [.swap 0 1] := by decide +kernel
  refine ⟨hdiff, (apply_diff standardWidths_pos hdiff none true _ {} (by decide)).resolve_right ?_⟩
  rintro ⟨hreject, -⟩
  cases hreject

end Reparam
