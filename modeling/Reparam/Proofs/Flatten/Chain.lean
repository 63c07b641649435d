import Reparam.Proofs.Flatten.Tracked

/-! The fates of substituted parameters say what the script says, and following them ends where the
chain of sources ends. -/
namespace Reparam

variable {n serial ordinal : Nat} {s : Script} {e : Edit} {tr tr' : Tracking}
  {tokens : List Token} {o last a b : Origin} {how : Fate}

namespace Tracking

theorem fate_noteDeparture (tr : Tracking) (x : Token) (how : Departure Token) :
    (tr.noteDeparture (some (x, how))).fate? ordinal =
      if x.origin = .reference ordinal then some how.toFate else tr.fate? ordinal := by
  cases x with
  | inserted => simp [noteDeparture, Token.origin]
  | reference i r =>
    rw [noteDeparture, fate_cons]
    simp only [Token.origin, Origin.reference.injEq, eq_comm (a := ordinal)]
    rfl

/-- A token that is in the list has no fate yet. -/
theorem Sound.fate_none (h : tr.Sound n serial) (i ordinal : Nat)
    (hi : (tr.tokens[i]?.map Token.origin) = some (.reference ordinal)) :
    tr.fate? ordinal = none := by
  obtain ⟨x, hx, ho⟩ := Option.map_eq_some_iff.1 hi
  exact ((h.alive ordinal).1 (ho ▸ List.mem_map_of_mem (List.mem_of_getElem? hx))).2

theorem departure_map (e : Edit) (tokens : List Token) :
    e.departure? (tokens.map Token.origin) =
      (e.departure? tokens).map fun p => (p.1.origin, p.2.toFate) := by
  have htoFate : Departure.toFate = Departure.map Token.origin := by
    funext how
    cases how <;> rfl
  rw [Edit.departure_map, htoFate]

theorem exists_getElem_of_departure {x : Token} {how : Departure Token}
    (h : e.departure? tokens = some (x, how)) : ∃ i : Nat, tokens[i]? = some x := by
  cases e with
  | substitute target source =>
    simp only [Edit.departure?] at h
    split at h
    · rename_i ht _
      cases h
      exact ⟨target, ht⟩
    · cases h
  | remove index =>
    obtain ⟨y, hy, he⟩ := Option.map_eq_some_iff.1 h
    cases he
    exact ⟨index, hy⟩
  | inline target generator =>
    obtain ⟨y, hy, he⟩ := Option.map_eq_some_iff.1 h
    cases he
    exact ⟨target, hy⟩
  | _ => cases h

theorem fate_step (h : tr.Sound n serial) :
    (tr.noteDeparture (e.departure? tr.tokens)).fate? ordinal = some how ↔
      tr.fate? ordinal = some how ∨ e.departure? tr.origins = some (.reference ordinal, how) := by
  rw [origins, departure_map]
  cases hd : e.departure? tr.tokens with
  | none => simp [noteDeparture]
  | some p =>
    obtain ⟨x, how'⟩ := p
    rw [fate_noteDeparture]
    by_cases hx : x.origin = .reference ordinal
    · obtain ⟨i, hi⟩ := exists_getElem_of_departure hd
      have hnone := h.fate_none i ordinal (by rw [hi, Option.map_some, hx])
      simp [hx, hnone]
    · simp [hx]

theorem fate_follow (h : tr.Sound n serial) (hf : follow serial s tr = .ok tr') :
    tr'.fate? ordinal = some how ↔ tr.fate? ordinal = some how ∨
      s.DropsFrom serial tr.origins (.reference ordinal) how := by
  induction s generalizing serial tr with
  | nil =>
    cases hf
    simp [Script.DropsFrom]
  | cons e rest ih =>
    obtain ⟨tokens, he, hr⟩ := follow_cons_ok hf
    refine (ih (sound_step h he) hr).trans ((or_congr (fate_step h) Iff.rfl).trans ?_)
    rw [or_assoc]
    exact or_congr Iff.rfl (Script.dropsFrom_cons (step_origins he)).symm

/-- What a script leads to from a number of reference parameters. -/
structure Reached (s : Script) (n : Nat) (tr : Tracking) : Prop where
  sound : tr.Sound n s.length
  origins : s.origins n = .ok tr.origins
  dropped : ∀ ordinal how, tr.fate? ordinal = some how ↔ s.Drops n (.reference ordinal) how

theorem reached_of_follow (h : follow 0 s (initial n) = .ok tr) : Reached s n tr where
  sound := by simpa using sound_follow (sound_initial n) h
  origins := by
    rw [Script.origins, ← initial_origins]
    exact follow_origins h
  dropped ordinal how := by
    rw [fate_follow (sound_initial n) h]
    simp [initial, fate?, Tracking.origins, Script.Drops, Function.comp_def, Token.origin]

theorem Reached.substituted (h : Reached s n tr) (ordinal : Nat) (o : Origin) :
    tr.fate? ordinal = some (.substituted o) ↔ s.Substitutes n (.reference ordinal) o :=
  (h.dropped ordinal _).trans Script.substitutes_iff.symm

/-- How many parameters left after a given one. -/
def age (tr : Tracking) (ordinal : Nat) : Nat := (tr.fates.map (·.1)).idxOf ordinal

theorem Sound.age_lt (h : tr.Sound n serial) (hi : tr.fate? ordinal ≠ none) :
    tr.age ordinal < n := by
  have hmem : ordinal ∈ tr.fates.map (·.1) := by
    by_contra hm
    refine hi (fate_none_iff.2 fun p hp he => hm ?_)
    exact he ▸ List.mem_map_of_mem hp
  have hlen : (tr.fates.map (·.1)).length ≤ (List.range n).length := by
    refine (List.subperm_of_subset h.once fun i hi => ?_).length_le
    obtain ⟨p, hp, rfl⟩ := List.mem_map.1 hi
    exact List.mem_range.2 (h.bound p hp)
  exact Nat.lt_of_lt_of_le (List.idxOf_lt_length_iff.2 hmem) (by simpa using hlen)

theorem Sound.age_source_lt (h : tr.Sound n serial) {i : Nat}
    (ho : tr.fate? ordinal = some (.substituted (.reference i))) (hi : tr.fate? i ≠ none) :
    tr.age i < tr.age ordinal := by
  obtain ⟨how, hhow⟩ := Option.ne_none_iff_exists'.1 hi
  obtain ⟨k, hk, hke⟩ := List.getElem_of_mem (h.fate_eq_some_iff.1 ho)
  obtain ⟨j, hj, hje⟩ := List.getElem_of_mem (h.fate_eq_some_iff.1 hhow)
  have index {l : Nat} (hl : l < tr.fates.length) : tr.age tr.fates[l].1 = l := by
    have := h.once.idxOf_getElem l (by simpa using hl)
    simpa [age] using this
  have hak := index hk
  have haj := index hj
  rw [hke] at hak
  rw [hje] at haj
  rw [hak, haj]
  by_contra hlt
  rcases Nat.lt_or_eq_of_le (Nat.le_of_not_lt hlt) with hkj | rfl
  · have := List.pairwise_iff_getElem.1 h.forward k j hk hj hkj
    rw [hke, hje] at this
    exact this rfl
  · rw [hke, Prod.mk.injEq] at hje
    have := h.other _ (h.fate_eq_some_iff.1 ho)
    simp [hje.1] at this

theorem Reached.leadsTo_finalSource (h : Reached s n tr) (steps : Nat) (o : Origin)
    (hage : ∀ i, o = .reference i → tr.fate? i ≠ none → tr.age i < steps) :
    s.LeadsTo n o (tr.finalSource steps o) := by
  have kept {i : Nat} (hi : ∀ o, tr.fate? i ≠ some (.substituted o)) :
      s.LeadsTo n (.reference i) (.reference i) :=
    .kept fun o ho => hi o ((h.substituted i o).2 ho)
  induction steps generalizing o with
  | zero =>
    cases o with
    | inserted k => exact .inserted k
    | reference i =>
      refine kept fun o ho => ?_
      exact Nat.not_lt_zero _ (hage i rfl (by simp [ho]))
  | succ steps ih =>
    cases o with
    | inserted k => exact .inserted k
    | reference i =>
      rw [finalSource]
      split
      · rename_i further hf
        refine .via ((h.substituted i further).1 hf) (ih _ ?_)
        rintro j rfl hj
        have := h.sound.age_source_lt hf hj
        have := hage i rfl (by simp [hf])
        omega
      · rename_i hf
        exact kept hf

theorem Reached.leadsTo_unique (h : Reached s n tr) (ha : s.LeadsTo n o a)
    (hb : s.LeadsTo n o b) : a = b := by
  induction ha with
  | inserted => cases hb; rfl
  | kept hk =>
    cases hb with
    | kept => rfl
    | via hs => exact (hk _ hs).elim
  | via hs _ ih =>
    cases hb with
    | kept hk => exact (hk _ hs).elim
    | via hs' hl' =>
      have hs := (h.substituted _ _).2 hs
      rw [(h.substituted _ _).2 hs'] at hs
      cases hs
      exact ih hl'

theorem Reached.leadsTo_iff (h : Reached s n tr) :
    s.LeadsTo n o last ↔ tr.finalSource n o = last := by
  have hfinal := h.leadsTo_finalSource n o fun i _ hi => h.sound.age_lt hi
  exact ⟨fun hl => h.leadsTo_unique hfinal hl, fun he => he ▸ hfinal⟩

end Tracking
end Reparam
