import Mathlib.Data.List.Nodup
import Reparam.Proofs.Flatten.Lineage

/-! What holds of the tokens and fates at every point of a script: each reference parameter is
either in the list or has one fate, and a fate never points at a parameter that left before. -/
namespace Reparam.Tracking

variable {n serial ordinal : Nat} {s : Script} {e : Edit} {tr tr' : Tracking}
  {tokens tokens' : List Token} {o : Origin} {how : Fate}

def origins (tr : Tracking) : List Origin := tr.tokens.map Token.origin

structure Sound (n serial : Nat) (tr : Tracking) : Prop where
  nodup : tr.origins.Nodup
  serial_lt : ∀ k, .inserted k ∈ tr.origins → k < serial
  alive : ∀ ordinal, .reference ordinal ∈ tr.origins ↔ ordinal < n ∧ tr.fate? ordinal = none
  bound : ∀ p ∈ tr.fates, p.1 < n
  once : (tr.fates.map (·.1)).Nodup
  forward : tr.fates.Pairwise fun newer older => newer.2 ≠ .substituted (.reference older.1)
  other : ∀ p ∈ tr.fates, p.2 ≠ .substituted (.reference p.1)
  source_lt : ∀ p ∈ tr.fates, ∀ i, p.2 = .substituted (.reference i) → i < n

theorem fate_none_iff : tr.fate? ordinal = none ↔ ∀ p ∈ tr.fates, p.1 ≠ ordinal := by
  simp only [fate?, List.lookup_eq_none_iff, bne_iff_ne, ne_comm (a := ordinal)]

/-- Where every key stands once, looking it up finds its only entry. -/
theorem lookup_eq_some_iff_mem {α β : Type} [DecidableEq α] {ps : List (α × β)} {key : α} {value : β}
    (once : (ps.map (·.1)).Nodup) : ps.lookup key = some value ↔ (key, value) ∈ ps := by
  induction ps with
  | nil => simp
  | cons p ps ih =>
    obtain ⟨i, v⟩ := p
    simp only [List.map_cons, List.nodup_cons, List.mem_map, not_exists, not_and] at once
    rw [List.lookup_cons, List.mem_cons, Prod.mk.injEq]
    by_cases hi : key = i
    · subst hi
      have : (key, value) ∉ ps := fun hm => once.1 _ hm rfl
      simp [this, eq_comm]
    · have : (key == i) = false := by simpa using hi
      simp only [this, hi, false_and, false_or]
      exact ih once.2

theorem Sound.fate_eq_some_iff (h : tr.Sound n serial) :
    tr.fate? ordinal = some how ↔ (ordinal, how) ∈ tr.fates := lookup_eq_some_iff_mem h.once

/-- An edit brings in one token, keeps all of them, or lets one go, to no token that left. -/
theorem step_origins_cases (h : e.Step (.inserted serial) Token.retype tokens tokens') :
    (e.departure? tokens = none ∧ (tokens'.map Token.origin).Perm
      (.inserted serial :: tokens.map Token.origin)) ∨
    (e.departure? tokens = none ∧ (tokens'.map Token.origin).Perm (tokens.map Token.origin)) ∨
    (∃ x how, e.departure? tokens = some (x, how) ∧
      (tokens.map Token.origin).Perm (x.origin :: tokens'.map Token.origin) ∧
      ∀ y, how = .substituted y → y ∈ tokens') := by
  have erase {i : Nat} (hi : i < tokens.length) : (tokens.map Token.origin).Perm
      (tokens[i].origin :: (tokens.eraseIdx i).map Token.origin) :=
    ((List.getElem_cons_eraseIdx_perm hi).map Token.origin).symm
  cases h with
  | insert t h =>
    exact .inl ⟨rfl, (List.perm_insertIdx _ _ h).map Token.origin⟩
  | @replace _ i t h =>
    exact .inr (.inl ⟨rfl, .of_eq (map_modify_of_eq (fun x => by cases x <;> rfl) tokens i)⟩)
  | swap ha hb => exact .inr (.inl ⟨rfl, exchange_perm.map Token.origin⟩)
  | move hs hd => exact .inr (.inl ⟨rfl, (relocate_perm hd).map Token.origin⟩)
  | @remove _ i h =>
    exact .inr (.inr ⟨tokens[i], .removed, by simp [Edit.departure?, h], erase h, by simp⟩)
  | @substitute _ target source hne ht hs =>
    refine .inr (.inr ⟨tokens[target], .substituted tokens[source],
      by simp [Edit.departure?, ht, hs], erase ht, ?_⟩)
    rintro y ⟨rfl⟩
    exact List.mem_eraseIdx_iff_getElem.2 ⟨source, hs, fun he => hne he.symm, rfl⟩
  | @inline _ i generator h =>
    exact .inr (.inr ⟨tokens[i], .inlined generator, by simp [Edit.departure?, h], erase h, by simp⟩)

theorem sound_initial (n : Nat) : (initial n).Sound n 0 where
  nodup := by
    rw [origins, initial_origins]
    exact List.Nodup.map (fun i j h => by simpa using h) List.nodup_range
  serial_lt k hk := by
    rw [origins, initial_origins] at hk
    simp at hk
  alive ordinal := by
    rw [origins, initial_origins]
    simp [fate?, initial]
  bound p hp := by cases hp
  once := .nil
  forward := .nil
  other p hp := by cases hp
  source_lt p hp := by cases hp

theorem Sound.perm (h : tr.Sound n serial) (hp : (tokens.map Token.origin).Perm tr.origins) :
    Sound n (serial + 1) { tr with tokens } where
  nodup := hp.nodup_iff.2 h.nodup
  serial_lt k hk := Nat.lt_succ_of_lt (h.serial_lt k (hp.subset hk))
  alive ordinal := hp.mem_iff.trans (h.alive ordinal)
  bound := h.bound
  once := h.once
  forward := h.forward
  other := h.other
  source_lt := h.source_lt

theorem Sound.insert (h : tr.Sound n serial)
    (hp : (tokens.map Token.origin).Perm (.inserted serial :: tr.origins)) :
    Sound n (serial + 1) { tr with tokens } where
  nodup := hp.nodup_iff.2 (List.nodup_cons.2 ⟨fun hm => Nat.lt_irrefl _ (h.serial_lt _ hm), h.nodup⟩)
  serial_lt k hk := by
    rcases List.mem_cons.1 (hp.subset hk) with hk | hk
    · cases hk
      exact Nat.lt_succ_self serial
    · exact Nat.lt_succ_of_lt (h.serial_lt k hk)
  alive ordinal := by
    refine Iff.trans ?_ (h.alive ordinal)
    rw [origins, hp.mem_iff]
    simp
  bound := h.bound
  once := h.once
  forward := h.forward
  other := h.other
  source_lt := h.source_lt

theorem fate_cons (i : Nat) (tokens : List Token) (fates : List (Nat × Fate)) :
    fate? ⟨tokens, (ordinal, how) :: fates⟩ i = if i = ordinal then some how else
      fates.lookup i := by
  rw [fate?, List.lookup_cons]
  by_cases hi : i = ordinal
  · simp [hi]
  · have : (i == ordinal) = false := by simpa using hi
    simp only [this, if_neg hi]

theorem Sound.drop {x : Token} {how : Departure Token} (h : tr.Sound n serial)
    (hp : tr.origins.Perm (x.origin :: tokens.map Token.origin))
    (hy : ∀ y, how = .substituted y → y ∈ tokens) :
    Sound n (serial + 1) { tr.noteDeparture (some (x, how)) with tokens } := by
  have hnodup := hp.nodup_iff.1 h.nodup
  have hsub : ∀ o, o ∈ tokens.map Token.origin → o ∈ tr.origins :=
    fun o ho => hp.symm.subset (List.mem_cons_of_mem _ ho)
  have hserial : ∀ k, .inserted k ∈ tokens.map Token.origin → k < serial + 1 :=
    fun k hk => Nat.lt_succ_of_lt (h.serial_lt k (hsub _ hk))
  cases x with
  | inserted k t =>
    refine ⟨hnodup.of_cons, hserial, fun i => ?_, h.bound, h.once, h.forward, h.other,
      h.source_lt⟩
    refine Iff.trans ?_ (h.alive i)
    rw [hp.mem_iff]
    simp [origins, Token.origin]
  | reference ordinal r =>
    have halive := (h.alive ordinal).1 (hp.symm.subset List.mem_cons_self)
    have hself : .reference ordinal ∉ tokens.map Token.origin := (List.nodup_cons.1 hnodup).1
    have hnew : ∀ p ∈ tr.fates, p.1 ≠ ordinal := fate_none_iff.1 halive.2
    have hsource : ∀ i, how.toFate = .substituted (.reference i) →
        .reference i ∈ tokens.map Token.origin := by
      intro i hi
      cases how with
      | substituted y =>
        simp only [Departure.toFate, Departure.substituted.injEq] at hi
        exact hi ▸ List.mem_map_of_mem (hy y rfl)
      | removed => cases hi
      | inlined => cases hi
    refine ⟨hnodup.of_cons, hserial, fun i => ?_, ?_, ?_, ?_, ?_, ?_⟩
    · have hi := h.alive i
      rw [hp.mem_iff, List.mem_cons] at hi
      simp only [noteDeparture, fate_cons, origins]
      by_cases he : i = ordinal
      · subst he
        simpa using hself
      · rw [if_neg he]
        refine Iff.trans ⟨.inr, fun hm => hm.resolve_left ?_⟩ hi
        simpa [Token.origin] using he
    · rintro p (_ | ⟨_, hm⟩)
      · exact halive.1
      · exact h.bound p hm
    · refine List.nodup_cons.2 ⟨?_, h.once⟩
      rw [List.mem_map]
      rintro ⟨p, hm, he⟩
      exact hnew p hm he
    · refine .cons ?_ h.forward
      intro p hm he
      have := (h.alive p.1).1 (hsub _ (hsource _ he))
      exact fate_none_iff.1 this.2 p hm rfl
    · rintro p (_ | ⟨_, hm⟩)
      · exact fun he => hself (hsource _ he)
      · exact h.other p hm
    · rintro p (_ | ⟨_, hm⟩) i hi
      · exact ((h.alive i).1 (hsub _ (hsource i hi))).1
      · exact h.source_lt p hm i hi

theorem sound_step (h : tr.Sound n serial)
    (he : e.Step (.inserted serial) Token.retype tr.tokens tokens) :
    Sound n (serial + 1) { tr.noteDeparture (e.departure? tr.tokens) with tokens } := by
  rcases step_origins_cases he with ⟨hd, hp⟩ | ⟨hd, hp⟩ | ⟨x, how, hd, hp, hy⟩
  · rw [hd]
    exact h.insert hp
  · rw [hd]
    exact h.perm hp
  · rw [hd]
    exact h.drop hp hy

theorem sound_follow (h : tr.Sound n serial) (hf : follow serial s tr = .ok tr') :
    tr'.Sound n (serial + s.length) := by
  induction s generalizing serial tr with
  | nil =>
    cases hf
    exact h
  | cons e rest ih =>
    obtain ⟨tokens, he, hr⟩ := follow_cons_ok hf
    have := ih (sound_step h he) hr
    rwa [List.length_cons, Nat.add_comm rest.length, ← Nat.add_assoc]

end Reparam.Tracking
