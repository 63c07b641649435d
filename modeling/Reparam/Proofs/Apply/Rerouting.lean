import Reparam.Proofs.Apply.Arriving

/-! The phases that take parameters out: each goes through its targets from the back of the row to
the front and puts another site in the place of every one of them. -/
namespace Reparam

section Descending

variable {α β P ε : Type} {step : P → Nat × β → Except ε P} {pick : α → Option β}
  {I : List α → List α → P → Prop} {xs : List α} {p p' : P}

/-- A run over the found elements in descending order, with what holds before and behind a place: it
comes to the front, or it stops at some found element. -/
theorem foldlM_located_reverse
    (skip : ∀ pre x post p, xs = pre ++ x :: post → pick x = none → I (pre ++ [x]) post p →
      I pre (x :: post) p)
    (take : ∀ pre x post y p p', xs = pre ++ x :: post → pick x = some y → I (pre ++ [x]) post p →
      step p (pre.length, y) = .ok p' → I pre (x :: post) p') (h : I xs [] p) :
    (∀ p', (located pick 0 xs).reverse.foldlM step p = .ok p' → I [] xs p') ∧
    ∀ err, (located pick 0 xs).reverse.foldlM step p = .error err →
      ∃ pre x post y q, xs = pre ++ x :: post ∧ pick x = some y ∧ I (pre ++ [x]) post q ∧
        step q (pre.length, y) = .error err := by
  suffices walk : ∀ pre post p, xs = pre ++ post → I pre post p →
      (∀ p', (located pick 0 pre).reverse.foldlM step p = .ok p' → I [] xs p') ∧
      ∀ err, (located pick 0 pre).reverse.foldlM step p = .error err →
        ∃ pre x post y q, xs = pre ++ x :: post ∧ pick x = some y ∧ I (pre ++ [x]) post q ∧
          step q (pre.length, y) = .error err from
    walk xs [] p (List.append_nil xs).symm h
  intro pre
  induction pre using List.reverseRecOn with
  | nil =>
    intro post p hxs hI
    constructor
    · intro p' hf
      cases hf
      rw [hxs]
      exact hI
    · intro err hf
      cases hf
  | append_singleton pre x ih =>
    intro post p hxs hI
    have hxs' : xs = pre ++ x :: post := by simpa using hxs
    cases hx : pick x with
    | none =>
      rw [located_concat_none hx]
      exact ih (x :: post) p hxs' (skip pre x post p hxs' hx hI)
    | some y =>
      rw [located_concat_some hx, List.reverse_concat, Nat.zero_add, List.foldlM_cons]
      cases hq : step p (pre.length, y) with
      | ok q => exact ih (x :: post) q hxs' (take pre x post y p q hxs' hx hI hq)
      | error stopped =>
        refine ⟨fun p' hf => (nomatch hf), fun err hf => ?_⟩
        cases hf
        exact ⟨pre, x, post, y, p, hxs', hx, hI, hq⟩

end Descending

namespace Site

variable {dest : Origin → Option Site} {x : Token} {post : List Token} {s s' : Site}

/-- A site once the given parameters are gone, each for another site. -/
def reroute (dest : Origin → Option Site) (gone : List Token) : Site → Site
  | parameter o => if o ∈ gone.map Token.origin then (dest o).getD (parameter o) else parameter o
  | s => s

theorem reroute_nil (dest : Origin → Option Site) (s : Site) : reroute dest [] s = s := by
  cases s <;> rfl

theorem reroute_cons_none (hx : dest x.origin = none) :
    reroute dest (x :: post) s = reroute dest post s := by
  cases s with
  | parameter o =>
    simp only [reroute, List.map_cons, List.mem_cons]
    by_cases ho : o = x.origin
    · subst ho
      simp [hx]
    · simp [ho]
  | _ => rfl

theorem reroute_cons_some (hx : dest x.origin = some s') (hpost : x.origin ∉ post.map Token.origin)
    (hdest : ∀ o, dest o ≠ some (.parameter x.origin)) :
    reroute dest (x :: post) s = redirect (.parameter x.origin) s' (reroute dest post s) := by
  cases s with
  | parameter o =>
    by_cases ho : o = x.origin
    · subst ho
      simp [reroute, redirect, hpost, hx]
    · simp only [reroute, List.map_cons, List.mem_cons, ho, false_or]
      by_cases hm : o ∈ post.map Token.origin
      · rw [if_pos hm, redirect, if_neg]
        intro he
        cases hd : dest o with
        | none =>
          rw [hd] at he
          cases he
          exact ho rfl
        | some s'' =>
          rw [hd] at he
          cases he
          exact hdest o hd
      · rw [if_neg hm, redirect, if_neg]
        simpa using ho
  | _ => rfl

/-- What is rerouted leads to no parameter but those that stay. -/
theorem reroute_eq_parameter {o : Origin} (hdest : ∀ o o', dest o ≠ some (.parameter o'))
    (ho : o ∉ post.map Token.origin) : reroute dest post s = .parameter o ↔ s = .parameter o := by
  cases s with
  | parameter o' =>
    simp only [reroute]
    split
    · rename_i hm
      have hne : o' ≠ o := fun he => ho (he ▸ hm)
      cases hd : dest o' with
      | none => simp
      | some s' =>
        rw [Option.getD_some]
        constructor
        · rintro rfl
          exact (hdest _ _ hd).elim
        · rintro ⟨⟩
          exact (hne rfl).elim
    · rfl
  | _ => rfl

theorem reroute_ne (hs : s ≠ s') (hdest : ∀ o, dest o ≠ some s') :
    reroute dest post s ≠ s' := by
  cases s with
  | parameter o =>
    simp only [reroute]
    split
    · cases hd : dest o with
      | none => exact hs
      | some s'' =>
        rw [Option.getD_some]
        exact fun he => hdest o (he ▸ hd)
    · exact hs
  | _ => exact hs

theorem reroute_ne_parked (hs : s ≠ .parked) (hdest : ∀ o, dest o ≠ some .parked) :
    reroute dest post s ≠ .parked := reroute_ne hs hdest

end Site

variable {g : Premises} {types : List ValueType} {tokens : List Token} {σ : Nat → Site}
  {base : Code} {p p' : Progress} {dest : Origin → Option Site}

/-- How a body stands when the targets behind a place are gone and those before it are not. -/
def Partway (g : Premises) (types : List ValueType) {β : Type} (pick : Token → Option β)
    (dest : Origin → Option Site) (σ : Nat → Site) (base : Code) (pre post : List Token)
    (p : Progress) : Prop :=
  Stands g (pre.map (Token.full types) ++ (passedOver pick post).map (Token.full types))
    (fun i => Site.reroute dest post (σ i)) base p

namespace Partway

variable {β : Type} {pick : Token → Option β} {pre post : List Token} {x : Token} {y : β}

theorem of_stands (h : Stands g (tokens.map (Token.full types)) σ base p) :
    Partway g types pick dest σ base tokens [] p := by
  unfold Partway
  simp only [Site.reroute_nil]
  simpa using h

theorem stands (h : Partway g types pick dest σ base [] tokens p) :
    Stands g ((passedOver pick tokens).map (Token.full types))
      (fun i => Site.reroute dest tokens (σ i)) base p := h

/-- The next parameter that is still there. -/
theorem next (h : Partway g types pick dest σ base (pre ++ [x]) post p) :
    Stands g (pre.map (Token.full types) ++ x.full types ::
      (passedOver pick post).map (Token.full types)) (fun i => Site.reroute dest post (σ i)) base
        p := by
  unfold Partway at h
  rwa [List.map_append, List.map_singleton, List.append_assoc, List.singleton_append] at h

theorem skip (hnone : ∀ x, pick x = none → dest x.origin = none) (hx : pick x = none)
    (h : Partway g types pick dest σ base (pre ++ [x]) post p) :
    Partway g types pick dest σ base pre (x :: post) p := by
  unfold Partway
  simp only [Site.reroute_cons_none (hnone x hx), passedOver_cons_none hx, List.map_cons]
  exact h.next

theorem take {s : Site} (hx : pick x = some y) (hdest : dest x.origin = some s)
    (hparameter : ∀ o o', dest o ≠ some (.parameter o')) (hpost : x.origin ∉ post.map Token.origin)
    (h : Stands g (pre.map (Token.full types) ++ (passedOver pick post).map (Token.full types))
      (fun i => Site.redirect (.parameter x.origin) s (Site.reroute dest post (σ i))) base p) :
    Partway g types pick dest σ base pre (x :: post) p := by
  unfold Partway
  simp only [Site.reroute_cons_some hdest hpost fun o => hparameter o _, passedOver_cons_some hx]
  exact h

end Partway

theorem not_mem_behind {pre post : List Token} {x : Token}
    (hnodup : (tokens.map Token.origin).Nodup) (h : tokens = pre ++ x :: post) :
    x.origin ∉ post.map Token.origin := by
  rw [h, List.map_append, List.map_cons] at hnodup
  exact (List.nodup_cons.1 hnodup.of_append_right).1

/-- A phase that takes its targets out one by one. -/
theorem Stands.foldlM_drop {β : Type} {step : Progress → Nat × β → Except Stopped Progress}
    {pick : Token → Option β} (hnodup : (tokens.map Token.origin).Nodup)
    (hdest : ∀ o, dest o ≠ some .parked) (hparameter : ∀ o o', dest o ≠ some (.parameter o'))
    (hnone : ∀ x, pick x = none → dest x.origin = none) (hσ : ∀ x, σ x ≠ .parked)
    (hstep : ∀ front x back y σ p p', pick x = some y → (∀ x, σ x ≠ .parked) →
      Stands g (front ++ x.full types :: back) σ base p → step p (front.length, y) = .ok p' →
      ∃ s, dest x.origin = some s ∧ Stands g (front ++ back)
        (fun i => Site.redirect (.parameter x.origin) s (σ i)) base p')
    (h : Stands g (tokens.map (Token.full types)) σ base p)
    (hp : (located pick 0 tokens).reverse.foldlM step p = .ok p') :
    Stands g ((passedOver pick tokens).map (Token.full types))
      (fun i => Site.reroute dest tokens (σ i)) base p' := by
  refine ((foldlM_located_reverse (I := Partway g types pick dest σ base)
    (fun pre x post p _ hx hI => hI.skip hnone hx) ?_ (.of_stands h)).1 p' hp).stands
  intro pre x post y p p' hxs hx hI hp
  obtain ⟨s, hs, hnext⟩ := hstep _ x _ y _ p p' hx
    (fun i => Site.reroute_ne_parked (hσ i) hdest) hI.next (by rwa [List.length_map])
  exact .take hx hs hparameter (not_mem_behind hnodup hxs) hnext

namespace Tracking

variable {n : Nat} {tr : Tracking} {places : List Token}

/-- What became of the parameter of an origin. -/
def fateOf (tr : Tracking) : Origin → Option Fate
  | .reference ordinal => tr.fate? ordinal
  | .inserted _ => none

/-- Where the references to a removed parameter go. -/
def whenRemoved (tr : Tracking) (o : Origin) : Option Site :=
  match tr.fateOf o with
  | some .removed => some .unreachable
  | _ => none

def whenInlined (tr : Tracking) (o : Origin) : Option Site :=
  match tr.fateOf o with
  | some (.inlined generator) => some (.generated generator)
  | _ => none

def whenSubstituted (tr : Tracking) (n : Nat) (o : Origin) : Option Site :=
  match tr.fateOf o with
  | some (.substituted source) => some (.parameter (tr.finalSource n source))
  | _ => none

theorem fated_eq {α : Type} (tr : Tracking) (pick : Fate → Option α) (t : Token) :
    tr.fated pick t = (tr.fateOf t.origin).bind pick := by
  cases t <;> rfl

theorem fateOf_eq_some {t : Token} {how : Fate} :
    tr.fateOf t.origin = some how ↔ ∃ ordinal, t.ordinal? = some ordinal ∧
      tr.fate? ordinal = some how := by
  cases t with
  | reference ordinal r =>
    constructor
    · exact fun h => ⟨ordinal, rfl, h⟩
    · rintro ⟨_, ⟨⟩, h⟩
      exact h
  | inserted => simp [fateOf, Token.origin, Token.ordinal?]

theorem whenSubstituted_of_standIn {t : Token} {y : Nat × Origin} (h : tr.standIn t = some y) :
    tr.whenSubstituted n t.origin = some (.parameter (tr.finalSource n y.2)) := by
  have hfate := fateOf_eq_some.2 ⟨y.1, standIn_eq_some.1 h⟩
  simp only [whenSubstituted, hfate]

theorem whenSubstituted_eq_none {t : Token} (h : tr.standIn t = none) :
    tr.whenSubstituted n t.origin = none := by
  unfold whenSubstituted
  split
  · rename_i source hfate
    obtain ⟨ordinal, ht, hf⟩ := fateOf_eq_some.1 hfate
    exact (standIn_eq_none.1 h ordinal source ht hf).elim
  · rfl

end Tracking

open Tracking

variable {n : Nat} {tr : Tracking} {places : List Token} {s : Script} {pairs : List (Nat × Nat)}

theorem whenRemoved_eq_some {o : Origin} {site : Site} :
    tr.whenRemoved o = some site ↔ tr.fateOf o = some .removed ∧ site = .unreachable := by
  unfold whenRemoved
  split
  · rename_i hfate
    simp [hfate, eq_comm]
  · rename_i hfate
    simpa using fun h => (hfate h).elim

theorem whenRemoved_ne_parked (o : Origin) : tr.whenRemoved o ≠ some .parked := by
  simp [whenRemoved_eq_some]

theorem fated_removed {t : Token} :
    tr.fated removedFate t = some () ↔ tr.fateOf t.origin = some .removed := by
  rw [fated_eq, Option.bind_eq_some_iff]
  constructor
  · rintro ⟨how, hfate, hhow⟩
    cases how with
    | removed => exact hfate
    | substituted => cases hhow
    | inlined => cases hhow
  · exact fun hfate => ⟨_, hfate, rfl⟩

theorem whenRemoved_eq_none {t : Token} (h : tr.fated removedFate t = none) :
    tr.whenRemoved t.origin = none := by
  refine Option.eq_none_iff_forall_ne_some.2 fun site hsite => ?_
  rw [fated_removed.2 (whenRemoved_eq_some.1 hsite).1] at h
  cases h

theorem Applier.removeAll_located (a : Applier) (pick : Token → Option Unit) (p : Progress) :
    a.removeAll ((located pick 0 places).map (·.1)).reverse p =
      (located pick 0 places).reverse.foldlM (fun p q => a.remove p q.1) p := by
  rw [removeAll, ← List.map_reverse,
    descending_eq (List.pairwise_map.2 located_reverse_pairwise), List.foldlM_map]

/-- All removals, back to front. -/
theorem Stands.removeAll (hnodup : (places.map Token.origin).Nodup) (hσ : ∀ x, σ x ≠ .parked)
    (h : Stands g (places.map (Token.full types)) σ base p)
    (hp : g.applier.removeAll
      ((located (tr.fated removedFate) 0 places).map (·.1)).reverse p = .ok p') :
    Stands g ((passedOver (tr.fated removedFate) places).map (Token.full types))
      (fun i => Site.reroute tr.whenRemoved places (σ i)) base p' := by
  rw [Applier.removeAll_located] at hp
  refine h.foldlM_drop hnodup whenRemoved_ne_parked ?_ (fun x => whenRemoved_eq_none) hσ ?_ hp
  · simp [whenRemoved_eq_some]
  · intro front x back y σ p p' hx _ hI hp
    exact ⟨.unreachable, whenRemoved_eq_some.2 ⟨fated_removed.1 hx, rfl⟩, hI.remove hp⟩

/-- All inlinings, back to front. -/
theorem Stands.inlineAll (hnodup : (places.map Token.origin).Nodup) (hσ : ∀ x, σ x ≠ .parked)
    (h : Stands g (places.map (Token.full types)) σ base p)
    (hp : g.applier.inlineAll (located (tr.fated inlinedFate) 0 places).reverse p = .ok p') :
    Stands g ((passedOver (tr.fated inlinedFate) places).map (Token.full types))
      (fun i => Site.reroute tr.whenInlined places (σ i)) base p' := by
  rw [Applier.inlineAll, descendingByFirst_eq located_reverse_pairwise] at hp
  refine h.foldlM_drop hnodup ?_ ?_ ?_ hσ ?_ hp
  · intro o
    unfold whenInlined
    split <;> simp
  · intro o o'
    unfold whenInlined
    split <;> simp
  · intro x hx
    rw [fated_eq] at hx
    unfold whenInlined
    split
    · rename_i hfate
      rw [hfate] at hx
      cases hx
    · rfl
  · intro front x back y σ p p' hx hσ hI hp
    refine ⟨.generated y, ?_, hI.inline hp hσ⟩
    rw [fated_eq, Option.bind_eq_some_iff] at hx
    obtain ⟨how, hfate, hhow⟩ := hx
    cases how with
    | removed => cases hhow
    | substituted => cases hhow
    | inlined k =>
      cases hhow
      simp only [whenInlined, hfate]

theorem whenSubstituted_ne (h : Reached s n tr) {t : Token} {y : Nat × Origin}
    (ht : tr.standIn t = some y) (o : Origin) :
    tr.whenSubstituted n o ≠ some (.parameter t.origin) := by
  intro ho
  unfold whenSubstituted at ho
  split at ho
  · rename_i source _
    obtain ⟨hordinal, hfate⟩ := standIn_eq_some.1 ht
    cases t with
    | inserted => cases hordinal
    | reference ordinal r =>
      cases hordinal
      simp only [Option.some.injEq, Site.parameter.injEq] at ho
      exact h.finalSource_kept (h.leadsTo_iff.2 ho) _ hfate
  · cases ho

theorem whenSubstituted_ne_parked (o : Origin) : tr.whenSubstituted n o ≠ some .parked := by
  unfold whenSubstituted
  split <;> simp

/-- One substitution. Behind the place of its target the other targets are gone. -/
theorem Stands.substitute_at {pre post : List Token} {x c : Token} {y : Nat × Origin}
    {source place : Nat} (hreached : Reached s n tr) (hnodup : (places.map Token.origin).Nodup)
    (hσ : ∀ x, σ x ≠ .parked) (hplaces : places = pre ++ x :: post)
    (hx : tr.standIn x = some y) (hc : places[source]? = some c) (hkept : tr.standIn c = none)
    (hfinal : c.origin = tr.finalSource n y.2)
    (h : Stands g ((pre ++ [x] ++ passedOver tr.standIn post).map (Token.full types))
      (fun i => Site.reroute (tr.whenSubstituted n) post (σ i)) base p)
    (hplace : currentIndex? source ((located tr.standIn (pre ++ [x]).length post).map (·.1)) =
      some place)
    (hp : g.applier.substitute p pre.length place = .ok p') :
    Stands g ((pre ++ passedOver tr.standIn (x :: post)).map (Token.full types))
      (fun i => Site.reroute (tr.whenSubstituted n) (x :: post) (σ i)) base p' := by
  have hpost : x.origin ∉ post.map Token.origin := by
    rw [hplaces, List.map_append, List.map_cons] at hnodup
    exact (List.nodup_cons.1 hnodup.of_append_right).1
  have hold : (pre ++ [x] ++ passedOver tr.standIn post).map (Token.full types) =
      pre.map (Token.full types) ++ x.full types ::
        (passedOver tr.standIn post).map (Token.full types) := by simp
  have hnew : (pre ++ passedOver tr.standIn (x :: post)).map (Token.full types) =
      pre.map (Token.full types) ++ (passedOver tr.standIn post).map (Token.full types) := by
    simp [passedOver_cons_some hx]
  have hsource : (pre.map (Token.full types) ++ (x.origin, x.typeIn types) ::
      (passedOver tr.standIn post).map (Token.full types))[place]? =
      some (tr.finalSource n y.2, c.typeIn types) := by
    have hplaces' : places = (pre ++ [x]) ++ post := by simpa using hplaces
    rw [hplaces'] at hc
    obtain ⟨left, hleft, hat⟩ := exists_currentIndex? hc hkept
    cases hplace.symm.trans hleft
    have hat := congrArg (Option.map (Token.full types)) hat
    have hfull : c.full types = (tr.finalSource n y.2, c.typeIn types) := by
      rw [Token.full, hfinal]
    rw [← List.getElem?_map, hold, Option.map_some, hfull] at hat
    exact hat
  rw [hold] at h
  rw [hnew]
  simp only [Site.reroute_cons_some (whenSubstituted_of_standIn hx) hpost
    (whenSubstituted_ne hreached hx)]
  refine h.substitute ?_ hsource fun i => ?_
  · rwa [List.length_map]
  · exact Site.reroute_ne_parked (hσ i) whenSubstituted_ne_parked

/-- All substitutions, back to front. Behind the place that is looked at the targets are gone. -/
theorem Stands.substituteAll (hreached : Reached s n tr)
    (hnodup : (places.map Token.origin).Nodup) (hσ : ∀ x, σ x ≠ .parked)
    (h : Stands g (places.map (Token.full types)) σ base p)
    (hpairs : List.Forall₂ (fun p y => y.1 = p.1 ∧ y.1 ≠ y.2 ∧ ∃ c, places[y.2]? = some c ∧
      tr.standIn c = none ∧ c.origin = tr.finalSource n p.2.2)
      (located tr.standIn 0 places).reverse pairs)
    (hp : g.applier.substituteAll pairs [] p = .ok p') :
    Stands g ((passedOver tr.standIn places).map (Token.full types))
      (fun i => Site.reroute (tr.whenSubstituted n) places (σ i)) base p' := by
  suffices walk : ∀ pre post pairs p, places = pre ++ post →
      List.Forall₂ (fun p y => y.1 = p.1 ∧ y.1 ≠ y.2 ∧ ∃ c, places[y.2]? = some c ∧
        tr.standIn c = none ∧ c.origin = tr.finalSource n p.2.2)
        (located tr.standIn 0 pre).reverse pairs →
      Stands g ((pre ++ passedOver tr.standIn post).map (Token.full types))
        (fun i => Site.reroute (tr.whenSubstituted n) post (σ i)) base p →
      g.applier.substituteAll pairs ((located tr.standIn pre.length post).map (·.1)) p = .ok p' →
      Stands g ((passedOver tr.standIn places).map (Token.full types))
        (fun i => Site.reroute (tr.whenSubstituted n) places (σ i)) base p' by
    refine walk places [] pairs p (by simp) hpairs ?_ hp
    simpa [Site.reroute_nil] using h
  intro pre
  induction pre using List.reverseRecOn with
  | nil =>
    intro post pairs p hplaces hpairs hI hp
    cases hpairs
    cases hp
    rw [hplaces]
    simpa using hI
  | append_singleton pre x ih =>
    intro post pairs p hplaces hpairs hI hp
    have hplaces' : places = pre ++ x :: post := by simpa using hplaces
    cases hx : tr.standIn x with
    | none =>
      rw [located_concat_none hx] at hpairs
      refine ih (x :: post) pairs p hplaces' hpairs ?_ ?_
      · simp only [Site.reroute_cons_none (whenSubstituted_eq_none hx)]
        simpa [passedOver_cons_none hx] using hI
      · rw [located_cons_none hx]
        simpa using hp
    | some y =>
      rw [located_concat_some hx, List.reverse_concat, Nat.zero_add] at hpairs
      obtain ⟨⟨target, source⟩, rest, ⟨rfl, hne, c, hc, hkept, hfinal⟩, hrest, rfl⟩ :=
        List.forall₂_cons_left_iff.1 hpairs
      obtain ⟨place, q, hplace, hq, hp⟩ := Applier.substituteAll_cons_ok hp
      refine ih (x :: post) rest q hplaces' hrest ?_ ?_
      · exact hI.substitute_at hreached hnodup hσ hplaces' hx hc hkept hfinal hplace hq
      · rw [located_cons_some hx, List.map_cons]
        simpa using hp

end Reparam
