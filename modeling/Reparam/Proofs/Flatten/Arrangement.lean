import Mathlib.Data.List.Nodup
import Mathlib.Data.List.Sort
import Reparam.Proofs.Edit.Located
import Reparam.Proofs.Flatten.Chain
import Reparam.Proofs.Flatten.Settling

/-! The lists that flattening arranges the tokens in: just before removals, just before reordering
and just after insertions. -/
namespace Reparam

variable {n serial ordinal : Nat} {s : Script} {tr : Tracking} {tokens places refs : List Token}
  {p : Token → Bool} {os : List Nat}

/-- The ordinals of the reference parameters in a list. -/
def ordinals (tokens : List Token) : List Nat := tokens.filterMap Token.ordinal?

@[simp] theorem ordinals_nil : ordinals [] = [] := rfl

@[simp] theorem ordinals_reference (i : Nat) (r : Option ValueType) (tokens : List Token) :
    ordinals (.reference i r :: tokens) = i :: ordinals tokens := rfl

@[simp] theorem ordinals_inserted (k : Nat) (t : ValueType) (tokens : List Token) :
    ordinals (.inserted k t :: tokens) = ordinals tokens := rfl

theorem mem_ordinals : ordinal ∈ ordinals tokens ↔ ∃ r, .reference ordinal r ∈ tokens := by
  rw [ordinals, List.mem_filterMap]
  constructor
  · rintro ⟨t, ht, ho⟩
    cases t <;> cases ho
    exact ⟨_, ht⟩
  · rintro ⟨r, ht⟩
    exact ⟨_, ht, rfl⟩

namespace Tracking

theorem slotIn_perm (tokens : List Token) (ordinal : Nat) :
    (slotIn tokens ordinal).Perm (.reference ordinal none :: tokens) :=
  List.perm_insertIdx _ _ List.findIdx_le_length

theorem slotIn_cons (t : Token) (tokens : List Token) (ordinal : Nat) :
    slotIn (t :: tokens) ordinal =
      if t.ordinal?.any (ordinal < ·) then .reference ordinal none :: t :: tokens
      else t :: slotIn tokens ordinal := by
  rw [slotIn, List.findIdx_cons]
  split <;> rename_i h <;> simp [h, slotIn]

theorem slotIn_filter (h : p (.reference ordinal none) = false) :
    (slotIn tokens ordinal).filter p = tokens.filter p := by
  induction tokens with
  | nil => exact List.filter_cons_of_neg (by simp [h])
  | cons t tokens ih =>
    rw [slotIn_cons]
    split
    · exact List.filter_cons_of_neg (by simp [h])
    · rw [List.filter_cons, List.filter_cons, ih]

/-- Slotting a parameter in keeps reference parameters in ascending order. -/
theorem slotIn_pairwise (h : (ordinals tokens).Pairwise (· < ·)) (hn : ordinal ∉ ordinals tokens) :
    (ordinals (slotIn tokens ordinal)).Pairwise (· < ·) := by
  induction tokens with
  | nil => simp [slotIn]
  | cons t tokens ih =>
    cases t with
    | inserted k ty =>
      rw [slotIn_cons, if_neg (by simp [Token.ordinal?])]
      exact ih h hn
    | reference i r =>
      rw [ordinals_reference, List.pairwise_cons] at h
      rw [ordinals_reference, List.mem_cons, not_or] at hn
      by_cases hi : ordinal < i
      · rw [slotIn_cons, if_pos (by simpa [Token.ordinal?] using hi), ordinals_reference,
          ordinals_reference]
        refine .cons ?_ (.cons h.1 h.2)
        intro j hj
        rcases List.mem_cons.1 hj with rfl | hj
        · exact hi
        · exact Nat.lt_trans hi (h.1 j hj)
      · rw [slotIn_cons, if_neg (by simpa [Token.ordinal?] using hi), ordinals_reference]
        refine .cons ?_ (ih h.2 hn.2)
        intro j hj
        rcases List.mem_cons.1 (((slotIn_perm tokens ordinal).filterMap _).subset hj) with rfl | hj
        · have := hn.1
          omega
        · exact h.1 j hj

theorem foldl_slotIn_perm (os : List Nat) (tokens : List Token) :
    (os.foldl slotIn tokens).Perm (os.map (.reference · none) ++ tokens) := by
  induction os generalizing tokens with
  | nil => exact .refl _
  | cons o os ih =>
    refine (ih (slotIn tokens o)).trans ?_
    exact ((slotIn_perm tokens o).append_left _).trans List.perm_middle

theorem foldl_slotIn_filter (h : ∀ o ∈ os, p (.reference o none) = false) :
    (os.foldl slotIn tokens).filter p = tokens.filter p := by
  induction os generalizing tokens with
  | nil => rfl
  | cons o os ih =>
    rw [List.foldl_cons, ih fun o' ho' => h o' (List.mem_cons_of_mem _ ho'),
      slotIn_filter (h o List.mem_cons_self)]

theorem foldl_slotIn_pairwise (h : (ordinals tokens).Pairwise (· < ·)) (hos : os.Nodup)
    (hn : ∀ o ∈ os, o ∉ ordinals tokens) :
    (ordinals (os.foldl slotIn tokens)).Pairwise (· < ·) := by
  induction os generalizing tokens with
  | nil => exact h
  | cons o os ih =>
    refine ih (slotIn_pairwise h (hn o List.mem_cons_self)) hos.of_cons ?_
    intro o' ho' hm
    rcases List.mem_cons.1 (((slotIn_perm tokens o).filterMap _).subset hm) with rfl | hm
    · exact (List.nodup_cons.1 hos).1 ho'
    · exact hn o' (List.mem_cons_of_mem _ ho') hm

/-! Dealing reference parameters out to places. -/

/-- There is one reference parameter for each place that holds one. -/
def Deals (places refs : List Token) : Prop :=
  refs.length = (ordinals places).length ∧ ∀ t ∈ refs, t.IsReference

theorem refill_ordinals (h : Deals places refs) :
    ordinals (refill places refs) = ordinals refs := by
  obtain ⟨hlen, href⟩ := h
  fun_induction refill places refs with
  | case1 o r places t refs ih =>
    obtain ⟨i, hi⟩ := Option.isSome_iff_exists.1 (href t List.mem_cons_self)
    have := ih (by simpa using hlen) fun t ht => href t (List.mem_cons_of_mem _ ht)
    rw [ordinals, List.filterMap_cons_some hi, ordinals, List.filterMap_cons_some hi]
    exact congrArg (i :: ·) this
  | case2 place places refs hplace ih =>
    cases place with
    | reference o r =>
      cases refs with
      | nil => simp at hlen
      | cons t refs => exact (hplace o r t refs rfl rfl).elim
    | inserted k t =>
      exact ih hlen href
  | case3 refs =>
    have : refs = [] := by simpa using hlen
    simp [this]

/-- Only reference parameters change places. -/
theorem refill_places (h : Deals places refs) (i : Nat) (v t : Token) (hv : places[i]? = some v)
    (ht : (refill places refs)[i]? = some t) (hne : v ≠ t) : v.IsReference ∧ t.IsReference := by
  obtain ⟨hlen, href⟩ := h
  fun_induction refill places refs generalizing i with
  | case1 o r places r' refs ih =>
    cases i with
    | zero =>
      cases hv
      cases ht
      exact ⟨rfl, href _ List.mem_cons_self⟩
    | succ i =>
      exact ih i hv ht (by simpa using hlen) fun t ht => href t (List.mem_cons_of_mem _ ht)
  | case2 place places refs hplace ih =>
    cases i with
    | zero =>
      cases hv
      cases ht
      exact (hne rfl).elim
    | succ i =>
      refine ih i hv ht ?_ href
      cases place with
      | reference o r =>
        cases refs with
        | nil => simp at hlen
        | cons t refs => exact (hplace o r t refs rfl rfl).elim
      | inserted k t => exact hlen
  | case3 => cases hv

theorem refill_perm (h : Deals places refs)
    (hp : refs.Perm (places.filter (·.ordinal?.isSome))) : (refill places refs).Perm places := by
  have split (ts : List Token) : ts.Perm
      (ts.filter (·.ordinal?.isSome) ++ ts.filter fun t => !t.ordinal?.isSome) :=
    (List.filter_append_perm _ ts).symm
  obtain ⟨hlen, href⟩ := h
  suffices hkeep : (refill places refs).filter (·.ordinal?.isSome) = refs ∧
      (refill places refs).filter (fun t => !t.ordinal?.isSome) =
        places.filter fun t => !t.ordinal?.isSome by
    refine (split _).trans (.trans ?_ (split places).symm)
    rw [hkeep.1, hkeep.2]
    exact hp.append_right _
  clear hp
  fun_induction refill places refs with
  | case1 o r places t refs ih =>
    have := ih (by simpa using hlen) fun t ht => href t (List.mem_cons_of_mem _ ht)
    have ht : t.ordinal?.isSome := href t List.mem_cons_self
    refine ⟨?_, ?_⟩
    · rw [List.filter_cons_of_pos (p := fun t : Token => t.ordinal?.isSome) ht, this.1]
    · rw [List.filter_cons_of_neg (p := fun t : Token => !t.ordinal?.isSome) (by simp [ht]), this.2]
      rfl
  | case2 place places refs hplace ih =>
    cases place with
    | reference o r =>
      cases refs with
      | nil => simp at hlen
      | cons t refs => exact (hplace o r t refs rfl rfl).elim
    | inserted k t => simpa [Token.ordinal?] using ih hlen href
  | case3 refs =>
    have : refs = [] := by simpa using hlen
    simp [this]

/-- Dealing out what the places hold changes nothing. -/
theorem refill_self (tokens : List Token) :
    refill tokens (tokens.filter (·.ordinal?.isSome)) = tokens := by
  induction tokens with
  | nil => rfl
  | cons t tokens ih =>
    cases t with
    | reference o r => exact congrArg (Token.reference o r :: ·) ih
    | inserted k t => exact congrArg (Token.inserted k t :: ·) ih

/-! The three lists of a script that was followed. -/

section

variable (h : tr.Sound n serial)
include h

theorem mem_withFate {q : Fate → Bool} :
    ordinal ∈ tr.withFate n q ↔ ∃ how, tr.fate? ordinal = some how ∧ q how = true := by
  simp only [withFate, List.mem_filter, List.mem_range, Option.any_eq_true]
  constructor
  · intro hm
    exact hm.2
  · rintro ⟨how, hf, hq⟩
    exact ⟨h.bound _ (h.fate_eq_some_iff.1 hf), how, hf, hq⟩

theorem ordinals_nodup : (ordinals tr.tokens).Nodup := by
  have := h.nodup
  rw [origins] at this
  generalize tr.tokens = tokens at this
  induction tokens with
  | nil => exact .nil
  | cons t tokens ih =>
    rw [List.map_cons, List.nodup_cons] at this
    cases t with
    | inserted => exact ih this.2
    | reference i r =>
      refine List.nodup_cons.2 ⟨fun hm => this.1 ?_, ih this.2⟩
      obtain ⟨r', hr⟩ := mem_ordinals.1 hm
      exact List.mem_map.2 ⟨_, hr, rfl⟩

theorem mem_ordinals_tokens :
    ordinal ∈ ordinals tr.tokens ↔ ordinal < n ∧ tr.fate? ordinal = none := by
  rw [← h.alive, mem_ordinals, origins, List.mem_map]
  constructor
  · rintro ⟨r, hr⟩
    exact ⟨_, hr, rfl⟩
  · rintro ⟨t, ht, ho⟩
    cases t <;> cases ho
    exact ⟨_, ht⟩

omit h in
theorem ordinals_beforeRemovals_perm : (ordinals (tr.beforeRemovals n)).Perm
    (tr.withFate n (!·.isSubstituted) ++ ordinals tr.tokens) := by
  refine ((foldl_slotIn_perm _ _).filterMap _).trans (.of_eq ?_)
  rw [List.filterMap_append, List.filterMap_map]
  congr 1
  exact List.filterMap_some

theorem ordinals_beforeRemovals_nodup : (ordinals (tr.beforeRemovals n)).Nodup := by
  rw [(ordinals_beforeRemovals_perm).nodup_iff]
  refine List.nodup_append.2 ⟨List.nodup_range.filter _, ordinals_nodup h, ?_⟩
  rintro i hi _ hj rfl
  obtain ⟨how, hf, -⟩ := (mem_withFate h).1 hi
  simp [((mem_ordinals_tokens h).1 hj).2] at hf

omit h in
theorem deals_beforeReorders : Deals (tr.beforeRemovals n)
    (((tr.beforeRemovals n).filter (·.ordinal?.isSome)).mergeSort
      fun r s => r.ordinal?.getD 0 ≤ s.ordinal?.getD 0) := by
  refine ⟨?_, fun t ht => ?_⟩
  · rw [(List.mergeSort_perm ..).length_eq]
    generalize tr.beforeRemovals n = places
    induction places with
    | nil => rfl
    | cons t places ih => cases t <;> simpa [Token.ordinal?] using ih
  · exact (List.mem_filter.1 ((List.mergeSort_perm ..).subset ht)).2

omit h in
theorem beforeReorders_perm : (tr.beforeReorders n).Perm (tr.beforeRemovals n) :=
  refill_perm (deals_beforeReorders) (List.mergeSort_perm ..)

theorem ordinals_beforeReorders_pairwise : (ordinals (tr.beforeReorders n)).Pairwise (· < ·) := by
  have hnodup : (ordinals (tr.beforeReorders n)).Nodup :=
    ((beforeReorders_perm).filterMap _).nodup_iff.2 (ordinals_beforeRemovals_nodup h)
  have hsorted : (ordinals (tr.beforeReorders n)).Pairwise (· ≤ ·) := by
    rw [beforeReorders, refill_ordinals (deals_beforeReorders)]
    refine (pairwise_mergeSort_key (fun t : Token => t.ordinal?.getD 0) _).filterMap _ ?_
    intro a b hab i hi j hj
    simpa [hi, hj] using hab
  refine (hsorted.and hnodup).imp ?_
  rintro i j ⟨hle, hne⟩
  exact Nat.lt_of_le_of_ne hle hne

omit h in
theorem ordinals_beforeReorders_perm : (ordinals (tr.beforeReorders n)).Perm
    (tr.withFate n (!·.isSubstituted) ++ ordinals tr.tokens) :=
  ((beforeReorders_perm).filterMap _).trans (ordinals_beforeRemovals_perm)

/-- After the insertions all reference parameters are there, in order. -/
theorem ordinals_afterInsertions : ordinals (tr.afterInsertions n) = List.range n := by
  have hdisjoint : ∀ i ∈ tr.withFate n (·.isSubstituted), i ∉ ordinals (tr.beforeReorders n) := by
    intro i hi hm
    obtain ⟨how, hf, hq⟩ := (mem_withFate h).1 hi
    rw [(ordinals_beforeReorders_perm).mem_iff, List.mem_append, mem_withFate h,
      mem_ordinals_tokens h] at hm
    rcases hm with ⟨how', hf', hq'⟩ | ⟨-, hf'⟩
    · rw [hf] at hf'
      cases hf'
      simp [hq] at hq'
    · simp [hf] at hf'
  have hpairwise : (ordinals (tr.afterInsertions n)).Pairwise (· < ·) :=
    foldl_slotIn_pairwise (ordinals_beforeReorders_pairwise h) (List.nodup_range.filter _) hdisjoint
  have hmem : ∀ i, i ∈ ordinals (tr.afterInsertions n) ↔ i ∈ List.range n := by
    intro i
    rw [afterInsertions, ordinals, ((foldl_slotIn_perm _ _).filterMap _).mem_iff,
      List.filterMap_append, List.filterMap_map, List.mem_append]
    change i ∈ List.filterMap some _ ∨ i ∈ ordinals (tr.beforeReorders n) ↔ _
    rw [List.filterMap_some, (ordinals_beforeReorders_perm).mem_iff, List.mem_append,
      mem_withFate h, mem_withFate h, mem_ordinals_tokens h, List.mem_range]
    constructor
    · rintro (⟨how, hf, -⟩ | ⟨how, hf, -⟩ | ⟨hi, -⟩)
      · exact h.bound _ (h.fate_eq_some_iff.1 hf)
      · exact h.bound _ (h.fate_eq_some_iff.1 hf)
      · exact hi
    · intro hi
      cases hf : tr.fate? i with
      | none => exact .inr (.inr ⟨hi, rfl⟩)
      | some how =>
        cases hq : how.isSubstituted with
        | true => exact .inl ⟨how, rfl, hq⟩
        | false => exact .inr (.inl ⟨how, rfl, by simp [hq]⟩)
  have hperm := (List.perm_ext_iff_of_nodup (hpairwise.imp Nat.ne_of_lt) List.nodup_range).2 hmem
  exact hperm.eq_of_pairwise (fun a b _ _ hab hba => absurd hab (Nat.lt_asymm hba)) hpairwise
    List.pairwise_lt_range

end

/-- A substituted reference parameter with what stands in for it. -/
def standIn (tr : Tracking) (t : Token) : Option (Nat × Origin) :=
  t.ordinal?.bind fun ordinal =>
    match tr.fate? ordinal with
    | some (.substituted source) => some (ordinal, source)
    | _ => none

/-- What `pick` makes of the fate of a reference parameter. -/
def fated {α : Type} (tr : Tracking) (pick : Fate → Option α) (t : Token) : Option α :=
  (t.ordinal?.bind tr.fate?).bind pick

def removedFate : Fate → Option Unit
  | .removed => some ()
  | _ => none

def inlinedFate : Fate → Option Nat
  | .inlined generator => some generator
  | _ => none

/-- Slotting parameters in behind a filter that drops them. -/
theorem passedOver_foldl_slotIn {α : Type} {pick : Token → Option α}
    (h : ∀ o ∈ os, pick (.reference o none) ≠ none) :
    passedOver pick (os.foldl slotIn tokens) = passedOver pick tokens := by
  refine foldl_slotIn_filter fun o ho => ?_
  simpa [Option.isNone_eq_false_iff, Option.isSome_iff_ne_none] using h o ho

theorem passedOver_eq_self {α : Type} {pick : Token → Option α}
    (h : ∀ t ∈ tokens, pick t = none) : passedOver pick tokens = tokens :=
  List.filter_eq_self.2 fun t ht => by simp [h t ht]

theorem Sound.fated_tokens {α : Type} (h : tr.Sound n serial) (pick : Fate → Option α) :
    ∀ t ∈ tr.tokens, tr.fated pick t = none := by
  intro t ht
  cases t with
  | inserted => rfl
  | reference i r =>
    have := ((mem_ordinals_tokens h).1 (mem_ordinals.2 ⟨r, ht⟩)).2
    simp [fated, Token.ordinal?, this]

theorem standIn_eq_some {t : Token} {o : Origin} :
    tr.standIn t = some (ordinal, o) ↔
      t.ordinal? = some ordinal ∧ tr.fate? ordinal = some (.substituted o) := by
  simp only [standIn, Option.bind_eq_some_iff]
  constructor
  · rintro ⟨i, hi, hs⟩
    split at hs
    · rename_i source hf
      cases hs
      exact ⟨hi, hf⟩
    · cases hs
  · rintro ⟨hi, hf⟩
    exact ⟨ordinal, hi, by simp [hf]⟩

theorem standIn_eq_none {t : Token} : tr.standIn t = none ↔
    ∀ ordinal o, t.ordinal? = some ordinal → tr.fate? ordinal ≠ some (.substituted o) := by
  rw [Option.eq_none_iff_forall_ne_some, Prod.forall]
  refine forall_congr' fun ordinal => forall_congr' fun o => ?_
  rw [ne_eq, standIn_eq_some, not_and]

theorem passedOver_afterInsertions (h : tr.Sound n serial) :
    passedOver tr.standIn (tr.afterInsertions n) = tr.beforeReorders n := by
  rw [afterInsertions, passedOver_foldl_slotIn, passedOver_eq_self]
  · intro t ht
    refine standIn_eq_none.2 fun i o hi hf => ?_
    have hmem := beforeReorders_perm.subset ht
    rw [beforeRemovals, (foldl_slotIn_perm _ _).mem_iff, List.mem_append] at hmem
    rcases hmem with hmem | hmem
    · obtain ⟨j, hj, rfl⟩ := List.mem_map.1 hmem
      obtain ⟨how, hf', hq⟩ := (mem_withFate h).1 hj
      cases hi
      rw [hf] at hf'
      cases hf'
      cases hq
    · have hm : i ∈ ordinals tr.tokens := List.mem_filterMap.2 ⟨t, hmem, hi⟩
      simp [((mem_ordinals_tokens h).1 hm).2] at hf
  · intro i hi hnone
    obtain ⟨how, hf, hq⟩ := (mem_withFate h).1 hi
    cases how with
    | substituted o => exact standIn_eq_none.1 hnone i o rfl hf
    | removed => cases hq
    | inlined => cases hq

theorem passedOver_beforeRemovals (h : tr.Sound n serial) :
    passedOver (tr.fated inlinedFate) (passedOver (tr.fated removedFate) (tr.beforeRemovals n)) =
      tr.tokens := by
  rw [passedOver, passedOver, List.filter_filter, beforeRemovals, foldl_slotIn_filter]
  · refine List.filter_eq_self.2 fun t ht => ?_
    simp [h.fated_tokens _ t ht]
  · intro i hi
    obtain ⟨how, hf, hq⟩ := (mem_withFate h).1 hi
    cases how <;>
      simp_all [fated, Token.ordinal?, removedFate, inlinedFate, Departure.isSubstituted]

end Tracking
end Reparam
