import Reparam.Proofs.Flatten.Agreement

/-! A script that is followed in the middle of a longer list of reference parameters. The tokens of
the middle are renumbered, and those in front of it and behind it stay where they are. -/
namespace Reparam

variable {n serial serial' ordinal d m first count : Nat} {s : Script} {e : Edit}
  {tr tr' : Tracking} {tokens tokens' pre post places refs : List Token} {t : Token} {o : Origin}
  {os : List Nat}

def Origin.offset (d : Nat) : Origin → Origin
  | reference ordinal => reference (ordinal + d)
  | inserted serial => inserted serial

theorem Origin.offset_injective (d : Nat) : Function.Injective (Origin.offset d) := by
  intro o o' h
  cases o <;> cases o' <;> simp_all [offset]

namespace Token

def offset (d : Nat) : Token → Token
  | reference ordinal retyped => reference (ordinal + d) retyped
  | inserted serial t => inserted serial t

theorem offset_injective (d : Nat) : Function.Injective (offset d) := by
  intro t t' h
  cases t <;> cases t' <;> simp_all [offset]

@[simp] theorem origin_offset (d : Nat) (t : Token) : (t.offset d).origin = t.origin.offset d := by
  cases t <;> rfl

@[simp] theorem ordinal_offset (d : Nat) (t : Token) :
    (t.offset d).ordinal? = t.ordinal?.map (· + d) := by
  cases t <;> rfl

end Token

/-- Reference parameters that no edit has touched, in order. -/
def references (first count : Nat) : List Token :=
  (List.range' first count).map (.reference · none)

@[simp] theorem length_references : (references first count).length = count := by simp [references]

theorem mem_references : t ∈ references first count →
    ∃ i, t = .reference i none ∧ first ≤ i ∧ i < first + count := by
  intro h
  obtain ⟨i, hi, rfl⟩ := List.mem_map.1 h
  exact ⟨i, rfl, List.mem_range'_1.1 hi⟩

theorem ordinals_references : ordinals (references first count) = List.range' first count := by
  rw [ordinals, references, List.filterMap_map]
  exact List.filterMap_some

/-- Some tokens in the middle of untouched parameters, with as many of their own as are given. -/
def framed (d n m : Nat) (tokens : List Token) : List Token :=
  references 0 d ++ tokens.map (.offset d) ++ references (d + n) m

theorem ordinals_offset (d : Nat) (tokens : List Token) :
    ordinals (tokens.map (.offset d)) = (ordinals tokens).map (· + d) := by
  rw [ordinals, List.filterMap_map, ordinals, List.map_filterMap]
  exact List.filterMap_congr fun t _ => t.ordinal_offset d

theorem ordinals_framed (tokens : List Token) : ordinals (framed d n m tokens) =
    List.range' 0 d ++ (ordinals tokens).map (· + d) ++ List.range' (d + n) m := by
  rw [framed, ordinals, List.filterMap_append, List.filterMap_append]
  change ordinals _ ++ ordinals _ ++ ordinals _ = _
  rw [ordinals_references, ordinals_references, ordinals_offset]

theorem framed_perm (h : tokens.Perm tokens') : (framed d n m tokens).Perm (framed d n m tokens') :=
  ((h.map _).append_left _).append_right _

theorem ordinals_framed_pairwise (h : (ordinals tokens).Pairwise (· < ·))
    (hn : ∀ i ∈ ordinals tokens, i < n) : (ordinals (framed d n m tokens)).Pairwise (· < ·) := by
  rw [ordinals_framed]
  refine List.pairwise_append.2 ⟨List.pairwise_append.2 ⟨List.pairwise_lt_range', ?_, ?_⟩,
    List.pairwise_lt_range', ?_⟩
  · exact List.pairwise_map.2 (h.imp fun hlt => Nat.add_lt_add_right hlt d)
  · intro i hi j hj
    obtain ⟨k, -, rfl⟩ := List.mem_map.1 hj
    have := (List.mem_range'_1.1 hi).2
    omega
  · intro i hi j hj
    have hle := (List.mem_range'_1.1 hj).1
    rcases List.mem_append.1 hi with hi | hi
    · have := (List.mem_range'_1.1 hi).2
      omega
    · obtain ⟨k, hk, rfl⟩ := List.mem_map.1 hi
      have := hn k hk
      omega

theorem isReference_references : ∀ t ∈ references first count, t.IsReference := by
  intro t ht
  obtain ⟨i, rfl, -⟩ := mem_references ht
  rfl

/-- What is so of all parameters around, and of one in the middle as it was before. -/
theorem filter_framed {p p' : Token → Bool} (hp : ∀ t, p' (t.offset d) = p t)
    (hout : ∀ i, i < d ∨ d + n ≤ i → p' (.reference i none) = true) (tokens : List Token) :
    (framed d n m tokens).filter p' = framed d n m (tokens.filter p) := by
  have hkeep {first count : Nat} (h : ∀ i, first ≤ i → i < first + count → i < d ∨ d + n ≤ i) :
      (references first count).filter p' = references first count := by
    refine List.filter_eq_self.2 fun t ht => ?_
    obtain ⟨i, rfl, hle, hlt⟩ := mem_references ht
    exact hout i (h i hle hlt)
  have hmiddle : tokens.filter (p' ∘ Token.offset d) = tokens.filter p :=
    List.filter_congr fun t _ => hp t
  rw [framed, List.filter_append, List.filter_append, hkeep (by omega), hkeep (by omega),
    List.filter_map, hmiddle, framed]

namespace Tracking

/-- What was tracked in the middle of a longer list. -/
def framed (d n m : Nat) (tr : Tracking) : Tracking where
  tokens := Reparam.framed d n m tr.tokens
  fates := tr.fates.map fun p => (p.1 + d, p.2.map (Origin.offset d))

theorem range_framed (d n m : Nat) : List.range (d + n + m) =
    List.range' 0 d ++ (List.range n).map (· + d) ++ List.range' (d + n) m := by
  have hshift (k : Nat) : (List.range k).map (· + d) = (List.range k).map (d + ·) :=
    List.map_congr_left fun i _ => Nat.add_comm i d
  rw [List.range_add, List.range_add, hshift, List.range_eq_range', ← List.range'_eq_map_range,
    ← List.range'_eq_map_range]

theorem initial_framed (d n m : Nat) : (initial n).framed d n m = initial (d + n + m) := by
  simp only [framed, initial, Reparam.framed, List.map_nil, range_framed, List.map_append,
    List.map_map]
  rfl

theorem follow_cons (tr : Tracking)
    (h : e.Step (.inserted serial) Token.retype tr.tokens tokens) :
    follow serial (e :: s) tr =
      follow (serial + 1) s { tr.noteDeparture (e.departure? tr.tokens) with tokens } := by
  simp only [follow, h.apply_eq]

theorem framed_noteDeparture (gone : Option (Token × Departure Token)) (tokens : List Token) :
    { tr.noteDeparture gone with tokens }.framed d n m =
      { (tr.framed d n m).noteDeparture
          (gone.map fun p => (p.1.offset d, p.2.map (Token.offset d))) with
        tokens := Reparam.framed d n m tokens } := by
  obtain _ | ⟨⟨i, r⟩ | ⟨k, t⟩, how⟩ := gone
  · rfl
  · have hself : (Token.reference i r).offset d = .reference (i + d) r := rfl
    cases how <;> simp [noteDeparture, framed, hself, Departure.map, Departure.toFate]
  · rfl

theorem step_offset (d : Nat) (h : e.Step (.inserted serial) Token.retype tokens tokens') :
    e.Step (.inserted serial) Token.retype (tokens.map (.offset d)) (tokens'.map (.offset d)) :=
  h.map (fun _ => rfl) fun t x => by cases x <;> rfl

theorem step_framed (h : e.Step (.inserted serial) Token.retype tokens tokens') :
    (e.offset d).Step (.inserted serial) Token.retype (Reparam.framed d n m tokens)
      (Reparam.framed d n m tokens') := by
  have hframe := (step_offset d h).frame (references 0 d) (references (d + n) m)
  rwa [length_references] at hframe

theorem departure_framed (h : e.Step (.inserted serial) Token.retype tokens tokens') :
    (e.offset d).departure? (Reparam.framed d n m tokens) =
      (e.departure? tokens).map fun p => (p.1.offset d, p.2.map (Token.offset d)) := by
  have hframe := (step_offset d h).departure_frame (references 0 d) (references (d + n) m)
  rwa [length_references, Edit.departure_map] at hframe

/-- In the middle of a longer list a script leads to what it leads to on its own. -/
theorem follow_framed (d n m : Nat) (h : follow serial s tr = .ok tr') :
    follow serial (s.map (·.offset d)) (tr.framed d n m) = .ok (tr'.framed d n m) := by
  induction s generalizing serial tr with
  | nil =>
    cases h
    rfl
  | cons e rest ih =>
    obtain ⟨tokens, he, hr⟩ := follow_cons_ok h
    rw [List.map_cons, follow_cons (tr.framed d n m) (step_framed he)]
    have hrest := ih hr
    rw [framed_noteDeparture, ← departure_framed he] at hrest
    exact hrest

theorem reached_framed (d m : Nat) (h : follow 0 s (initial n) = .ok tr) :
    Reached (s.map (·.offset d)) (d + n + m) (tr.framed d n m) := by
  refine reached_of_follow ?_
  rw [← initial_framed]
  exact follow_framed d n m h

/-! Fates. -/

theorem fate_framed (tr : Tracking) (ordinal : Nat) :
    (tr.framed d n m).fate? (ordinal + d) =
      (tr.fate? ordinal).map (Departure.map (Origin.offset d)) := by
  rw [fate?, fate?, framed]
  induction tr.fates with
  | nil => rfl
  | cons p fates ih =>
    have hkey : (ordinal + d == p.1 + d) = (ordinal == p.1) := by
      rw [Bool.eq_iff_iff]
      simp
    rw [List.map_cons, List.lookup_cons, List.lookup_cons, hkey]
    split
    · rfl
    · exact ih

/-- Nothing becomes of the parameters around. -/
theorem Sound.fate_framed_none (h : tr.Sound n serial) (ho : ordinal < d ∨ d + n ≤ ordinal) :
    (tr.framed d n m).fate? ordinal = none := by
  refine fate_none_iff.2 fun p hp => ?_
  obtain ⟨q, hq, rfl⟩ := List.mem_map.1 hp
  have hbound := h.bound q hq
  simp only
  omega

theorem withFate_framed (h : tr.Sound n serial) {q : Fate → Bool}
    (hq : ∀ how : Fate, q (how.map (Origin.offset d)) = q how) :
    (tr.framed d n m).withFate (d + n + m) q = (tr.withFate n q).map (· + d) := by
  have hnone {first count : Nat} (hout : ∀ i, first ≤ i → i < first + count → i < d ∨ d + n ≤ i) :
      (List.range' first count).filter (fun i => ((tr.framed d n m).fate? i).any q) = [] := by
    refine List.filter_eq_nil_iff.2 fun i hi => ?_
    obtain ⟨hle, hlt⟩ := List.mem_range'_1.1 hi
    simp [h.fate_framed_none (hout i hle hlt)]
  rw [withFate, withFate, range_framed, List.filter_append, List.filter_append,
    hnone (by omega), hnone (by omega), List.nil_append, List.append_nil, List.filter_map]
  refine congrArg (List.map _) (List.filter_congr fun i _ => ?_)
  rw [Function.comp_apply, fate_framed]
  cases tr.fate? i with
  | none => rfl
  | some how => exact hq how

/-! Slotting parameters in. -/

theorem slotIn_append_left (h : ∀ t ∈ pre, ∀ i, t.ordinal? = some i → i ≤ ordinal) :
    slotIn (pre ++ tokens) ordinal = pre ++ slotIn tokens ordinal := by
  induction pre with
  | nil => rfl
  | cons t pre ih =>
    have hnot : ¬ t.ordinal?.any (ordinal < ·) := by
      rw [Option.any_eq_true]
      rintro ⟨i, hi, hlt⟩
      have hle := h t List.mem_cons_self i hi
      have hlt := of_decide_eq_true hlt
      omega
    rw [List.cons_append, slotIn_cons, if_neg hnot, ih fun u hu => h u (List.mem_cons_of_mem _ hu)]
    rfl

theorem slotIn_append_right (h : ∀ t ∈ post, ∃ i, t.ordinal? = some i ∧ ordinal < i) :
    slotIn (tokens ++ post) ordinal = slotIn tokens ordinal ++ post := by
  induction tokens with
  | nil =>
    cases post with
    | nil => rfl
    | cons t post =>
      obtain ⟨i, hi, hlt⟩ := h t List.mem_cons_self
      rw [List.nil_append, slotIn_cons, if_pos (by simp [hi, hlt])]
      rfl
  | cons t tokens ih =>
    rw [List.cons_append, slotIn_cons, slotIn_cons, ih]
    split <;> rfl

theorem slotIn_offset (d : Nat) (tokens : List Token) (ordinal : Nat) :
    slotIn (tokens.map (.offset d)) (ordinal + d) = (slotIn tokens ordinal).map (.offset d) := by
  induction tokens with
  | nil => rfl
  | cons t tokens ih =>
    have hlarger : (t.offset d).ordinal?.any (ordinal + d < ·) = t.ordinal?.any (ordinal < ·) := by
      rw [Token.ordinal_offset]
      cases t.ordinal? <;> simp
    rw [List.map_cons, slotIn_cons, slotIn_cons, hlarger, ih]
    split <;> rfl

/-- A parameter of the middle is slotted in there. -/
theorem slotIn_framed (ho : ordinal < n) : slotIn (Reparam.framed d n m tokens) (ordinal + d) =
    Reparam.framed d n m (slotIn tokens ordinal) := by
  have hpre : ∀ t ∈ references 0 d, ∀ i, t.ordinal? = some i → i ≤ ordinal + d := by
    intro t ht i hi
    obtain ⟨j, rfl, -, hj⟩ := mem_references ht
    cases hi
    omega
  have hpost : ∀ t ∈ references (d + n) m, ∃ i, t.ordinal? = some i ∧ ordinal + d < i := by
    intro t ht
    obtain ⟨j, rfl, hj, -⟩ := mem_references ht
    exact ⟨j, rfl, by omega⟩
  rw [Reparam.framed, slotIn_append_right hpost, slotIn_append_left hpre, slotIn_offset]
  rfl

theorem foldl_slotIn_framed (hos : ∀ o ∈ os, o < n) :
    (os.map (· + d)).foldl slotIn (Reparam.framed d n m tokens) =
      Reparam.framed d n m (os.foldl slotIn tokens) := by
  induction os generalizing tokens with
  | nil => rfl
  | cons o os ih =>
    rw [List.map_cons, List.foldl_cons, slotIn_framed (hos o List.mem_cons_self)]
    exact ih fun o' ho' => hos o' (List.mem_cons_of_mem _ ho')

theorem withFate_lt {q : Fate → Bool} : ∀ i ∈ tr.withFate n q, i < n :=
  fun _ hi => List.mem_range.1 (List.mem_filter.1 hi).1

theorem beforeRemovals_framed (h : tr.Sound n serial) :
    (tr.framed d n m).beforeRemovals (d + n + m) =
      Reparam.framed d n m (tr.beforeRemovals n) := by
  rw [beforeRemovals, withFate_framed h fun how => by cases how <;> rfl]
  exact foldl_slotIn_framed withFate_lt

/-! Dealing reference parameters out. -/

theorem deals_self (h : ∀ t ∈ refs, t.IsReference) : Deals refs refs :=
  ⟨(List.filterMap_length_eq_length.2 h).symm, h⟩

theorem refill_references (h : ∀ t ∈ refs, t.IsReference) : refill refs refs = refs := by
  have hself := refill_self refs
  rwa [List.filter_eq_self.2 h] at hself

theorem refill_append (h : Deals places refs) (places' refs' : List Token) :
    refill (places ++ places') (refs ++ refs') = refill places refs ++ refill places' refs' := by
  obtain ⟨hlen, href⟩ := h
  fun_induction refill places refs with
  | case1 o r places t refs ih =>
    have hrest := ih (by simpa using hlen) fun t ht => href t (List.mem_cons_of_mem _ ht)
    rw [List.cons_append, List.cons_append, refill, hrest, List.cons_append]
  | case2 place places refs hplace ih =>
    cases place with
    | reference o r =>
      cases refs with
      | nil => simp at hlen
      | cons t refs => exact (hplace o r t refs rfl rfl).elim
    | inserted k t => exact congrArg (Token.inserted k t :: ·) (ih hlen href)
  | case3 refs =>
    have : refs = [] := by simpa using hlen
    rw [this]
    rfl

theorem refill_offset (d : Nat) (places refs : List Token) :
    refill (places.map (.offset d)) (refs.map (.offset d)) =
      (refill places refs).map (.offset d) := by
  induction places generalizing refs with
  | nil => rfl
  | cons place places ih =>
    cases place with
    | inserted k t => exact congrArg (Token.inserted k t :: ·) (ih refs)
    | reference o r =>
      cases refs with
      | nil => exact congrArg (Token.reference (o + d) r :: ·) (ih [])
      | cons t refs => exact congrArg (t.offset d :: ·) (ih refs)

/-- Parameters of the middle are dealt out there. -/
theorem refill_framed (h : Deals places refs) :
    refill (Reparam.framed d n m places) (Reparam.framed d n m refs) =
      Reparam.framed d n m (refill places refs) := by
  have hmiddle : Deals (places.map (.offset d)) (refs.map (.offset d)) := by
    refine ⟨by simpa [ordinals_offset] using h.1, fun t ht => ?_⟩
    obtain ⟨u, hu, rfl⟩ := List.mem_map.1 ht
    simpa [Token.IsReference] using h.2 u hu
  rw [Reparam.framed, Reparam.framed, List.append_assoc, List.append_assoc,
    refill_append (deals_self isReference_references), refill_append hmiddle, refill_offset,
    refill_references isReference_references, refill_references isReference_references,
    ← List.append_assoc]
  rfl

/-! Sorting reference parameters. -/

/-- Sorted lists of the same parameters are the same. -/
theorem eq_of_sorted {refs' : List Token} (hperm : refs.Perm refs')
    (href : ∀ t ∈ refs, t.IsReference) (hs : (ordinals refs).Pairwise (· < ·))
    (hs' : (ordinals refs').Pairwise (· < ·)) : refs = refs' := by
  refine hperm.eq_of_pairwise (fun t u ht hu htu hut => ?_) (List.pairwise_filterMap.1 hs)
    (List.pairwise_filterMap.1 hs')
  obtain ⟨i, hi⟩ := Option.isSome_iff_exists.1 (href t ht)
  obtain ⟨j, hj⟩ := Option.isSome_iff_exists.1 (href u (hperm.symm.subset hu))
  exact absurd (htu i hi j hj) (Nat.lt_asymm (hut j hj i hi))

/-- The reference parameters that are dealt out before reordering. -/
def dealt (tr : Tracking) (n : Nat) : List Token :=
  ((tr.beforeRemovals n).filter (·.ordinal?.isSome)).mergeSort
    fun r s => r.ordinal?.getD 0 ≤ s.ordinal?.getD 0

theorem beforeReorders_eq (tr : Tracking) (n : Nat) :
    tr.beforeReorders n = refill (tr.beforeRemovals n) (tr.dealt n) := rfl

theorem deals_dealt (tr : Tracking) (n : Nat) : Deals (tr.beforeRemovals n) (tr.dealt n) :=
  deals_beforeReorders

theorem ordinals_beforeReorders (tr : Tracking) (n : Nat) :
    ordinals (tr.beforeReorders n) = ordinals (tr.dealt n) := refill_ordinals (deals_dealt tr n)

theorem Sound.lt_of_mem_beforeReorders (h : tr.Sound n serial)
    (hm : ordinal ∈ ordinals (tr.beforeReorders n)) : ordinal < n := by
  rcases List.mem_append.1 (ordinals_beforeReorders_perm.subset hm) with hm | hm
  · exact withFate_lt _ hm
  · exact ((mem_ordinals_tokens h).1 hm).1

theorem dealt_framed (h : tr.Sound n serial)
    (h' : (tr.framed d n m).Sound (d + n + m) serial') :
    (tr.framed d n m).dealt (d + n + m) = Reparam.framed d n m (tr.dealt n) := by
  have hfilter := @filter_framed n d m (fun t => t.ordinal?.isSome) (fun t => t.ordinal?.isSome)
    (fun t => by simp) (fun _ _ => rfl) (tr.beforeRemovals n)
  -- both sides ascend, so it is enough that they are the same parameters
  refine eq_of_sorted ?_ (deals_dealt ..).2 ?_ ?_
  · rw [dealt, beforeRemovals_framed h, hfilter]
    exact (List.mergeSort_perm ..).trans (framed_perm (List.mergeSort_perm ..).symm)
  · rw [← ordinals_beforeReorders]
    exact ordinals_beforeReorders_pairwise h'
  · refine ordinals_framed_pairwise ?_ fun i hi => h.lt_of_mem_beforeReorders ?_
    · rw [← ordinals_beforeReorders]
      exact ordinals_beforeReorders_pairwise h
    · rwa [ordinals_beforeReorders]

theorem beforeReorders_framed (h : tr.Sound n serial)
    (h' : (tr.framed d n m).Sound (d + n + m) serial') :
    (tr.framed d n m).beforeReorders (d + n + m) =
      Reparam.framed d n m (tr.beforeReorders n) := by
  rw [beforeReorders_eq, beforeReorders_eq, dealt_framed h h', beforeRemovals_framed h,
    refill_framed (deals_dealt tr n)]

theorem afterInsertions_framed (h : tr.Sound n serial)
    (h' : (tr.framed d n m).Sound (d + n + m) serial') :
    (tr.framed d n m).afterInsertions (d + n + m) =
      Reparam.framed d n m (tr.afterInsertions n) := by
  rw [afterInsertions, withFate_framed h fun how => by cases how <;> rfl,
    beforeReorders_framed h h']
  exact foldl_slotIn_framed withFate_lt

end Tracking
end Reparam
