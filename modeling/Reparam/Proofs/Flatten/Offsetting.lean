import Reparam.Proofs.Flatten.Merging
import Reparam.Proofs.Flatten.Framed

/-! Flattening a script that was moved back gives the flat script moved back: what is read off the
tokens in the middle of a longer list is what is read off them alone, further back. -/
namespace Reparam

variable {β : Type} {n serial serial' ordinal d m : Nat} {s : Script} {tr : Tracking}
  {f : FlatScript} {tokens wanted current : List Token} {names : List Nat} {o : Origin}
  {pairs : List (Nat × Nat)}

theorem located_framed {pick pick' : Token → Option β} (hp : ∀ t, pick' (t.offset d) = pick t)
    (hout : ∀ i, i < d ∨ d + n ≤ i → pick' (.reference i none) = none) (tokens : List Token) :
    located pick' 0 (framed d n m tokens) =
      (located pick 0 tokens).map fun p => (p.1 + d, p.2) := by
  have hnone {first count : Nat} (h : ∀ i, first ≤ i → i < first + count → i < d ∨ d + n ≤ i) :
      ∀ t ∈ references first count, pick' t = none := by
    intro t ht
    obtain ⟨i, rfl, hle, hlt⟩ := mem_references ht
    exact hout i (h i hle hlt)
  rw [framed, located_append, located_append, located_eq_nil (hnone (by omega)),
    located_eq_nil (hnone (by omega)), List.nil_append, List.append_nil, length_references,
    located_map hp, located_shift]

/-! Settling in the middle of a longer list. -/

namespace Tracking

theorem settle_self (tokens : List Token) (names : List Nat) : settle tokens tokens names = [] := by
  induction tokens generalizing names with
  | nil => simp [settle]
  | cons t tokens ih =>
    cases names with
    | nil => simp [settle]
    | cons name names => rw [settle, if_pos rfl, ih]

/-- What is the same in front is left alone. -/
theorem settle_behind (pre : List Token) {front : List Nat} (h : front.length = pre.length) :
    settle (pre ++ wanted) (pre ++ current) (front ++ names) = settle wanted current names := by
  induction pre generalizing front with
  | nil => rw [List.length_eq_zero_iff.1 h, List.nil_append, List.nil_append, List.nil_append]
  | cons t pre ih =>
    cases front with
    | nil => cases h
    | cons name front =>
      rw [List.cons_append, List.cons_append, List.cons_append, settle, if_pos rfl]
      exact ih (Nat.succ_inj.1 h)

/-- What is the same behind does not matter. -/
theorem settle_before (post : List Token) (back : List Nat) (h : current.Perm wanted)
    (hnames : names.length = current.length) :
    settle (wanted ++ post) (current ++ post) (names ++ back) = settle wanted current names := by
  induction wanted generalizing current names with
  | nil =>
    have hcurrent := h.eq_nil
    subst hcurrent
    rw [List.nil_append, settle_self, settle_self]
  | cons w wanted ih =>
    obtain _ | ⟨c, current⟩ := current
    · exact absurd h.symm.eq_nil (by simp)
    obtain _ | ⟨name, names⟩ := names
    · exact absurd hnames (by simp)
    have hnames : names.length = current.length := Nat.succ_inj.1 hnames
    rw [List.cons_append, List.cons_append, List.cons_append]
    by_cases hcw : c = w
    · subst hcw
      rw [settle, settle, if_pos rfl, if_pos rfl, ih ((List.perm_cons c).1 h) hnames]
    · -- what is wanted is found before the end is reached, and nothing behind it moves
      obtain ⟨j, hfind, hj⟩ := exists_findIdx h hcw
      obtain ⟨hlt, -⟩ := List.getElem?_eq_some_iff.1 hj
      have hwanted : current.length = wanted.length := Nat.succ_inj.1 h.length_eq
      have hfind' : (current ++ post).findIdx? (· = w) = some j := by
        rw [List.findIdx?_append, hfind]
        rfl
      have hother : (names ++ back).getD j maxIndex = names.getD j maxIndex := by
        rw [List.getD_eq_getElem?_getD, List.getD_eq_getElem?_getD,
          List.getElem?_append_left (by omega)]
      simp only [settle, if_neg hcw, hfind, hfind', hother,
        List.take_append_of_le_length (Nat.succ_le_of_lt hlt),
        List.getElem?_append_left (hwanted ▸ hlt), List.eraseIdx_append_of_lt_length hlt,
        List.set_append_left _ _ hlt]
      split
      · have hlength := (perm_of_move h hj).length_eq
        rw [← List.cons_append, ih (perm_of_move h hj) (by omega)]
      · rw [ih (perm_of_swap h hj) (by rw [List.length_set, hnames])]

/-- Other tokens under other names trade places in the same way. -/
theorem settle_map {φ : Token → Token} {g : Nat → Nat} (hφ : Function.Injective φ)
    (hordinal : ∀ t, (φ t).ordinal?.isSome = t.ordinal?.isSome) (hg : g maxIndex = maxIndex)
    (wanted current : List Token) (names : List Nat) :
    settle (wanted.map φ) (current.map φ) (names.map g) =
      (settle wanted current names).map (·.mapIndices g) := by
  induction wanted generalizing current names with
  | nil => rfl
  | cons w wanted ih =>
    cases current with
    | nil => rfl
    | cons c current =>
      cases names with
      | nil => rfl
      | cons name names =>
        simp only [List.map_cons]
        by_cases hcw : c = w
        · rw [settle, settle, if_pos hcw, if_pos (congrArg φ hcw), ih]
        · have hfind : (current.map φ).findIdx? (· = φ w) = current.findIdx? (· = w) := by
            rw [List.findIdx?_map]
            exact congrArg (current.findIdx? ·) (funext fun t => by simp [hφ.eq_iff])
          rw [settle, settle, if_neg hcw, if_neg (hφ.ne hcw), hfind]
          cases current.findIdx? (· = w) with
          | none => exact ih current names
          | some j =>
            have hother : (names.map g).getD j maxIndex = g (names.getD j maxIndex) := by
              rw [List.getD_eq_getElem?_getD, List.getD_eq_getElem?_getD, List.getElem?_map]
              cases names[j]? <;> simp [hg]
            have hcontiguous : (φ c :: (current.map φ).take (j + 1)).all (·.ordinal?.isSome) =
                (c :: current.take (j + 1)).all (·.ordinal?.isSome) := by
              rw [← List.map_take, ← List.map_cons, List.all_map]
              exact congrArg (List.all _ ·) (funext hordinal)
            have hnext : (wanted.map φ)[j]? ≠ some (φ c) ↔ wanted[j]? ≠ some c := by
              rw [List.getElem?_map, ← Option.map_some, (Option.map_injective hφ).ne_iff]
            simp only [hother, hcontiguous, hnext]
            -- the same test decides between a move and a swap on both sides
            split
            · rw [List.eraseIdx_map, ← List.map_cons, ih]
              rfl
            · rw [← List.map_set, ih]
              rfl

/-- What reorders call a place once it is in the middle of a longer list. Those of inserted parameters
are called by the largest index wherever they are. -/
def renamed (d name : Nat) : Nat := if name = maxIndex then maxIndex else name + d

theorem renamed_of_lt {name : Nat} (h : name < maxIndex) : renamed d name = name + d :=
  if_neg (Nat.ne_of_lt h)

theorem Sound.names_offset (h : tr.Sound n serial) (hn : n ≤ maxIndex) :
    ((tr.beforeReorders n).map (Token.offset d)).map (fun t => t.ordinal?.getD maxIndex) =
      ((tr.beforeReorders n).map fun t => t.ordinal?.getD maxIndex).map (renamed d) := by
  rw [List.map_map, List.map_map]
  refine List.map_congr_left fun t ht => ?_
  cases t with
  | inserted k t =>
    have hmax : renamed d maxIndex = maxIndex := if_pos rfl
    exact hmax.symm
  | reference i r =>
    have hi := h.lt_of_mem_beforeReorders (mem_ordinals.2 ⟨r, ht⟩)
    have hname : renamed d i = i + d := renamed_of_lt (by omega)
    exact hname.symm

/-- In the middle of a longer list the same swaps and moves settle the parameters. -/
theorem reorders_framed (h : tr.Sound n serial)
    (h' : (tr.framed d n m).Sound (d + n + m) serial') (hn : n ≤ maxIndex)
    (hnamed : ∀ r ∈ tr.reorders n, r.All (· < n)) :
    (tr.framed d n m).reorders (d + n + m) = (tr.reorders n).map (·.offset d) := by
  have hmap := @settle_map (Token.offset d) (renamed d) (Token.offset_injective d)
    (fun t => by simp) (if_pos rfl) (tr.beforeRemovals n) (tr.beforeReorders n)
      ((tr.beforeReorders n).map fun t => t.ordinal?.getD maxIndex)
  simp only [reorders]
  rw [beforeRemovals_framed h, beforeReorders_framed h h', Reparam.framed, Reparam.framed,
    List.map_append, List.map_append, settle_before _ _ _ (by simp), settle_behind _ (by simp),
    h.names_offset hn, hmap]
  · refine List.map_congr_left fun r hr => Reorder.All.mapIndices_congr ((hnamed r hr).imp ?_)
    intro i hi
    exact renamed_of_lt (by omega)
  · exact (beforeReorders_perm.map _).append_left _

/-! Substitutions. -/

theorem finalSource_framed (steps : Nat) (o : Origin) :
    (tr.framed d n m).finalSource steps (o.offset d) = (tr.finalSource steps o).offset d := by
  induction steps generalizing o with
  | zero => rfl
  | succ steps ih =>
    cases o with
    | inserted k => rfl
    | reference i =>
      change (tr.framed d n m).finalSource (steps + 1) (.reference (i + d)) = _
      rw [finalSource, finalSource, fate_framed]
      cases hf : tr.fate? i with
      | none => rfl
      | some how =>
        cases how with
        | substituted further => exact ih further
        | removed => rfl
        | inlined => rfl

/-- More steps than there are reference parameters lead no further. -/
theorem Reached.finalSource_eq (h : Reached s n tr) {steps : Nat} (hn : n ≤ steps) (o : Origin) :
    tr.finalSource steps o = tr.finalSource n o :=
  h.leadsTo_unique (h.leadsTo_finalSource steps o fun _ _ hi =>
    Nat.lt_of_lt_of_le (h.sound.age_lt hi) hn) (h.leadsTo_iff.2 rfl)

theorem findIdx_framed {i : Nat} (h : tokens.findIdx? (·.origin = o) = some i) :
    (Reparam.framed d n m tokens).findIdx? (·.origin = o.offset d) = some (i + d) := by
  have hpre : (references 0 d).findIdx? (·.origin = o.offset d) = none := by
    rw [List.findIdx?_eq_none_iff]
    intro t ht
    obtain ⟨j, rfl, -, hj⟩ := mem_references ht
    cases o with
    | inserted k => simp [Token.origin, Origin.offset]
    | reference k =>
      simp [Token.origin, Origin.offset]
      omega
  have hmiddle : (tokens.map (Token.offset d)).findIdx? (·.origin = o.offset d) = some i := by
    rw [List.findIdx?_map, ← h]
    exact congrArg (tokens.findIdx? ·) (funext fun t => by
      simp [(Origin.offset_injective d).eq_iff])
  rw [Reparam.framed, List.findIdx?_append, List.findIdx?_append, hpre, hmiddle, length_references]
  rfl

theorem substitution_framed (h : Reached s n tr)
    (h' : (tr.framed d n m).Sound (d + n + m) serial') {p : Nat × Nat}
    (hp : tr.substitution n ordinal o = .ok p) :
    (tr.framed d n m).substitution (d + n + m) (ordinal + d) (o.offset d) =
      .ok (p.1 + d, p.2 + d) := by
  have hfinal : (tr.framed d n m).finalSource (d + n + m) (o.offset d) =
      (tr.finalSource n o).offset d := by
    rw [finalSource_framed, h.finalSource_eq (by omega)]
  simp only [substitution] at hp ⊢
  split at hp
  · rename_i target found htarget hfound
    split at hp
    · cases hp
    · rename_i hne
      cases hp
      have htarget' : (Reparam.framed d n m (tr.afterInsertions n)).findIdx?
          (·.origin = .reference (ordinal + d)) = some (target + d) := findIdx_framed htarget
      have hfound' : (Reparam.framed d n m (tr.afterInsertions n)).findIdx?
          (·.origin = (tr.finalSource n o).offset d) = some (found + d) := findIdx_framed hfound
      simp only [afterInsertions_framed h.sound h', hfinal, htarget', hfound']
      exact if_neg (by omega)
  · cases hp

theorem substitutions_framed (h : Reached s n tr)
    (h' : (tr.framed d n m).Sound (d + n + m) serial') (hp : tr.substitutions n = .ok pairs) :
    (tr.framed d n m).substitutions (d + n + m) =
      .ok (pairs.map fun p => (p.1 + d, p.2 + d)) := by
  rw [substitutions, mapM_eq_ok_iff] at hp
  rw [substitutions, withFate_framed h.sound fun how => by cases how <;> rfl, ← List.map_reverse,
    mapM_eq_ok_iff, List.forall₂_map_left_iff, List.forall₂_map_right_iff]
  refine hp.imp fun ordinal p hp => ?_
  rw [fate_framed]
  split at hp
  · rename_i source hfate
    rw [hfate]
    exact substitution_framed h h' hp
  · cases hp

/-! The flat script. -/

theorem fated_offset {pick : Fate → Option β} (hpick : ∀ how : Fate,
    pick (how.map (Origin.offset d)) = pick how) (t : Token) :
    (tr.framed d n m).fated pick (t.offset d) = tr.fated pick t := by
  cases t with
  | inserted k t => rfl
  | reference i r =>
    change ((tr.framed d n m).fate? (i + d)).bind pick = (tr.fate? i).bind pick
    rw [fate_framed]
    cases tr.fate? i with
    | none => rfl
    | some how => exact hpick how

theorem Sound.fated_around (h : tr.Sound n serial) (pick : Fate → Option β)
    (ho : ordinal < d ∨ d + n ≤ ordinal) :
    (tr.framed d n m).fated pick (.reference ordinal none) = none := by
  change ((tr.framed d n m).fate? ordinal).bind pick = none
  rw [h.fate_framed_none ho]
  rfl

theorem toFlat_framed (h : Reached s n tr) (h' : (tr.framed d n m).Sound (d + n + m) serial')
    (hf : tr.toFlat n = .ok f) (hn : n ≤ maxIndex) (hnamed : ∀ r ∈ f.reorders, r.All (· < n)) :
    (tr.framed d n m).toFlat (d + n + m) = .ok (f.moved d) := by
  obtain ⟨pairs, hpairs, rfl⟩ := toFlat_eq_ok hf
  have hsubstitutions := substitutions_framed h h' hpairs
  obtain ⟨f', hf'⟩ : ∃ f', (tr.framed d n m).toFlat (d + n + m) = .ok f' := by
    cases hflat : (tr.framed d n m).toFlat (d + n + m) with
    | ok f' => exact ⟨f', rfl⟩
    | error err =>
      rw [toFlat_error_iff, hsubstitutions] at hflat
      cases hflat
  obtain ⟨pairs', hpairs', rfl⟩ := toFlat_eq_ok hf'
  rw [hsubstitutions, Except.ok.injEq] at hpairs'
  have hremoved : ∀ t, (tr.framed d n m).fated removedFate (t.offset d) = tr.fated removedFate t :=
    fated_offset fun how => by cases how <;> rfl
  have hinlined : ∀ t, (tr.framed d n m).fated inlinedFate (t.offset d) = tr.fated inlinedFate t :=
    fated_offset fun how => by cases how <;> rfl
  have hpassed : passedOver ((tr.framed d n m).fated removedFate)
      (Reparam.framed d n m (tr.beforeRemovals n)) =
        Reparam.framed d n m (passedOver (tr.fated removedFate) (tr.beforeRemovals n)) :=
    filter_framed (fun t => by rw [hremoved]) (fun i hi => by rw [h.sound.fated_around _ hi]; rfl) _
  rw [hf', Except.ok.injEq, FlatScript.moved, FlatScript.mk.injEq, inlines_eq, inlines_eq,
    afterInsertions_framed h.sound h', beforeRemovals_framed h.sound, hpassed,
    reorders_framed h.sound h' hn hnamed, ← hpairs']
  refine ⟨?_, ?_, rfl, rfl, ?_, ?_⟩
  · exact located_framed (fun t => by cases t <;> rfl) (fun _ _ => rfl) _
  · exact located_framed (fun t => by cases t <;> rfl) (fun _ _ => rfl) _
  · rw [located_framed hremoved fun i hi => h.sound.fated_around _ hi, List.map_reverse,
      List.map_map, List.map_map]
    rfl
  · rw [located_framed hinlined fun i hi => h.sound.fated_around _ hi, List.map_reverse]

theorem follow_countP_le {p : Token → Bool} (hp : ∀ t x, p (x.retype t) = p x)
    {tr' : Tracking} (h : follow serial s tr = .ok tr') :
    tr'.tokens.countP p ≤ tr.tokens.countP p + s.count .insert := by
  induction s generalizing serial tr with
  | nil =>
    cases h
    exact Nat.le_add_right ..
  | cons e rest ih =>
    obtain ⟨tokens, he, hr⟩ := follow_cons_ok h
    have hstep := he.countP_le hp
    have hrest := ih hr
    rw [Script.count_cons]
    simp only at hrest
    omega

/-- A flat script has no more insertions than the script that it was flattened from. -/
theorem insertions_length_le (h : follow 0 s (initial n) = .ok tr) (hf : tr.toFlat n = .ok f) :
    f.insertions.length ≤ s.count .insert := by
  obtain ⟨pairs, -, rfl⟩ := toFlat_eq_ok hf
  have hcount := follow_countP_le (p := fun t => t.insertedType?.isSome)
    (fun t x => by cases x <;> rfl) h
  have hreference (os : List Nat) :
      (os.map (Token.reference · none)).countP (fun t => t.insertedType?.isSome) = 0 := by
    rw [List.countP_map]
    exact List.countP_eq_zero.2 fun i _ => by simp [Token.insertedType?]
  have hinitial : (initial n).tokens.countP (fun t => t.insertedType?.isSome) = 0 :=
    hreference (List.range n)
  rw [← List.length_map (·.2), located_map_snd, List.length_filterMap_eq_countP,
    afterInsertions_perm.countP_eq, List.countP_append, List.countP_append, hreference, hreference]
  omega

theorem Reached.fits (h : Reached s n tr) (hf : tr.toFlat n = .ok f) :
    f.Fits n tr.tokens.length := by
  obtain ⟨types, rfl⟩ : ∃ types : List ValueType, types.length = n :=
    ⟨List.replicate n default, List.length_replicate⟩
  have hfits := FlatScript.fits_of_run (h.ordered hf) (h.replay_toFlat hf)
  rwa [List.length_map] at hfits

/-- Where no list gets longer than the limit, neither does any edit start beyond it. -/
theorem primary_lt_of_follow {limit : Nat} (h : follow 0 s (initial n) = .ok tr)
    (hlimit : n + s.count .insert ≤ limit) : ∀ e ∈ s, e.primary < limit := by
  have hrun := @follow_run 0 _ _ _ forgetful_types [] s (initial n)
  rw [h] at hrun
  exact Script.run_primary_lt hrun.symm (by simpa [initial] using hlimit)

end Tracking

open Tracking

/-- Moved back in a longer list, with as many parameters in front of it and behind it as one likes,
a script is flattened to the same flat script moved back. The largest index is out of the question:
no list gets that long. -/
theorem flatten_offset (hf : s.flatten n = .ok f) (hlimit : n + s.count .insert ≤ maxIndex)
    (d m : Nat) : (s.offset d maxIndex).flatten (d + n + m) = .ok (f.offset d maxIndex) := by
  obtain ⟨tr, hfollow, htoFlat⟩ := flatten_eq_ok hf
  have h := reached_of_follow hfollow
  have hfits := h.fits htoFlat
  have hinserted : f.lengthInserted n ≤ maxIndex :=
    Nat.le_trans (Nat.add_le_add_left (insertions_length_le hfollow htoFlat) n) hlimit
  have hfollow' : follow 0 (s.map (·.offset d)) (initial (d + n + m)) = .ok (tr.framed d n m) := by
    rw [← initial_framed]
    exact follow_framed d n m hfollow
  rw [Script.offset_eq_map (primary_lt_of_follow hfollow hlimit), Script.flatten, hfollow',
    FlatScript.offset_eq_moved hfits hinserted]
  exact toFlat_framed h (reached_framed d m hfollow).sound htoFlat (by omega) hfits.reorders

theorem flatten_insert_swap : Script.flatten [.insert 2 .long, .swap 0 1] 2 =
    .ok { insertions := [(2, .long)], reorders := [.swap 0 1] } := by
  let tr : Tracking := ⟨[.reference 1 none, .reference 0 none, .inserted 0 .long], []⟩
  have hfollow : follow 0 [.insert 2 .long, .swap 0 1] (initial 2) = .ok tr := rfl
  have hremovals : tr.beforeRemovals 2 = tr.tokens := rfl
  have hreorders : tr.beforeReorders 2 =
      [.reference 0 none, .reference 1 none, .inserted 0 .long] := by
    simp [beforeReorders, hremovals, tr, List.mergeSort, List.MergeSort.Internal.splitInTwo,
      Token.ordinal?, refill]
  simp only [Script.flatten, hfollow, toFlat, reorders, afterInsertions, hreorders]
  rfl

/-- The parameter that comes in at the end stays in front of what follows. -/
theorem flatten_offset_on_swap :
    (Script.offset 1 maxIndex [.insert 2 .long, .swap 0 1]).flatten 4 =
      .ok { insertions := [(3, .long)], reorders := [.swap 1 2] } :=
  flatten_offset flatten_insert_swap (by decide) 1 1

end Reparam
