import Mathlib.Algebra.GroupWithZero.Nat
import Reparam.Proofs.Edit.Beside
import Reparam.Proofs.Flatten.Agreement

/-! Merging a script into another one, moved back by the length that the first one leaves. In
layered scripts that is where the second one works. In flat scripts each kind of edit counts along
a list of its own, so that one distance is right for all of them only if these lists are as long. -/
namespace Reparam

variable {β γ : Type} {n n' left left' d e : Nat} {s o : Script} {f g : FlatScript} {tr : Tracking}
  {types types' front front' back back' : List ValueType} {ps : List β} {ks : List γ}

open Tracking

section Moved

variable {m : Nat → β → γ} (place : γ → Nat) (origin : β → Nat)
  (hm : ∀ d p, place (m d p) = origin p + d)
include hm

theorem sum_places_moved (d : Nat) :
    ((ps.map (m d)).map place).sum = (ps.map origin).sum + ps.length * d := by
  induction ps with
  | nil => simp
  | cons p ps ih =>
    simp only [List.map_cons, List.sum_cons, List.length_cons, Nat.succ_mul, ih, hm]
    omega

/-- Moved back by two distances, entries end up in the same places only if there are none or the
distances are the same. -/
theorem moved_perm_iff : (ps.map (m d)).Perm (ps.map (m e)) ↔ d = e ∨ ps = [] := by
  constructor
  · intro hperm
    have hsum := (hperm.map place).sum_nat
    rw [sum_places_moved place origin hm, sum_places_moved place origin hm] at hsum
    refine Classical.or_iff_not_imp_right.2 fun hps => ?_
    exact Nat.eq_of_mul_eq_mul_left (List.length_pos_iff.2 hps) (by omega)
  · rintro (rfl | rfl)
    · exact .refl _
    · exact .nil

theorem append_moved_eq_iff : ks ++ ps.map (m d) = ks ++ ps.map (m e) ↔ d = e ∨ ps = [] := by
  rw [List.append_cancel_left_eq]
  constructor
  · exact fun h => (moved_perm_iff place origin hm).1 (.of_eq h)
  · rintro (rfl | rfl) <;> rfl

end Moved

namespace FlatScript

theorem ascendingByFirst_moved_eq_iff {ks ps : List (Nat × β)} :
    ascendingByFirst (ks ++ ps.map fun p => (p.1 + d, p.2)) =
      ascendingByFirst (ks ++ ps.map fun p => (p.1 + e, p.2)) ↔ d = e ∨ ps = [] := by
  constructor
  · intro h
    have hperm := (List.mergeSort_perm _ _).symm.trans (.trans (.of_eq h) (List.mergeSort_perm _ _))
    exact (moved_perm_iff (m := fun d (p : Nat × β) => (p.1 + d, p.2)) Prod.fst Prod.fst
      fun _ _ => rfl).1 ((List.perm_append_left_iff ks).1 hperm)
  · rintro (rfl | rfl) <;> rfl

/-- All edits moved back by the same distance. -/
def moved (g : FlatScript) (d : Nat) : FlatScript where
  insertions := g.insertions.map fun p => (p.1 + d, p.2)
  replacements := g.replacements.map fun p => (p.1 + d, p.2)
  substitutions := g.substitutions.map fun p => (p.1 + d, p.2 + d)
  reorders := g.reorders.map (·.offset d)
  removals := g.removals.map (· + d)
  inlines := g.inlines.map fun p => (p.1 + d, p.2)

/-- Where no edit names the largest index, none is left out. -/
theorem offset_eq_moved {limit : Nat} (h : g.Fits n left) (hlimit : g.lengthInserted n ≤ limit)
    (d : Nat) : g.offset d limit = g.moved d := by
  have hsubstituted : g.lengthSubstituted n ≤ g.lengthInserted n := Nat.sub_le ..
  have hremoved : g.lengthRemoved n ≤ g.lengthSubstituted n := Nat.sub_le ..
  have hn : n ≤ g.lengthInserted n := Nat.le_add_right ..
  have keep {β : Type} {ps : List β} {key : β → Nat} {bound : Nat} (hps : ∀ p ∈ ps, key p < bound)
      (hbound : bound ≤ limit) : ps.filter (fun p => decide (key p < limit)) = ps :=
    List.filter_eq_self.2 fun p hp => decide_eq_true (Nat.lt_of_lt_of_le (hps p hp) hbound)
  have hfirst : ∀ r ∈ g.reorders, r.first < n := by
    intro r hr
    have hall := h.reorders r hr
    cases r <;> exact hall.1
  have hremovals : g.removals.filter (fun i => decide (i < limit)) = g.removals :=
    keep h.removals (by omega)
  simp only [offset, moved, keep h.insertions hlimit, keep h.replacements hlimit,
    keep h.substitutions hlimit, keep hfirst (Nat.le_trans hn hlimit), hremovals,
    keep h.inlines (by omega)]

/-- Each kind of edit of `g` counts along a list that is as far back as what `f` leaves is long, or
there is none of the kind. -/
structure Aligned (f g : FlatScript) : Prop where
  inserted : (f.substitutions = [] ∧ f.removals = [] ∧ f.inlines = []) ∨
    (g.insertions = [] ∧ g.replacements = [] ∧ g.substitutions = [])
  reordered : f.insertions.length = f.substitutions.length + f.removals.length + f.inlines.length ∨
    g.reorders = []
  removed : (f.removals = [] ∧ f.inlines = []) ∨ g.removals = []
  inlined : f.inlines = [] ∨ g.inlines = []

theorem merge_eq (h : g.Fits n left) (hlimit : g.lengthInserted n ≤ maxIndex) (d : Nat) :
    f.merge g d =
      { insertions := ascendingByFirst (f.insertions ++ g.insertions.map fun p => (p.1 + d, p.2))
        replacements := f.replacements ++ g.replacements.map fun p => (p.1 + d, p.2)
        substitutions := f.substitutions ++ g.substitutions.map fun p => (p.1 + d, p.2 + d)
        reorders := f.reorders ++ g.reorders.map (·.offset d)
        removals := f.removals ++ g.removals.map (· + d)
        inlines := f.inlines ++ g.inlines.map fun p => (p.1 + d, p.2) } := by
  rw [merge, offset_eq_moved h hlimit]
  rfl

/-- Merging puts the two side by side if and only if they are aligned. -/
theorem merge_eq_beside_iff (hf : f.Fits n left) (hg : g.Fits n' left')
    (hlimit : g.lengthInserted n' ≤ maxIndex) : f.merge g left = f.beside g n ↔ f.Aligned g := by
  have hleft := hf.left
  have hlength : f.lengthInserted n = n + f.insertions.length := rfl
  have hsubstituted : f.lengthSubstituted n = f.lengthInserted n - f.substitutions.length := rfl
  have hremoved : f.lengthRemoved n = f.lengthSubstituted n - f.removals.length := rfl
  have hfirst : ∀ d (r : Reorder), (r.offset d).first = r.first + d := by
    intro d r
    cases r <;> rfl
  rw [merge_eq hg hlimit, beside, FlatScript.mk.injEq, ascendingByFirst_moved_eq_iff,
    append_moved_eq_iff (m := fun d (p : Nat × ValueType) => (p.1 + d, p.2)) Prod.fst Prod.fst
      fun _ _ => rfl,
    append_moved_eq_iff (m := fun d (p : Nat × Nat) => (p.1 + d, p.2 + d)) Prod.fst Prod.fst
      fun _ _ => rfl,
    append_moved_eq_iff (m := Reorder.offset) Reorder.first Reorder.first hfirst,
    append_moved_eq_iff (m := fun d i => i + d) id id fun _ _ => rfl,
    append_moved_eq_iff (m := fun d (p : Nat × Nat) => (p.1 + d, p.2)) Prod.fst Prod.fst
      fun _ _ => rfl]
  have hi : left = f.lengthInserted n ↔
      f.substitutions = [] ∧ f.removals = [] ∧ f.inlines = [] := by
    simp only [← List.length_eq_zero_iff]
    omega
  have hn : left = n ↔ f.insertions.length =
      f.substitutions.length + f.removals.length + f.inlines.length := by omega
  have hs : left = f.lengthSubstituted n ↔ f.removals = [] ∧ f.inlines = [] := by
    simp only [← List.length_eq_zero_iff]
    omega
  have hr : left = f.lengthRemoved n ↔ f.inlines = [] := by
    rw [← List.length_eq_zero_iff]
    omega
  rw [hi, hn, hs, hr]
  constructor
  · rintro ⟨h1, h2, h3, h4, h5, h6⟩
    exact ⟨or_and_left.2 ⟨h1, or_and_left.2 ⟨h2, h3⟩⟩, h4, h5, h6⟩
  · rintro ⟨h, h4, h5, h6⟩
    obtain ⟨h1, h⟩ := or_and_left.1 h
    obtain ⟨h2, h3⟩ := or_and_left.1 h
    exact ⟨h1, h2, h3, h4, h5, h6⟩

end FlatScript

theorem Tracking.Reached.ordered (h : Reached s n tr) (hf : tr.toFlat n = .ok f) : f.Ordered := by
  obtain ⟨pairs, hpairs, rfl⟩ := toFlat_eq_ok hf
  refine ⟨located_pairwise, ?_, ?_, ?_⟩
  · rw [← List.pairwise_map (R := fun i j => j < i), targets_eq (h.substitutions_ok hpairs),
      List.pairwise_map]
    exact located_reverse_pairwise
  · rw [← List.map_reverse, List.pairwise_map]
    exact located_reverse_pairwise
  · rw [inlines_eq]
    exact located_reverse_pairwise

/-- What a script was flattened to is in order and does the same. -/
theorem flatten_ordered (hreplay : s.replay types = .ok types')
    (hf : s.flatten types.length = .ok f) :
    f.Ordered ∧ f.replay types = .ok types' := by
  obtain ⟨tr, hfollow, htoFlat⟩ := flatten_eq_ok hf
  have h := reached_of_follow hfollow
  rw [replay_eq_follow, hfollow, Except.map, Except.ok.injEq] at hreplay
  exact ⟨h.ordered htoFlat, hreplay ▸ h.replay_toFlat htoFlat⟩

/-- A layered script that is merged in works behind what the first one leaves, and so do two flat
scripts side by side. Merging flat scripts moves all lists of the second one by the same distance,
which puts them side by side if and only if they are aligned. -/
theorem merge_agrees (hs : s.replay front = .ok front') (hf : s.flatten front.length = .ok f)
    (ho : o.replay back = .ok back') (hg : o.flatten back.length = .ok g)
    (hlimit : back.length + g.insertions.length ≤ maxIndex) :
    (s.merge o front'.length).replay (front ++ back) = .ok (front' ++ back') ∧
      (f.beside g front.length).replay (front ++ back) = .ok (front' ++ back') ∧
      (f.merge g front'.length = f.beside g front.length ↔ f.Aligned g) ∧
      (f.Aligned g → (f.merge g front'.length).replay (front ++ back) = .ok (front' ++ back')) := by
  obtain ⟨hfordered, hfreplay⟩ := flatten_ordered hs hf
  obtain ⟨hgordered, hgreplay⟩ := flatten_ordered ho hg
  have hlayered : (s.merge o front'.length).replay (front ++ back) = .ok (front' ++ back') := by
    have hbehind := Script.run_behind hs back
    have hmerged := Script.run_merge front' [] (by simpa using hbehind) ho
    simp only [List.append_nil] at hmerged
    exact hmerged
  have hbeside := FlatScript.run_beside hfordered hgordered hfreplay hgreplay
  have hiff := FlatScript.merge_eq_beside_iff (FlatScript.fits_of_run hfordered hfreplay)
    (FlatScript.fits_of_run hgordered hgreplay) hlimit
  refine ⟨hlayered, hbeside, hiff, fun haligned => ?_⟩
  rw [hiff.2 haligned]
  exact hbeside

theorem flatten_replace_zero : Script.flatten [.replace 0 .double] 1 =
    .ok { replacements := [(0, .double)] } := by
  let tr : Tracking := ⟨[.reference 0 (some .double)], []⟩
  have hfollow : follow 0 [.replace 0 .double] (.initial 1) = .ok tr := rfl
  have hreorders : tr.beforeReorders 1 = [.reference 0 (some .double)] :=
    congrArg (refill _) (List.mergeSort_singleton ..)
  simp only [Script.flatten, hfollow, toFlat, reorders, afterInsertions, hreorders]
  rfl

/-- A replacement does not change how long a list is. -/
theorem merge_agrees_on_replace :
    (Script.merge [.replace 0 .double] [.remove 0] 1).replay [.int, .long] = .ok [.double] ∧
      (FlatScript.merge { replacements := [(0, .double)] } { removals := [0] } 1).replay
        [.int, .long] = .ok [.double] := by
  obtain ⟨hlayered, -, -, hflat⟩ := @merge_agrees [.replace 0 .double] [.remove 0]
    { replacements := [(0, .double)] } { removals := [0] } [.int] [.double] [.long] [] rfl
    flatten_replace_zero rfl flatten_remove_zero (by decide)
  exact ⟨hlayered, hflat ⟨.inl ⟨rfl, rfl, rfl⟩, .inr rfl, .inl ⟨rfl, rfl⟩, .inl rfl⟩⟩

/-- Behind a parameter that is removed in the end, a replacement comes one place too early. -/
theorem merge_misplaces : ¬ ∀ (s o : Script) (f g : FlatScript)
    (front front' back back' : List ValueType),
    s.replay front = .ok front' → s.flatten front.length = .ok f →
    o.replay back = .ok back' → o.flatten back.length = .ok g →
    (f.merge g front'.length).replay (front ++ back) = .ok (front' ++ back') := by
  intro h
  have hmerged : (FlatScript.merge { removals := [0] } { replacements := [(0, .double)] } 0).replay
      [.int, .long] = .ok [.double] := h [.remove 0] [.replace 0 .double] _ _ [.int] [] [.long]
    [.double] rfl flatten_remove_zero rfl flatten_replace_zero
  have hreplay : (FlatScript.merge { removals := [0] } { replacements := [(0, .double)] } 0).replay
      [.int, .long] = .ok [.long] := by
    simp only [FlatScript.merge, FlatScript.replay, FlatScript.run, FlatScript.settledReorders,
      FlatScript.offset, ascendingByFirst, descendingByFirst, descending, List.filter_nil,
      List.map_nil, List.append_nil, List.nil_append, List.mergeSort_nil, List.mergeSort_singleton]
    rfl
  rw [hreplay] at hmerged
  cases hmerged

end Reparam
