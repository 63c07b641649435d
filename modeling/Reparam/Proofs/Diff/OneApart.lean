import Reparam.Proofs.Diff.Emitting
import Reparam.Proofs.Diff.Unchanged

/-! Comparing lists of types that are the same but for one parameter, whose type the shorter list does
not have. Its insertion is always found. Its removal is found too, unless it came first and all that
is left has one type: then it is replaced by that type, and the last parameter is removed. -/
namespace Reparam

variable {cfg : Setting} {p q x : Placed} {ps qs front back back' : List Placed} {l : List Stage}
  {d : Draft}

namespace Round

theorem agrees_of_type_ne (h : p.type ≠ q.type) : p.agrees q = false := by
  simp [Placed.agrees, Placed.sameType, h]

/-- Without names, a leading pair of lists of different lengths is kept only if the pair behind it
has one type too. -/
theorem keep_of_type_ne (hsize : cfg.sameSize = false) (hnames : cfg.compareNames = false)
    (hlen : ps.length ≠ qs.length)
    (h : p.type = q.type → ∀ p₁ ∈ ps.head?, ∀ q₁ ∈ qs.head?, p₁.type ≠ q₁.type) :
    keep? cfg p ps (q :: qs) = none := by
  obtain _ | ⟨p₁, ps⟩ := ps
  · simp [keep?, keepOtherSize, hsize]
  obtain _ | ⟨q₁, qs⟩ := qs
  · simp [keep?, keepOtherSize, hsize]
  by_cases htype : p.type = q.type
  · have hnext : p₁.agrees q₁ = false := agrees_of_type_ne (h htype p₁ rfl q₁ rfl)
    have hlen' : ps.length ≠ qs.length := by simpa using hlen
    simp [keep?, keepOtherSize, keepMoved, hsize, hnames, hnext, hlen']
  · simp [keep?, keepOtherSize, hsize, Placed.sameType, htype]

end Round

/-- Behind parameters that come first in both lists, all that is left is rearranged with the last of
them, if it differs from the start on. -/
theorem plan_behind_of_rearrange (hsize : cfg.sameSize = false) (hnames : cfg.compareNames = false)
    (hlen : ps.length ≠ qs.length) (hne : ∀ p₁ ∈ ps.head?, ∀ q₁ ∈ qs.head?, p₁.type ≠ q₁.type)
    (h : Round.rearrange? (p :: ps) (p :: qs) = some ⟨l, [], []⟩) :
    plan cfg (front ++ p :: ps) (front ++ p :: qs) = l := by
  rw [plan_behind hsize]
  exact plan_of_rearrange (Round.keep_of_type_ne hsize hnames hlen fun _ => hne)
    (Round.replace_of_leading hlen rfl) h

theorem Placed.type_ne (h : x.type ∉ ps.map (·.type)) (hp : p ∈ ps) : p.type ≠ x.type :=
  fun he => h (he ▸ List.mem_map_of_mem hp)

/-- Where something was put in before a parameter, its type is not replaced. -/
theorem Round.replaceAt_of_pushedBack {q₁ : Placed} (hlen : ps.length ≠ qs.length + 1)
    (h : p.type = q₁.type) : Round.replaceAt? 0 (p :: ps) (q :: q₁ :: qs) = none := by
  simp [replaceAt?, Placed.sameType, h, hlen]

section

variable (hsize : cfg.sameSize = false) (hnames : cfg.compareNames = false)
  (htypes : back.map (·.type) = back'.map (·.type))
  (hx : x.type ∉ (front ++ back).map (·.type))

include hsize hnames htypes hx

theorem plan_insert_stranger :
    plan cfg (front ++ back) (front ++ x :: back') = [.insertAt x.ordinal x.type] := by
  have hlen : back.length = back'.length := by simpa using congrArg List.length htypes
  obtain rfl | ⟨front, p, rfl⟩ := List.eq_nil_or_concat' front
  · rw [List.nil_append] at hx ⊢
    obtain _ | ⟨p, back⟩ := back
    · obtain rfl : back' = [] := List.map_eq_nil_iff.1 htypes.symm
      exact plan.eq_1 ..
    obtain _ | ⟨q, back'⟩ := back'
    · cases htypes
    have hlen' : back.length ≠ (q :: back').length := by simp at hlen ⊢; omega
    have hne : p.type ≠ x.type := Placed.type_ne hx List.mem_cons_self
    refine plan_of_rearrange (Round.keep_of_type_ne hsize hnames hlen' fun he => absurd he hne) ?_
      (@Round.rearrange_insert_stranger _ [] _ _ htypes.symm hx)
    rw [List.nil_append, Round.replace_of_length_ne (by simpa using hlen'),
      Round.replaceAt_of_pushedBack (by simpa using hlen') (List.cons.inj htypes).1]
  · rw [List.append_assoc, List.map_append, List.mem_append, not_or] at hx
    rw [List.append_assoc, List.append_assoc]
    refine plan_behind_of_rearrange hsize hnames (by simp [hlen]) ?_
      (@Round.rearrange_insert_stranger _ [p] _ _ (by simp [htypes]) hx.2)
    rintro p₁ hp₁ q₁ ⟨rfl⟩
    exact Placed.type_ne hx.2 (List.mem_cons_of_mem _ (List.mem_of_mem_head? hp₁))

/-- If the parameter comes first, what stands behind it may not look unchanged. -/
theorem plan_remove_stranger
    (hfront : front = [] → back' = [] ∨ Round.differFrom 1 (x :: back) back' = true) :
    plan cfg (front ++ x :: back) (front ++ back') = [.remove x.ordinal] := by
  have hlen : back.length = back'.length := by simpa using congrArg List.length htypes
  rw [List.map_append, htypes, ← List.map_append] at hx
  obtain rfl | ⟨front, p, rfl⟩ := List.eq_nil_or_concat' front
  · rw [List.nil_append] at hx ⊢
    rw [List.nil_append]
    have hround : Round.rearrange? (x :: back) back' = some ⟨[.remove x.ordinal], [], []⟩ :=
      @Round.rearrange_remove_stranger _ [] _ _ htypes hx
    obtain _ | ⟨q, back'⟩ := back'
    · obtain rfl : back = [] := List.map_eq_nil_iff.1 htypes
      exact plan_of_rearrange rfl rfl hround
    have hlen' : back.length ≠ back'.length := by simp at hlen; omega
    have hne : x.type ≠ q.type := (Placed.type_ne hx List.mem_cons_self).symm
    have hdiffer : Round.differFrom 1 (x :: back) (q :: back') = true :=
      (hfront rfl).resolve_left (List.cons_ne_nil _ _)
    refine plan_of_rearrange (Round.keep_of_type_ne hsize hnames hlen' fun he => absurd he hne) ?_
      hround
    rw [Round.replace_of_length_ne (by simpa using hlen')]
    simp [Round.replaceAt?, hdiffer]
  · rw [List.append_assoc, List.map_append, List.mem_append, not_or] at hx
    rw [List.append_assoc, List.append_assoc]
    refine plan_behind_of_rearrange hsize hnames (by simp [hlen]) ?_
      (@Round.rearrange_remove_stranger _ [p] _ _ (by simp [htypes]) hx.2)
    rintro p₁ ⟨rfl⟩ q₁ hq₁
    exact (Placed.type_ne hx.2 (List.mem_cons_of_mem _ (List.mem_of_mem_head? hq₁))).symm

end

/-- The first type is replaced if all that stands behind it looks unchanged. -/
theorem plan_replace_first (hsize : cfg.sameSize = false) (hnames : cfg.compareNames = false)
    (hlen : ps.length ≠ qs.length) (hne : p.type ≠ q.type) (hx : p.type ∉ qs.map (·.type))
    (hsame : Round.differFrom 1 (p :: ps) (q :: qs) = false) :
    plan cfg (p :: ps) (q :: qs) = .replace p.ordinal q.type :: plan cfg ps qs := by
  have hkeep := Round.keep_of_type_ne hsize hnames hlen fun he => absurd he hne
  have hpushed : qs[0]?.any p.sameType = false := by
    obtain _ | ⟨q₁, qs⟩ := qs
    · rfl
    · simpa [Placed.sameType] using (Placed.type_ne hx List.mem_cons_self).symm
  have hreplace : Round.replace? (p :: ps) (q :: qs) =
      some ⟨[.replace p.ordinal q.type], ps, qs⟩ := by
    rw [Round.replace_of_length_ne (by simpa using hlen)]
    simp [Round.replaceAt?, hpushed, hsame, Placed.sameType, hne]
  have hnext : nextRound cfg p ps (q :: qs) = ⟨[.replace p.ordinal q.type], ps, qs⟩ := by
    simp only [nextRound, hkeep, hreplace]
  rw [plan_of_nextRound hnext]
  rfl

/-- Of two parameters of one type that stand against one, the window drops the second. -/
theorem plan_pair (hsize : cfg.sameSize = false) (h : p.type = q.type) :
    plan cfg [p, q] [p] = [.window [p, q] [p]] := by
  have hkeep : Round.keep? cfg p [q] [p] = none := by
    simp [Round.keep?, Round.keepOtherSize, hsize]
  have hpeel : Round.peelBoth [p, q] [p] = ⟨[], [p, q], [], [p]⟩ := by
    rw [Round.peelBoth_eq_ite, if_pos (by simp [Round.Known, h]), if_pos (by simp [Round.Known])]
  have hrearrange : Round.rearrange? [p, q] [p] = none := by
    simp [Round.rearrange?, hpeel, List.isPerm_iff]
  have hnarrow : Round.narrow cfg p [q] [p] = ⟨[.window [p, q] [p]], [], []⟩ := by
    simp [Round.narrow, Round.ahead?, Round.secondNamesAgree, Round.cut, Placed.sameType, h]
  exact plan_of_narrow hkeep (Round.replace_of_leading (by simp) rfl) hrearrange hnarrow

/-- A list against itself without its first type looks unchanged, place by place, just if it has one
type. -/
theorem Round.zip_same_iff (start : Nat) (y : ValueType) (types : List ValueType) :
    (((Placed.ofListFrom start ((y :: types).map .unnamed)).zip
        (Placed.ofListFrom start (types.map .unnamed))).any fun (p, q) => p ≠ q) = false ↔
      types = List.replicate types.length y := by
  induction types generalizing start y with
  | nil => simp [Placed.ofListFrom]
  | cons z types ih =>
    -- each pair holds a type and the next one, so the rest compares the run from z on
    have hzip : (Placed.ofListFrom start ((y :: z :: types).map .unnamed)).zip
          (Placed.ofListFrom start ((z :: types).map .unnamed)) =
        (⟨.unnamed y, start⟩, ⟨.unnamed z, start⟩) ::
          (Placed.ofListFrom (start + 1) ((z :: types).map .unnamed)).zip
            (Placed.ofListFrom (start + 1) (types.map .unnamed)) := by
      simp only [List.map_cons, Placed.ofListFrom_cons, List.zip_cons_cons]
    have hpair : decide ((⟨.unnamed y, start⟩ : Placed) ≠ ⟨.unnamed z, start⟩) = false ↔ z = y := by
      simp [Parameter.unnamed, eq_comm (a := y)]
    rw [hzip, List.any_cons, Bool.or_eq_false_iff, hpair, ih, List.length_cons,
      List.replicate_succ, List.cons.injEq]
    exact and_congr_right fun hz => by rw [hz]

theorem Round.differFrom_run_iff (p : Placed) (y : ValueType) (types : List ValueType) :
    differFrom 1 (p :: Placed.ofListFrom 1 ((y :: types).map .unnamed))
        (⟨.unnamed y, 0⟩ :: Placed.ofListFrom 1 (types.map .unnamed)) = false ↔
      types = List.replicate types.length y :=
  zip_same_iff 1 y types

/-- Of a run of one type that is longer by one, the last parameter is dropped. -/
theorem plan_run (hsize : cfg.sameSize = false) (hnames : cfg.compareNames = false) (start n : Nat)
    (y : ValueType) :
    ∃ stage : Stage, plan cfg (Placed.ofListFrom start ((List.replicate (n + 1) y).map .unnamed))
        (Placed.ofListFrom start ((List.replicate n y).map .unnamed)) = [stage] ∧ stage.Quiet ∧
      ∀ (m : Nat) (d : Draft), d.Untouched m → start + n < m →
        d.perform stage = d.remove (start + n) := by
  obtain _ | n := n
  · have hplan := @plan_remove_stranger cfg ⟨.unnamed y, start⟩ [] [] [] hsize hnames rfl (by simp)
      fun _ => .inl rfl
    exact ⟨_, hplan, ⟨rfl, rfl⟩, fun _ _ _ _ => rfl⟩
  · have hconcat (m : Nat) : Placed.ofListFrom start ((List.replicate (m + 1) y).map .unnamed) =
        Placed.ofListFrom start ((List.replicate m y).map .unnamed) ++
          [⟨.unnamed y, start + m⟩] := by
      rw [List.replicate_succ', List.map_append, Placed.ofListFrom_append, List.length_map,
        List.length_replicate]
      rfl
    rw [hconcat (n + 1), hconcat n, List.append_assoc]
    refine ⟨_, (plan_behind hsize _ _ _ []).trans (plan_pair hsize rfl), ⟨rfl, rfl⟩, ?_⟩
    exact fun m d hd hlt => hd.window_shorter (by simp; omega) _

theorem diffTypes_of_plan {types target : List ValueType} (hlen : types.length ≠ target.length)
    (hplan : plan ⟨false, false⟩ (Placed.ofList (types.map .unnamed))
      (Placed.ofList (target.map .unnamed)) = l)
    (hquiet : ∀ stage ∈ l, stage.Quiet)
    (hd : l.foldlM Draft.perform (.initial types.length) = .ok d) :
    diffTypes types target = .ok d.script := by
  rw [diffTypes, diff, diffReported_of_plan (decide_eq_false hlen) hplan hquiet hd]
  rfl

section

variable {front back : List ValueType} {x : ValueType}

theorem Placed.stranger (hfront : x ∉ front) (hback : x ∉ back) (start : Nat) :
    x ∉ (ofList (front.map .unnamed) ++ ofListFrom start (back.map .unnamed)).map (·.type) := by
  simp [types_ofList, types_ofListFrom, types_unnamed, hfront, hback]

/-- A parameter of a type that the reference lacks is one insertion, wherever it stands. -/
theorem diffTypes_insert_one (hfront : x ∉ front) (hback : x ∉ back) :
    diffTypes (front ++ back) (front ++ x :: back) = .ok [.insert front.length x] := by
  have hplan : plan ⟨false, false⟩ (Placed.ofList ((front ++ back).map .unnamed))
      (Placed.ofList ((front ++ x :: back).map .unnamed)) = [.insertAt front.length x] := by
    rw [Placed.ofList_split, List.map_append, Placed.ofList_append, List.length_map]
    exact plan_insert_stranger rfl rfl (by simp only [Placed.types_ofListFrom])
      (Placed.stranger hfront hback _)
  have hd := @Draft.insertAt_eq (.initial (front ++ back).length) front.length
    (by simp [(Draft.initial_untouched _).length]) x
  exact (diffTypes_of_plan (by simp) hplan (List.forall_mem_singleton.2 ⟨rfl, rfl⟩)
    ((foldlM_single ..).trans hd) :)

theorem diffTypes_insert_one_amid_repeats :
    ValueType.boolean ∉ [ValueType.int, .int] ∧ ValueType.boolean ∉ [ValueType.int, .long] ∧
      diffTypes [.int, .int, .int, .long] [.int, .int, .boolean, .int, .long] =
        .ok [.insert 2 .boolean] := by
  have hfront : ValueType.boolean ∉ [ValueType.int, .int] := by decide
  have hback : ValueType.boolean ∉ [ValueType.int, .long] := by decide
  exact ⟨hfront, hback, diffTypes_insert_one hfront hback⟩

/-- A removal is found as such where something comes before it, or else what is left has more than
one type. -/
theorem diffTypes_remove_stranger (hfront : x ∉ front) (hback : x ∉ back)
    (h : front = [] → ∀ y n, back ≠ List.replicate (n + 1) y) :
    diffTypes (front ++ x :: back) (front ++ back) = .ok [.remove front.length] := by
  have hplan : plan ⟨false, false⟩ (Placed.ofList ((front ++ x :: back).map .unnamed))
      (Placed.ofList ((front ++ back).map .unnamed)) = [.remove front.length] := by
    rw [Placed.ofList_split, List.map_append, Placed.ofList_append, List.length_map]
    refine plan_remove_stranger rfl rfl (by simp only [Placed.types_ofListFrom])
      (Placed.stranger hfront hback _) fun hnil => ?_
    obtain rfl : front = [] := by simpa [Placed.ofList] using hnil
    obtain _ | ⟨y, back⟩ := back
    · exact .inl rfl
    right
    by_contra hsame
    have hrun := (Round.differFrom_run_iff _ y back).1 (Bool.eq_false_iff.2 hsame)
    exact h rfl y back.length (congrArg (y :: ·) hrun)
  have hd := (Draft.initial_untouched (front ++ x :: back).length).remove
    (by simp : front.length < _)
  exact (diffTypes_of_plan (by simp) hplan (List.forall_mem_singleton.2 ⟨rfl, rfl⟩)
    ((foldlM_single ..).trans hd) :)

/-- Before parameters of one type, nothing shows that the first one is gone. -/
theorem diffTypes_remove_before_run (y : ValueType) (n : Nat) (hne : x ≠ y) :
    diffTypes (x :: List.replicate (n + 1) y) (List.replicate (n + 1) y) =
      .ok [.replace 0 y, .remove (n + 1)] := by
  let run (n : Nat) := Placed.ofListFrom 1 ((List.replicate n y).map .unnamed)
  have hreference : Placed.ofList ((x :: List.replicate (n + 1) y).map .unnamed) =
      ⟨.unnamed x, 0⟩ :: run (n + 1) := Placed.ofList_split [] _ x
  have htarget : Placed.ofList ((List.replicate (n + 1) y).map .unnamed) =
      ⟨.unnamed y, 0⟩ :: run n := Placed.ofList_split [] _ y
  have hplan : plan ⟨false, false⟩ (Placed.ofList ((x :: List.replicate (n + 1) y).map .unnamed))
      (Placed.ofList ((List.replicate (n + 1) y).map .unnamed)) =
        .replace 0 y :: plan ⟨false, false⟩ (run (n + 1)) (run n) := by
    rw [hreference, htarget]
    refine plan_replace_first rfl rfl ?_ hne ?_ ?_
    · simp [run, Placed.ofListFrom]
    · have htypes : (run n).map (·.type) = List.replicate n y := by
        rw [Placed.types_ofListFrom, types_unnamed]
      rw [htypes]
      exact fun hmem => hne (List.eq_of_mem_replicate hmem)
    · exact (Round.differFrom_run_iff _ y _).2 (by rw [List.length_replicate])
  -- the replacement keeps all parameters in place, so the other stage drops the last one by its index
  obtain ⟨stage, hrun, hquiet, hperform⟩ := @plan_run ⟨false, false⟩ rfl rfl 1 n y
  obtain ⟨d, hreplace, hd, hscript⟩ :=
    (Draft.initial_untouched (n + 2)).replace (Nat.succ_pos _) y
  have hremove := (hperform _ d hd (by omega)).trans (hd.remove (by omega))
  rw [hrun] at hplan
  have hquiets : ∀ s ∈ [.replace 0 y, stage], s.Quiet :=
    List.forall_mem_cons.2 ⟨⟨rfl, rfl⟩, List.forall_mem_singleton.2 hquiet⟩
  have hdiff := diffTypes_of_plan (by simp) hplan hquiets (by
    rw [List.length_cons, List.length_replicate, List.foldlM_cons, hreplace]
    exact (foldlM_single ..).trans hremove)
  rw [hdiff, hscript, Nat.add_comm]
  rfl

/-- A parameter of a type that the target lacks is removed, unless it comes first and all that is
left has one type: then it is replaced by that type, and the last parameter is removed. -/
theorem diffTypes_remove_one (hfront : x ∉ front) (hback : x ∉ back) :
    (diffTypes (front ++ x :: back) (front ++ back) = .ok [.remove front.length] ↔
        ¬ (front = [] ∧ ∃ y n, back = List.replicate (n + 1) y)) ∧
      ∀ y n, front = [] → back = List.replicate (n + 1) y →
        diffTypes (front ++ x :: back) (front ++ back) = .ok [.replace 0 y, .remove (n + 1)] := by
  have hreplace (y : ValueType) (n : Nat) (hnil : front = [])
      (hrun : back = List.replicate (n + 1) y) :
      diffTypes (front ++ x :: back) (front ++ back) = .ok [.replace 0 y, .remove (n + 1)] := by
    subst hnil hrun
    exact diffTypes_remove_before_run y n fun he => hback (by simp [he])
  refine ⟨⟨?_, fun h => ?_⟩, hreplace⟩
  · rintro hremove ⟨hnil, y, n, hrun⟩
    cases (hreplace y n hnil hrun).symm.trans hremove
  · exact diffTypes_remove_stranger hfront hback fun hnil y n hrun => h ⟨hnil, y, n, hrun⟩

theorem diffTypes_remove_one_beside_repeats :
    (ValueType.boolean ∉ [ValueType.int] ∧ ValueType.boolean ∉ [ValueType.int, .int] ∧
      diffTypes [.int, .boolean, .int, .int] [.int, .int, .int] = .ok [.remove 1]) ∧
    (ValueType.boolean ∉ ([] : List ValueType) ∧ ValueType.boolean ∉ [ValueType.int, .int] ∧
      diffTypes [.boolean, .int, .int] [.int, .int] = .ok [.replace 0 .int, .remove 2]) := by
  have hfront : ValueType.boolean ∉ [ValueType.int] := by decide
  have hback : ValueType.boolean ∉ [ValueType.int, .int] := by decide
  refine ⟨⟨hfront, hback, ?_⟩, ⟨by decide, hback, ?_⟩⟩
  · exact (diffTypes_remove_one hfront hback).1.2 fun h => List.cons_ne_nil _ _ h.1
  · exact (@diffTypes_remove_one [] _ _ (by decide) hback).2 .int 1 rfl rfl

/-- With one parameter left, the removal of a leading one is not found. -/
theorem diffTypes_misses_removal : ¬ ∀ (front back : List ValueType) (x : ValueType),
    x ∉ front → x ∉ back →
      diffTypes (front ++ x :: back) (front ++ back) = .ok [.remove front.length] := by
  intro h
  have hremove := h [] [.int] .boolean (by decide) (by decide)
  have hdiff : diffTypes [.boolean, .int] [.int] = .ok [.replace 0 .int, .remove 1] := by
    decide +kernel
  cases hdiff.symm.trans hremove

end

end Reparam
