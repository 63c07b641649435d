import Reparam.Proofs.Diff.Emitting
import Reparam.Proofs.Diff.Unchanged

/-! Comparing lists of types in which two neighbours trade places. What comes before them is taken
off in pairs. If nothing follows, the two are settled by a swap; if something does, what follows is
trimmed off, and the rearrangement of the two is a single move by one place, which is a swap too. -/
namespace Reparam

variable {cfg : Setting} {p p₁ q q₁ : Placed} {ps qs reference target front front' : List Placed}
  {d : Draft} {n ordinal : Nat}

/-- Without names, lists of one size are compared behind the types that they begin with. -/
theorem plan_behind_types (hsize : cfg.sameSize = true) (hnames : cfg.compareNames = false)
    (h : front.map (·.type) = front'.map (·.type)) (ps qs : List Placed) :
    plan cfg (front ++ ps) (front' ++ qs) = plan cfg ps qs := by
  induction front generalizing front' with
  | nil =>
    obtain rfl : front' = [] := List.map_eq_nil_iff.1 h.symm
    rfl
  | cons p front ih =>
    obtain _ | ⟨q, front'⟩ := front'
    · cases h
    obtain ⟨htype, hrest⟩ := List.cons.inj h
    rw [List.cons_append, List.cons_append,
      plan_of_nextRound (nextRound_of_match hsize htype (by simp [hnames]))]
    exact ih hrest

namespace Round

/-- Of lists with the same types, nothing is peeled off. -/
theorem rearrange_of_perm (h : (reference.map (·.type)).Perm (target.map (·.type))) :
    rearrange? reference target = some ⟨ordering reference target, [], []⟩ := by
  have hknown : Known reference target := fun p hp => h.subset (List.mem_map_of_mem hp)
  have hknown' : Known target reference := fun q hq => h.symm.subset (List.mem_map_of_mem hq)
  have hpeel : peelBoth reference target = ⟨[], reference, [], target⟩ := by
    rw [peelBoth_eq_ite, if_pos hknown, if_pos hknown']
  have hstages : (⟨[], reference, [], target⟩ : Peeled).stages = ordering reference target := by
    simp [Peeled.stages, ordering]
  simp only [rearrange?, hpeel, if_pos (List.isPerm_iff.2 h), hstages]

theorem trimFront_of_ne (h : p.type ≠ q.type) :
    trimFront (p :: ps) (q :: qs) = (p :: ps, q :: qs) := by
  rw [trimFront, if_neg (mt sameType_iff.1 h)]

section

variable (hq : q.type = p₁.type) (hq₁ : q₁.type = p.type) (hne : p.type ≠ p₁.type)
  (hrest : ps.map (·.type) = qs.map (·.type))

include hq₁ hne

theorem replaceAt_exchanged : replaceAt? 0 (p :: p₁ :: ps) (q :: q₁ :: qs) = none := by
  have hdiffer : p₁ ≠ q₁ := fun h => hne (hq₁.symm.trans (congrArg (·.type) h.symm))
  simp [replaceAt?, differFrom, hdiffer]

theorem replace_exchanged (hps : ps ≠ []) :
    replace? (p :: p₁ :: ps) (q :: q₁ :: qs) = none := by
  obtain ⟨p₂, ps, rfl⟩ := List.exists_cons_of_ne_nil hps
  simp [replace?, replaceAt_exchanged hq₁ hne]

include hq

theorem keep_exchanged (hsize : cfg.sameSize = true) (hhead : ∀ p₂ ∈ ps.head?, p₂.type ≠ p.type) :
    keep? cfg p (p₁ :: ps) (q :: q₁ :: qs) = none := by
  have hfirst : p.sameType q = false := by simpa [Placed.sameType, hq] using hne
  obtain _ | ⟨p₂, ps⟩ := ps
  · simp [keep?, keepSameSize, hsize, hfirst]
  · have hthird : p₂.agrees q₁ = false := by
      simpa [Placed.agrees, Placed.sameType, hq₁] using fun h => absurd h (hhead p₂ rfl)
    cases qs <;> simp [keep?, keepSameSize, hsize, hfirst, hthird]

/-- The last two parameters trade places. -/
theorem replace_exchanged_last :
    replace? [p, p₁] [q, q₁] = some ⟨[.swap p.ordinal p₁.ordinal], [], []⟩ := by
  simp [replace?, replaceAt_exchanged hq₁ hne, Placed.sameType, hq, hq₁, hne]

include hrest

theorem trim_exchanged : trim (p :: p₁ :: ps) (q :: q₁ :: qs) = ([p, p₁], [q, q₁]) := by
  have hback : (p :: p₁ :: ps).reverse = ps.reverse ++ [p₁, p] := by simp
  have hback' : (q :: q₁ :: qs).reverse = qs.reverse ++ [q₁, q] := by simp
  have hrest' : ps.reverse.map (·.type) = qs.reverse.map (·.type) := by
    rw [List.map_reverse, List.map_reverse, hrest]
  simp only [trim]
  rw [trimFront_of_ne (by rwa [hq]), hback, hback', trimFront_append hrest',
    trimFront_of_ne (by rw [hq₁]; exact hne.symm)]
  rfl

theorem rearrange_exchanged : rearrange? (p :: p₁ :: ps) (q :: q₁ :: qs) =
    some ⟨[.rearrange [p, p₁] [q, q₁]], [], []⟩ := by
  have hperm : ((p :: p₁ :: ps).map (·.type)).Perm ((q :: q₁ :: qs).map (·.type)) := by
    simp only [List.map_cons, hq, hq₁, hrest]
    exact .swap ..
  rw [rearrange_of_perm hperm, ordering, trim_exchanged hq hq₁ hne hrest]
  rfl

end

end Round

theorem uniqueMoves_exchanged (hq : q.type = p₁.type) (hq₁ : q₁.type = p.type)
    (hne : p.type ≠ p₁.type) : Rearrangement.uniqueMoves [p, p₁] [q, q₁] = [(p₁, 0), (p, 1)] := by
  have hmoves : ([p, p₁].filter fun r => Rearrangement.countType r.type [p, p₁] = 1 &&
      Rearrangement.countType r.type [q, q₁] = 1).filterMap (fun r =>
        ([q, q₁].findIdx? (·.sameType r)).map (r, ·)) = [(p, 1), (p₁, 0)] := by
    simp [Rearrangement.countType, Placed.sameType, hq, hq₁, hne, hne.symm, List.findIdx?_cons]
  rw [Rearrangement.uniqueMoves, hmoves]
  simp [List.mergeSort]

/-- Two parameters are exchanged by one move. -/
theorem rearrangement_exchanged (hq : q.type = p₁.type) (hq₁ : q₁.type = p.type)
    (hne : p.type ≠ p₁.type) (hordinal : p.ordinal ≠ p₁.ordinal) :
    rearrangement [p, p₁] [q, q₁] = .ok ⟨[⟨p₁.ordinal, p.ordinal⟩], false⟩ := by
  have hfind : [p, p₁].findIdx? (·.ordinal = p₁.ordinal) = some 1 := by
    simp [List.findIdx?_cons, hordinal]
  have hbefore : Rearrangement.aligned [p, p₁] [q, q₁] = false := by
    simp [Rearrangement.aligned, Placed.sameType, hq, hne]
  have hafter : Rearrangement.aligned [p₁, p] [q, q₁] = true := by
    simp [Rearrangement.aligned, Placed.sameType, hq, hq₁]
  have hplace : Rearrangement.placeUnique [q, q₁] [(p₁, 0), (p, 1)] [p, p₁] =
      .ok ([⟨p₁.ordinal, p.ordinal⟩], [p₁, p]) := by
    simp [Rearrangement.placeUnique, hbefore, hfind, relocate, hafter]
  simp [rearrangement, uniqueMoves_exchanged hq hq₁ hne, hplace, hafter]

namespace Draft.Untouched

theorem emit_swap (h : d.Untouched n) {i j : Nat} (hi : i < n) (hj : j < n) :
    d.emit (.swap i j) = .ok ⟨exchange d.working i j, d.script ++ [.swap i j]⟩ :=
  emit_eq (.swap (by rwa [h.length]) (by rwa [h.length]))

theorem swap (h : d.Untouched n) {i j : Nat} (hi : i < n) (hj : j < n) :
    d.perform (.swap i j) = .ok ⟨exchange d.working i j, d.script ++ [.swap i j]⟩ := by
  simp only [perform, h.position hi, h.position hj]
  exact h.emit_swap hi hj

/-- A move by one place is a swap. -/
theorem rearrange (h : d.Untouched n) (hordinal : ordinal + 1 < n)
    (hr : rearrangement reference target = .ok ⟨[⟨ordinal + 1, ordinal⟩], false⟩) :
    d.perform (.rearrange reference target) = .ok
      ⟨exchange d.working (ordinal + 1) ordinal, d.script ++ [.swap (ordinal + 1) ordinal]⟩ := by
  have hlt : ordinal < n := Nat.lt_of_succ_lt hordinal
  have hdest : min ordinal (d.working.length - 1) = ordinal := by
    have := h.length
    omega
  have hshift : d.shift ⟨ordinal + 1, ordinal⟩ = d.emit (.swap (ordinal + 1) ordinal) := by
    have hreorder : d.reorder (ordinal + 1) ordinal = d.emit (.swap (ordinal + 1) ordinal) := by
      simp [reorder, hdest]
    rw [← hreorder, shift, h.position hordinal, h.position hlt]
    rfl
  have hperform : d.perform (.rearrange reference target) =
      [⟨ordinal + 1, ordinal⟩].foldlM shift d := by
    rw [perform, Draft.rearrange, hr]
    rfl
  rw [hperform, List.foldlM_cons, hshift, h.emit_swap hordinal hlt]
  rfl

end Draft.Untouched

section

variable (hsize : cfg.sameSize = true) (hnames : cfg.compareNames = false)
  (hfront : front.map (·.type) = front'.map (·.type)) (hq : q.type = p₁.type)
  (hq₁ : q₁.type = p.type) (hne : p.type ≠ p₁.type)

include hsize hnames hfront hq hq₁ hne

theorem plan_exchanged_last :
    plan cfg (front ++ [p, p₁]) (front' ++ [q, q₁]) = [.swap p.ordinal p₁.ordinal] := by
  have hkeep : Round.keep? cfg p [p₁] [q, q₁] = none :=
    Round.keep_exchanged hq hq₁ hne hsize (by simp)
  have hnext : nextRound cfg p [p₁] [q, q₁] = ⟨[.swap p.ordinal p₁.ordinal], [], []⟩ := by
    simp only [nextRound, hkeep, Round.replace_exchanged_last hq hq₁ hne]
  rw [plan_behind_types hsize hnames hfront, plan_of_nextRound hnext, plan_nil_nil, List.append_nil]

/-- What follows may not start with the type that goes to the back: the three could then be in order
again without the one in front. -/
theorem plan_exchanged (hps : ps ≠ []) (hrest : ps.map (·.type) = qs.map (·.type))
    (hhead : ∀ p₂ ∈ ps.head?, p₂.type ≠ p.type) :
    plan cfg (front ++ p :: p₁ :: ps) (front' ++ q :: q₁ :: qs) =
      [.rearrange [p, p₁] [q, q₁]] := by
  rw [plan_behind_types hsize hnames hfront]
  exact plan_of_rearrange (Round.keep_exchanged hq hq₁ hne hsize hhead)
    (Round.replace_exchanged hq₁ hne hps) (Round.rearrange_exchanged hq hq₁ hne hrest)

end

section

variable {front back : List ValueType} {a b : ValueType}

theorem Placed.ofList_split_two (front back : List ValueType) (a b : ValueType) :
    ofList ((front ++ a :: b :: back).map .unnamed) =
      ofList (front.map .unnamed) ++ ⟨.unnamed a, front.length⟩ ::
        ⟨.unnamed b, front.length + 1⟩ :: ofListFrom (front.length + 2) (back.map .unnamed) := by
  rw [ofList_split, List.map_cons, ofListFrom_cons]

theorem diffReported_exchange_last (hne : a ≠ b) :
    diffReported .never ((front ++ [a, b]).map .unnamed) ((front ++ [b, a]).map .unnamed) =
      .ok ⟨[.swap front.length (front.length + 1)], []⟩ := by
  have hplan : plan ⟨true, false⟩ (Placed.ofList ((front ++ [a, b]).map .unnamed))
      (Placed.ofList ((front ++ [b, a]).map .unnamed)) =
        [.swap front.length (front.length + 1)] := by
    rw [Placed.ofList_split_two, Placed.ofList_split_two]
    exact plan_exchanged_last rfl rfl rfl rfl rfl hne
  have hlast : front.length + 1 < (front ++ [a, b]).length := by simp
  have hd := (Draft.initial_untouched _).swap (Nat.lt_of_succ_lt hlast) hlast
  exact diffReported_of_plan (by simp) hplan (List.forall_mem_singleton.2 ⟨rfl, rfl⟩)
    ((foldlM_single ..).trans hd)

theorem diffReported_exchange_before (hne : a ≠ b) (hnil : back ≠ [])
    (hback : back.head? ≠ some a) :
    diffReported .never ((front ++ a :: b :: back).map .unnamed)
        ((front ++ b :: a :: back).map .unnamed) =
      .ok ⟨[.swap (front.length + 1) front.length], []⟩ := by
  have hrest : Placed.ofListFrom (front.length + 2) (back.map .unnamed) ≠ [] := by
    simpa [Placed.ofListFrom] using hnil
  have hhead : ∀ p ∈ (Placed.ofListFrom (front.length + 2) (back.map .unnamed)).head?,
      p.type ≠ a := by
    obtain ⟨c, back, rfl⟩ := List.exists_cons_of_ne_nil hnil
    rw [List.map_cons, Placed.ofListFrom_cons]
    rintro p ⟨rfl⟩ rfl
    exact hback rfl
  let first : Placed := ⟨.unnamed a, front.length⟩
  let second : Placed := ⟨.unnamed b, front.length + 1⟩
  have hr : rearrangement [first, second] [⟨.unnamed b, front.length⟩,
      ⟨.unnamed a, front.length + 1⟩] = .ok ⟨[⟨front.length + 1, front.length⟩], false⟩ :=
    rearrangement_exchanged rfl rfl hne (Nat.ne_of_lt (Nat.lt_succ_self _))
  have hplan : plan ⟨true, false⟩ (Placed.ofList ((front ++ a :: b :: back).map .unnamed))
      (Placed.ofList ((front ++ b :: a :: back).map .unnamed)) = [.rearrange [first, second]
        [⟨.unnamed b, front.length⟩, ⟨.unnamed a, front.length + 1⟩]] := by
    rw [Placed.ofList_split_two, Placed.ofList_split_two]
    exact plan_exchanged rfl rfl rfl rfl rfl hne hrest rfl hhead
  have hd := (Draft.initial_untouched (front ++ a :: b :: back).length).rearrange (by simp) hr
  refine diffReported_of_plan (by simp) hplan (List.forall_mem_singleton.2 ⟨rfl, ?_⟩)
    ((foldlM_single ..).trans hd)
  simp [Stage.problem?, hr]

/-- Two neighbours that trade places are one swap, whatever stands around them, unless the type of
the first comes right behind them again. -/
theorem diffTypes_exchange (front : List ValueType) (hne : a ≠ b) (hback : back.head? ≠ some a) :
    ∃ edit, edit = (if back = [] then Edit.swap front.length (front.length + 1)
        else .swap (front.length + 1) front.length) ∧
      diffTypes (front ++ [a, b] ++ back) (front ++ [b, a] ++ back) = .ok [edit] ∧
      diffReported .never ((front ++ [a, b] ++ back).map .unnamed)
        ((front ++ [b, a] ++ back).map .unnamed) = .ok ⟨[edit], []⟩ := by
  have hreported : diffReported .never ((front ++ [a, b] ++ back).map .unnamed)
      ((front ++ [b, a] ++ back).map .unnamed) =
        .ok ⟨[if back = [] then .swap front.length (front.length + 1)
          else .swap (front.length + 1) front.length], []⟩ := by
    by_cases hnil : back = []
    · rw [if_pos hnil, hnil, List.append_nil, List.append_nil]
      exact diffReported_exchange_last hne
    · rw [if_neg hnil, List.append_assoc, List.append_assoc]
      exact diffReported_exchange_before hne hnil hback
  refine ⟨_, rfl, ?_, hreported⟩
  rw [diffTypes, diff, hreported]
  rfl

/-- Both types come before the two as well as behind them. -/
theorem diffTypes_exchange_amid_repeats :
    ValueType.int ≠ .long ∧ [ValueType.long, .int].head? ≠ some .int ∧
      diffTypes [.int, .long, .int, .long, .long, .int] [.int, .long, .long, .int, .long, .int] =
        .ok [.swap 3 2] := by
  have hne : ValueType.int ≠ .long := by decide
  have hback : [ValueType.long, .int].head? ≠ some .int := by decide
  obtain ⟨edit, rfl, hdiff, -⟩ := diffTypes_exchange [.int, .long] hne hback
  exact ⟨hne, hback, hdiff⟩

end

end Reparam
