import Reparam.Proofs.Slots.Lowering

/-! Reconciling when several locals were put in at once. They are gone through from the lowest on,
and each pushes what lies at or above it, newcomers among them. Of locals that declare the same, the
last ones in the table count as new. -/
namespace Reparam

variable {w : Widths} {b : Body} {new ds : List Declaration} {d : Declaration} {l : Local}
  {marked counted : List (Local × Bool)} {x y i : Nat}

theorem widthBelow_mono (ds : List Declaration) (h : x ≤ y) :
    widthBelow ds x ≤ widthBelow ds y := by
  induction ds with
  | nil => exact Nat.le_refl 0
  | cons d ds ih =>
    rw [widthBelow_cons, widthBelow_cons]
    split <;> split <;> omega

namespace Snapshot

/-- A slot that comes from another one has made room for all declarations up to it. -/
def Clears (new : List Declaration) (x y : Nat) : Prop := x + widthBelow new (y + 1) ≤ y

theorem Clears.le (h : Clears new x y) : x ≤ y := Nat.le_trans (Nat.le_add_right ..) h

theorem clears_cons (hd : d.slot ≤ x) :
    Clears (d :: new) x y ↔ Clears new (x + d.width) y := by
  unfold Clears
  rw [widthBelow_cons]
  split <;> omega

theorem clears_self_of_lt (h : ∀ d ∈ new, x < d.slot) : Clears new x x := by
  unfold Clears
  rw [widthBelow_eq_zero h]
  exact Nat.le_refl x

/-- From the lowest declaration on, a slot is pushed to the first one that clears all of them. -/
theorem foldl_moveUp_least (hsorted : ds.Pairwise fun d e => d.slot ≤ e.slot) :
    Clears ds x (ds.foldl moveUp x) ∧ ∀ y, Clears ds x y → ds.foldl moveUp x ≤ y := by
  induction ds generalizing x with
  | nil => exact ⟨Nat.le_refl x, fun y hy => hy⟩
  | cons d ds ih =>
    obtain ⟨hfirst, hsorted⟩ := List.pairwise_cons.1 hsorted
    rw [List.foldl_cons]
    by_cases hd : d.slot ≤ x
    · simp only [moveUp, if_pos hd, clears_cons hd]
      exact ih hsorted
    · -- the slot lies below all of them
      have hbelow : ∀ e ∈ ds, x < e.slot := fun e he => by
        have := hfirst e he
        omega
      have hstay := Nat.le_antisymm ((ih hsorted).2 x (clears_self_of_lt hbelow)) (ih hsorted).1.le
      rw [moveUp, if_neg hd, hstay]
      exact ⟨clears_self_of_lt (List.forall_mem_cons.2 ⟨by omega, hbelow⟩), fun y hy => hy.le⟩

/-- Where a slot goes when declarations are put in, from the lowest on. -/
def raised (new : List Declaration) (slot : Nat) : Nat :=
  (new.mergeSort fun d e => d.slot ≤ e.slot).foldl moveUp slot

theorem clears_perm (h : ds.Perm new) : Clears ds x y ↔ Clears new x y := by
  unfold Clears
  rw [widthBelow_perm h]

theorem raised_least (new : List Declaration) (x : Nat) :
    Clears new x (raised new x) ∧ ∀ y, Clears new x y → raised new x ≤ y := by
  have hleast := @foldl_moveUp_least _ x (pairwise_mergeSort_slot new)
  simp only [clears_perm (List.mergeSort_perm new _)] at hleast
  exact hleast

theorem le_raised (new : List Declaration) (x : Nat) : x ≤ raised new x := (raised_least new x).1.le

/-- It does not matter in which order declarations at one slot come. -/
theorem foldl_moveUp_eq (hperm : ds.Perm new) (hsorted : ds.Pairwise fun d e => d.slot ≤ e.slot)
    (x : Nat) : ds.foldl moveUp x = raised new x := by
  obtain ⟨hclears, hleast⟩ := @foldl_moveUp_least _ x hsorted
  obtain ⟨hclears', hleast'⟩ := raised_least new x
  exact Nat.le_antisymm (hleast _ ((clears_perm hperm).2 hclears'))
    (hleast' _ ((clears_perm hperm).1 hclears))

theorem raised_perm (h : ds.Perm new) (x : Nat) : raised ds x = raised new x :=
  foldl_moveUp_eq ((List.mergeSort_perm ..).trans h) (pairwise_mergeSort_slot ds) x

/-- What lies below all newcomers stays, and nothing else does. -/
theorem raised_eq_self_iff (hpos : ∀ d ∈ new, 0 < d.width) :
    raised new x = x ↔ ∀ d ∈ new, x < d.slot := by
  obtain ⟨hclears, hleast⟩ := raised_least new x
  constructor
  · intro hstay d hd
    by_contra hle
    have hsplit := List.perm_cons_erase hd
    rw [hstay, clears_perm hsplit, clears_cons (by omega)] at hclears
    have := hclears.le
    have := hpos d hd
    omega
  · intro hbelow
    exact Nat.le_antisymm (hleast x (clears_self_of_lt hbelow)) hclears.le

/-- What lies at or above a newcomer ends up behind it, wherever the others push the two. -/
theorem raised_add_le (hd : d.slot ≤ x) : raised ds d.slot + d.width ≤ raised (d :: ds) x := by
  obtain ⟨hclears, -⟩ := raised_least (d :: ds) x
  obtain ⟨-, hleast⟩ := raised_least ds d.slot
  generalize raised (d :: ds) x = y at hclears
  have hroom : x + d.width + widthBelow ds (y + 1) ≤ y := (clears_cons hd).1 hclears
  have hmono : widthBelow ds (y - d.width + 1) ≤ widthBelow ds (y + 1) :=
    widthBelow_mono ds (by omega)
  have hfirst : Clears ds d.slot (y - d.width) := by
    unfold Clears
    omega
  have hle := hleast _ hfirst
  omega

end Snapshot

/-! Tables that were put together from older locals and newcomers. Each local is marked with whether
it is a newcomer. -/

/-- The locals that were there before. -/
def olderLocals (marked : List (Local × Bool)) : List Local :=
  (marked.filter fun p => !p.2).map (·.1)

/-- What the newcomers declare. -/
def newcomers (w : Widths) (marked : List (Local × Bool)) : List Declaration :=
  (marked.filter (·.2)).map (·.1.declaration w)

theorem newcomers_perm (h : marked.Perm counted) :
    (newcomers w marked).Perm (newcomers w counted) := (h.filter _).map _

theorem width_pos_of_newcomer (hpos : ∀ p ∈ marked, p.2 = true → 0 < w p.1.type)
    (hd : d ∈ newcomers w marked) : 0 < d.width := by
  obtain ⟨p, hp, rfl⟩ := List.mem_map.1 hd
  obtain ⟨hp, hnew⟩ := List.mem_filter.1 hp
  exact hpos p hp hnew

theorem declarations_marked_perm (w : Widths) (marked : List (Local × Bool)) :
    ((marked.map (·.1)).map (·.declaration w)).Perm
      (newcomers w marked ++ (olderLocals marked).map (·.declaration w)) := by
  have hsplit := (List.filter_append_perm (·.2) marked).symm.map (·.1.declaration w)
  rw [List.map_append] at hsplit
  rw [olderLocals, newcomers, List.map_map, List.map_map]
  exact hsplit

namespace Snapshot

/-- Marks the locals of a table that are left when each older declaration took out one match. -/
def mark (w : Widths) : List Local → List Declaration → List (Local × Bool)
  | [], _ => []
  | l :: locals, pending =>
    if l.declaration w ∈ pending then (l, false) :: mark w locals (pending.erase (l.declaration w))
    else (l, true) :: mark w locals pending

theorem map_mark (locals : List Local) (pending : List Declaration) :
    (mark w locals pending).map (·.1) = locals := by
  induction locals generalizing pending with
  | nil => rfl
  | cons l locals ih =>
    rw [mark]
    split <;> rw [List.map_cons, ih]

theorem unmatched_eq_mark (locals : List Local) (pending : List Declaration) (base : Nat) :
    unmatched Prod.fst ((locals.map (·.declaration w)).zipIdx base) pending =
      (((mark w locals pending).zipIdx base).filter (·.1.2)).map
        fun q => (q.1.1.declaration w, q.2) := by
  induction locals generalizing pending base with
  | nil => rfl
  | cons l locals ih =>
    rw [List.map_cons, List.zipIdx_cons, unmatched, mark]
    split
    · rw [List.zipIdx_cons, List.filter_cons_of_neg (by simp), ih]
    · rw [List.zipIdx_cons, List.filter_cons_of_pos rfl, List.map_cons, ih]

theorem mark_perm {pending pending' : List Declaration} (h : pending.Perm pending')
    (locals : List Local) : mark w locals pending = mark w locals pending' := by
  induction locals generalizing pending pending' with
  | nil => rfl
  | cons l locals ih =>
    rw [mark, mark, ih h, ih (h.erase _)]
    simp only [h.mem_iff]

/-- No newcomer stands in front of an older local that declares the same. -/
def Told (w : Widths) (marked : List (Local × Bool)) : Prop :=
  marked.Pairwise fun p q => p.2 = true → q.2 = false → p.1.declaration w ≠ q.1.declaration w

/-- Newcomers that can be told are marked as such. -/
theorem mark_eq_of_told (h : Told w marked) :
    mark w (marked.map (·.1)) ((olderLocals marked).map (·.declaration w)) = marked := by
  induction marked with
  | nil => rfl
  | cons p marked ih =>
    obtain ⟨hp, hrest⟩ := List.pairwise_cons.1 h
    obtain ⟨l, new⟩ := p
    cases new with
    | false =>
      have hhead : olderLocals ((l, false) :: marked) = l :: olderLocals marked := rfl
      rw [hhead, List.map_cons, List.map_cons, mark, if_pos List.mem_cons_self,
        List.erase_cons_head, ih hrest]
    | true =>
      have hhead : olderLocals ((l, true) :: marked) = olderLocals marked := rfl
      have hnot : l.declaration w ∉ (olderLocals marked).map (·.declaration w) := by
        intro hm
        obtain ⟨l', hl', hsame⟩ := List.mem_map.1 hm
        obtain ⟨⟨l'', new⟩, hq, rfl⟩ := List.mem_map.1 hl'
        obtain ⟨hq, hnew⟩ := List.mem_filter.1 hq
        exact hp _ hq rfl (by simpa using hnew) hsame.symm
      rw [hhead, List.map_cons, mark, if_neg hnot, ih hrest]

/-! What moves for whom. -/

theorem filter_zipIdx_ne {α : Type} (xs : List α) (i base : Nat) :
    ((xs.zipIdx base).filter (·.2 ≠ base + i)).map (·.1) = xs.eraseIdx i := by
  induction xs generalizing i base with
  | nil => rfl
  | cons p xs ih =>
    rw [List.zipIdx_cons]
    cases i with
    | zero =>
      have hlater : ∀ q ∈ xs.zipIdx (base + 1), q.2 ≠ base + 0 := fun q hq => by
        have := (List.mem_zipIdx hq).1
        omega
      rw [List.filter_cons_of_neg (by simp),
        List.filter_eq_self.2 fun q hq => by simpa using hlater q hq, List.zipIdx_map_fst,
        List.eraseIdx_cons_zero]
    | succ i =>
      have hrest := ih i (base + 1)
      rw [Nat.add_right_comm, Nat.add_assoc] at hrest
      rw [List.filter_cons_of_pos (by simp), List.map_cons, hrest, List.eraseIdx_cons_succ]

theorem shift_none (added : List (Declaration × Nat)) :
    Changes.shift ⟨[], added⟩ none x = (added.map (·.1)).foldl moveUp x := by
  rw [List.foldl_map]
  rfl

theorem shift_some (added : List (Declaration × Nat)) (i : Nat) :
    Changes.shift ⟨[], added⟩ (some i) x =
      ((added.filter (·.2 ≠ i)).map (·.1)).foldl moveUp x := by
  simp only [Changes.shift, List.foldl_nil]
  induction added generalizing x with
  | nil => rfl
  | cons q added ih =>
    by_cases hq : q.2 = i
    · rw [List.foldl_cons, if_pos (congrArg some hq), List.filter_cons_of_neg (by simpa using hq),
        ih]
    · rw [List.foldl_cons, if_neg (by simpa using hq), List.filter_cons_of_pos (by simpa using hq),
        ih, List.map_cons, List.foldl_cons]

theorem newcomers_eraseIdx (w : Widths) (counted : List (Local × Bool)) (i : Nat) :
    newcomers w (counted.eraseIdx i) =
      (((counted.zipIdx.filter (·.1.2)).map fun q => (q.1.1.declaration w, q.2)).filter
        (·.2 ≠ i)).map (·.1) := by
  have hrest := filter_zipIdx_ne counted i 0
  rw [Nat.zero_add] at hrest
  rw [newcomers, ← hrest, List.filter_map, List.filter_map, List.map_map, List.map_map,
    List.filter_filter, List.filter_filter]
  refine congrArg (List.map _) (List.filter_congr fun q _ => ?_)
  exact Bool.and_comm ..

theorem newcomers_eq (w : Widths) (counted : List (Local × Bool)) :
    newcomers w counted =
      ((counted.zipIdx.filter (·.1.2)).map fun q => (q.1.1.declaration w, q.2)).map (·.1) := by
  conv_lhs => rw [newcomers, ← List.zipIdx_map_fst 0 counted, List.filter_map, List.map_map]
  rw [List.map_map]
  rfl

/-- What the newcomers of a table change: those that count as new push everything but themselves. -/
theorem changes_marked (hb : b.locals = olderLocals marked) :
    let counted := mark w (marked.map (·.1)) (declarations w b)
    let changes := (take w b).changes w { b with locals := marked.map (·.1) }
    (newcomers w counted).Perm (newcomers w marked) ∧
      (∀ x, changes.shift none x = raised (newcomers w marked) x) ∧
      ∀ i x, changes.shift (some i) x = raised (newcomers w (counted.eraseIdx i)) x := by
  intro counted changes
  have hdeclared : (declarations w { b with locals := marked.map (·.1) }).Perm
      (newcomers w marked ++ declarations w b) := by
    rw [declarations, declarations, hb]
    exact declarations_marked_perm w marked
  obtain ⟨hchanges, hadded⟩ := changes_of_put hdeclared
  have hpairs := @unmatched_eq_mark w (marked.map (·.1)) (take w b).locals 0
  rw [mark_perm (take_locals_perm w b)] at hpairs
  let pairs := (counted.zipIdx.filter (·.1.2)).map fun q => (q.1.1.declaration w, q.2)
  have hchanges : changes = ⟨[], pairs.mergeSort fun d e => d.1.slot ≤ e.1.slot⟩ :=
    hchanges.trans (congrArg (fun ps => Changes.mk [] (List.mergeSort ps _)) hpairs)
  have hperm := List.mergeSort_perm pairs fun d e => d.1.slot ≤ e.1.slot
  have hsorted := pairwise_mergeSort_key (fun d : Declaration × Nat => d.1.slot) pairs
  have hcounted : (newcomers w counted).Perm (newcomers w marked) := by
    rw [newcomers_eq]
    exact .trans (.of_eq (congrArg (List.map _) hpairs.symm)) hadded
  refine ⟨hcounted, fun x => ?_, fun i x => ?_⟩
  · rw [hchanges, shift_none]
    refine foldl_moveUp_eq ((hperm.map _).trans ?_) (List.pairwise_map.2 hsorted) x
    rw [← newcomers_eq]
    exact hcounted
  · rw [hchanges, shift_some, newcomers_eraseIdx]
    exact foldl_moveUp_eq ((hperm.filter _).map _) (List.pairwise_map.2 (hsorted.filter _)) x

end Snapshot

open Snapshot

/-- Locals that are put into a table at once push what lies at or above them, one after the other
from the lowest on, but not themselves. What was at or above a newcomer ends up behind it. The
newcomer stays if and only if no other one was put in at its slot or below. A newcomer in front of
an older local that declares the same counts as the older one, and the older one as new. -/
theorem reconcile_raises (hb : b.locals = olderLocals marked)
    (hpos : ∀ p ∈ marked, p.2 = true → 0 < w p.1.type) :
    let counted := mark w (marked.map (·.1)) (declarations w b)
    counted.map (·.1) = marked.map (·.1) ∧
      (newcomers w counted).Perm (newcomers w marked) ∧ (Told w marked → counted = marked) ∧
      (take w b).reconcile w { b with locals := marked.map (·.1) } = { b with
        locals := counted.zipIdx.map fun (p, i) =>
          { p.1 with slot := raised (newcomers w (counted.eraseIdx i)) p.1.slot }
        code := b.code.remap (settled (raised (newcomers w marked))) } ∧
      (∀ (i : Nat) l, counted[i]? = some (l, false) →
        raised (newcomers w (counted.eraseIdx i)) l.slot = raised (newcomers w marked) l.slot) ∧
      ∀ (i : Nat) l, counted[i]? = some (l, true) →
        let others := newcomers w (counted.eraseIdx i)
        (raised others l.slot = l.slot ↔ ∀ d ∈ others, l.slot < d.slot) ∧
          l.slot ≤ raised others l.slot ∧
          ∀ x, l.slot ≤ x → raised others l.slot + w l.type ≤ raised (newcomers w marked) x := by
  intro counted
  obtain ⟨hcounted, hnone, hsome⟩ := changes_marked (w := w) hb
  have htable : counted.map (·.1) = marked.map (·.1) := map_mark ..
  have herase : ∀ (i : Nat) l new, counted[i]? = some (l, new) →
      (newcomers w marked).Perm (newcomers w ((l, new) :: counted.eraseIdx i)) :=
    fun i l new hi => hcounted.symm.trans (newcomers_perm (perm_cons_eraseIdx hi))
  refine ⟨htable, hcounted, fun htold => ?_, ?_, fun i l hi => ?_, fun i l hi => ?_⟩
  · have hdeclared : declarations w b = (olderLocals marked).map (·.declaration w) := by
      rw [declarations, hb]
    exact (congrArg (mark w _) hdeclared).trans (mark_eq_of_told htold)
  · have hcode := @remap_remapping w b ((take w b).changes w { b with locals := marked.map (·.1) })
      b.code fun i hi slot hslot _ => ⟨i, hi, hslot⟩
    have hsettled := congrArg (fun f => b.code.remap (settled f)) (funext hnone)
    rw [reconcile]
    refine congrArg₂ (fun locals code => { b with locals, code }) ?_ (hcode.trans hsettled)
    have hindexed : (marked.map (·.1)).zipIdx = counted.zipIdx.map (Prod.map (·.1) id) := by
      rw [← htable, List.zipIdx_map]
    rw [hindexed, List.map_map]
    refine List.map_congr_left fun q _ => ?_
    exact congrArg (fun slot => { q.1.1 with slot }) (hsome q.2 q.1.1.slot)
  · exact raised_perm (herase i l false hi).symm _
  · intro others
    have hothers : ∀ d ∈ others, 0 < d.width := fun d hd => by
      refine width_pos_of_newcomer hpos ((herase i l true hi).symm.subset ?_)
      exact List.mem_cons_of_mem _ hd
    refine ⟨raised_eq_self_iff hothers, le_raised .., fun x hx => ?_⟩
    rw [raised_perm (herase i l true hi)]
    exact raised_add_le (d := l.declaration w) hx

/-- A wide local comes in below an older one, and another one above. -/
theorem reconcile_raises_on_two :
    let older : Local := ⟨"x", .int, 0, {}⟩
    let b : Body := ⟨⟨[], none, true⟩, [older], [.load 0 .int, .ret]⟩
    (take standardWidths b).reconcile standardWidths
        { b with locals := [⟨"y", .long, 0, {}⟩, older, ⟨"z", .int, 3, {}⟩] } =
      { b with
        locals := [⟨"y", .long, 0, {}⟩, { older with slot := 2 }, ⟨"z", .int, 5, {}⟩]
        code := [.load 2 .int, .ret] } := by
  intro older b
  obtain ⟨-, -, -, hresult, -⟩ := @reconcile_raises standardWidths b
    [(⟨"y", .long, 0, {}⟩, true), (older, false), (⟨"z", .int, 3, {}⟩, true)] rfl (by decide)
  have hlow : raised [⟨"z", .int, 3, 1⟩] 0 = 0 := by
    rw [raised, List.mergeSort_singleton]
    rfl
  have hboth : raised [⟨"y", .long, 0, 2⟩, ⟨"z", .int, 3, 1⟩] 0 = 2 := by
    rw [raised, List.mergeSort_of_pairwise (by decide)]
    rfl
  have hhigh : raised [⟨"y", .long, 0, 2⟩] 3 = 5 := by
    rw [raised, List.mergeSort_singleton]
    rfl
  have hload : settled (raised [⟨"y", .long, 0, 2⟩, ⟨"z", .int, 3, 1⟩]) 0 = 2 := by
    rw [settled, if_neg (by decide), hboth]
  refine hresult.trans ?_
  change Body.mk _ [⟨"y", .long, raised [⟨"z", .int, 3, 1⟩] 0, {}⟩,
    ⟨"x", .int, raised [⟨"y", .long, 0, 2⟩, ⟨"z", .int, 3, 1⟩] 0, {}⟩,
    ⟨"z", .int, raised [⟨"y", .long, 0, 2⟩] 3, {}⟩]
    [.load (settled (raised [⟨"y", .long, 0, 2⟩, ⟨"z", .int, 3, 1⟩]) 0) .int, .ret] = _
  rw [hlow, hboth, hhigh, hload]

/-- Of two newcomers one above the other, the upper one is pushed by the lower. -/
theorem reconcile_pushes_newcomer : ¬ ∀ (b : Body) (marked : List (Local × Bool)),
    b.locals = olderLocals marked → (∀ p ∈ marked, isReserved p.1.slot = false) →
    let after := (take standardWidths b).reconcile standardWidths
      { b with locals := marked.map (·.1) }
    ∀ (i : Nat) l, marked[i]? = some (l, true) →
      after.locals[i]?.map (·.slot) = some l.slot := by
  intro h
  let b : Body := ⟨⟨[], none, true⟩, [], [.ret]⟩
  let marked : List (Local × Bool) := [(⟨"x", .int, 0, {}⟩, true), (⟨"y", .int, 1, {}⟩, true)]
  have hstays := h b marked rfl (by decide) 1 _ rfl
  obtain ⟨-, -, hshift⟩ := @changes_marked standardWidths b marked rfl
  have hpushed : raised [⟨"x", .int, 0, 1⟩] 1 = 2 := by
    rw [raised, List.mergeSort_singleton]
    rfl
  change some (Changes.shift _ (some 1) 1) = some 1 at hstays
  rw [hshift 1 1] at hstays
  change some (raised [⟨"x", .int, 0, 1⟩] 1) = some 1 at hstays
  rw [hpushed] at hstays
  cases hstays

end Reparam
