import Mathlib.Algebra.GroupWithZero.Nat
import Reparam.Proofs.Apply.Placing
import Reparam.Proofs.Slots.Reconciling

/-! Reconciling when several locals were taken out at once. They are gone through from the lowest on,
and each is compared by its old slot with slots that the others have moved already, so one that lies
right above others that are gone may move nothing. -/
namespace Reparam

variable {w : Widths} {b b' : Body} {gone : List Declaration} {d : Declaration}
  {dropped : List Local} {x y base : Nat} {park : Nat → Nat}

/-- The slots that declarations below a slot take together. -/
def widthBelow (gone : List Declaration) (slot : Nat) : Nat :=
  ((gone.filter (·.slot < slot)).map (·.width)).sum

@[simp] theorem widthBelow_nil (x : Nat) : widthBelow [] x = 0 := rfl

theorem widthBelow_cons (d : Declaration) (gone : List Declaration) (x : Nat) :
    widthBelow (d :: gone) x = (if d.slot < x then d.width else 0) + widthBelow gone x := by
  by_cases h : d.slot < x <;> simp [widthBelow, h]

theorem widthBelow_perm {gone' : List Declaration} (h : gone.Perm gone') (x : Nat) :
    widthBelow gone x = widthBelow gone' x := ((h.filter _).map _).sum_nat

theorem widthBelow_eq_zero (h : ∀ d ∈ gone, x ≤ d.slot) : widthBelow gone x = 0 := by
  have hnone : gone.filter (·.slot < x) = [] :=
    List.filter_eq_nil_iff.2 fun d hd => by simpa using h d hd
  rw [widthBelow, hnone]
  rfl

/-- Declarations one above the other that end below a slot have room there. -/
theorem widthBelow_le (hsorted : gone.Pairwise fun d e => d.slot + d.width ≤ e.slot)
    (hbase : ∀ d ∈ gone, base ≤ d.slot) (hends : ∀ d ∈ gone, d.slot < x → d.slot + d.width ≤ x)
    (hx : base ≤ x) : base + widthBelow gone x ≤ x := by
  induction gone generalizing base with
  | nil => simpa using hx
  | cons d gone ih =>
    obtain ⟨hfirst, hsorted⟩ := List.pairwise_cons.1 hsorted
    obtain ⟨hbased, hbase⟩ := List.forall_mem_cons.1 hbase
    obtain ⟨hend, hends⟩ := List.forall_mem_cons.1 hends
    rw [widthBelow_cons]
    split
    · have hrest := ih hsorted hfirst hends (hend ‹_›)
      omega
    · have hrest := ih hsorted hbase hends hx
      omega

namespace Snapshot

/-- No slot is lowered by more than the declarations below it take. -/
theorem le_foldl_moveDown (gone : List Declaration) (hy : y ≤ x) :
    y ≤ gone.foldl moveDown y + widthBelow gone x := by
  induction gone generalizing y with
  | nil => exact Nat.le_refl y
  | cons d gone ih =>
    rw [List.foldl_cons, widthBelow_cons]
    by_cases hd : d.slot < y
    · have hrest := @ih (y - d.width) (by omega)
      rw [moveDown, if_pos hd, if_pos (Nat.lt_of_lt_of_le hd hy)]
      omega
    · have hrest := ih hy
      rw [moveDown, if_neg hd]
      omega

/-- A slot that has come down from `x` to `y` comes down by all that is still to go below `x` if and
only if each declaration still lies below it when its turn comes. -/
theorem foldl_moveDown_eq_iff (hsorted : gone.Pairwise fun d e => d.slot < e.slot)
    (hpos : ∀ d ∈ gone, 0 < d.width) (hy : y ≤ x) (hle : widthBelow gone x ≤ y) :
    gone.foldl moveDown y = y - widthBelow gone x ↔
      ∀ d ∈ gone, d.slot < x → d.slot + (x - y) + widthBelow gone d.slot < x := by
  induction gone generalizing y with
  | nil => simp
  | cons d gone ih =>
    obtain ⟨hfirst, hsorted⟩ := List.pairwise_cons.1 hsorted
    obtain ⟨hwidth, hpos⟩ := List.forall_mem_cons.1 hpos
    have hlowest : widthBelow (d :: gone) d.slot = 0 := by
      refine widthBelow_eq_zero (List.forall_mem_cons.2 ⟨Nat.le_refl _, fun e he => ?_⟩)
      exact Nat.le_of_lt (hfirst e he)
    have hlater : ∀ e ∈ gone, widthBelow (d :: gone) e.slot = d.width + widthBelow gone e.slot :=
      fun e he => by rw [widthBelow_cons, if_pos (hfirst e he)]
    rw [List.forall_mem_cons, hlowest, List.foldl_cons]
    rw [widthBelow_cons] at hle ⊢
    by_cases hx : d.slot < x
    · rw [if_pos hx] at hle ⊢
      by_cases hd : d.slot < y
      · have hrest := @ih (y - d.width) hsorted hpos (by omega) (by omega)
        rw [moveDown, if_pos hd, ← Nat.sub_sub, hrest]
        constructor
        · intro h
          refine ⟨fun _ => by omega, fun e he hlt => ?_⟩
          have hroom := h e he hlt
          rw [hlater e he]
          omega
        · rintro ⟨-, h⟩ e he hlt
          have hroom := h e he hlt
          rw [hlater e he] at hroom
          omega
      · -- passed over, and nothing later makes up for it
        have hbound := le_foldl_moveDown gone hy
        rw [moveDown, if_neg hd]
        constructor
        · intro h
          omega
        · rintro ⟨h, -⟩
          have hroom := h hx
          omega
    · have hnone : ∀ e ∈ gone, ¬ e.slot < x := fun e he => by
        have := hfirst e he
        omega
      have hrest := @ih y hsorted hpos hy (by rw [if_neg hx] at hle; omega)
      rw [moveDown, if_neg (by omega), if_neg hx, Nat.zero_add, hrest]
      constructor
      · exact fun _ => ⟨fun h => (hx h).elim, fun e he hlt => (hnone e he hlt).elim⟩
      · exact fun _ e he hlt => (hnone e he hlt).elim

end Snapshot

/-- Declarations that share no slot. -/
def Declaration.Apart (d e : Declaration) : Prop :=
  d.slot + d.width ≤ e.slot ∨ e.slot + e.width ≤ d.slot

instance (d e : Declaration) : Decidable (d.Apart e) := inferInstanceAs (Decidable (_ ∨ _))

theorem Declaration.Apart.symm {e : Declaration} (h : d.Apart e) : e.Apart d := Or.symm h

/-- From the lowest on, declarations that share no slot stand one above the other. -/
theorem stacked_of_sorted (hsorted : gone.Pairwise fun d e => d.slot ≤ e.slot)
    (hapart : gone.Pairwise Declaration.Apart) (hpos : ∀ d ∈ gone, 0 < d.width) :
    gone.Pairwise fun d e => d.slot + d.width ≤ e.slot := by
  refine (hsorted.and hapart).imp_of_mem fun hd he ⟨hle, hapart⟩ => ?_
  have hwidth := hpos _ he
  rcases hapart with h | h
  · exact h
  · omega

namespace Snapshot

/-- Where a slot goes when declarations are taken out, from the lowest on. -/
def lowered (gone : List Declaration) (slot : Nat) : Nat :=
  (gone.mergeSort fun d e => d.slot ≤ e.slot).foldl moveDown slot

theorem stacked_mergeSort (hapart : gone.Pairwise Declaration.Apart)
    (hpos : ∀ d ∈ gone, 0 < d.width) :
    (gone.mergeSort fun d e => d.slot ≤ e.slot).Pairwise fun d e => d.slot + d.width ≤ e.slot :=
  stacked_of_sorted (pairwise_mergeSort_slot gone)
    (((List.mergeSort_perm ..).pairwise_iff Declaration.Apart.symm).2 hapart)
    fun d hd => hpos d ((List.mergeSort_perm ..).subset hd)

theorem eq_mergeSort {removed : List Declaration} (hperm : removed.Perm gone)
    (hsorted : removed.Pairwise fun d e => d.slot ≤ e.slot)
    (hapart : gone.Pairwise Declaration.Apart) (hpos : ∀ d ∈ gone, 0 < d.width) :
    removed = gone.mergeSort fun d e => d.slot ≤ e.slot := by
  have hstacked := stacked_of_sorted hsorted ((hperm.pairwise_iff Declaration.Apart.symm).2 hapart)
    fun d hd => hpos d (hperm.subset hd)
  refine List.Perm.eq_of_pairwise ?_ hstacked (stacked_mergeSort hapart hpos)
    (hperm.trans (List.mergeSort_perm ..).symm)
  intro d e hd he hde hed
  have hwidth := hpos d (hperm.subset hd)
  omega

/-- A slot is lowered by all that is taken out below it if and only if, for each declaration there,
those further down take less than there is from the one up to the slot. -/
theorem lowered_eq_iff (hapart : gone.Pairwise Declaration.Apart)
    (hpos : ∀ d ∈ gone, 0 < d.width) (hends : ∀ d ∈ gone, d.slot < x → d.slot + d.width ≤ x) :
    x - widthBelow gone x ≤ lowered gone x ∧
      (lowered gone x = x - widthBelow gone x ↔
        ∀ d ∈ gone, d.slot < x → d.slot + widthBelow gone d.slot < x) := by
  have hperm := List.mergeSort_perm gone fun d e => d.slot ≤ e.slot
  have hstacked := stacked_mergeSort hapart hpos
  have hbelow (y : Nat) := widthBelow_perm hperm y
  have hmem (d : Declaration) := hperm.mem_iff (a := d)
  unfold lowered
  generalize gone.mergeSort (fun d e => d.slot ≤ e.slot) = sorted at hstacked hbelow hmem
  simp only [← hmem] at hpos hends
  have hle := widthBelow_le hstacked (fun _ _ => Nat.zero_le _) hends (Nat.zero_le x)
  have hstrict : sorted.Pairwise fun d e => d.slot < e.slot := by
    refine hstacked.imp_of_mem fun hd _ hstop => ?_
    have hwidth := hpos _ hd
    omega
  have hbound := le_foldl_moveDown sorted (Nat.le_refl x)
  have hiff := foldl_moveDown_eq_iff hstrict hpos (Nat.le_refl x) (by omega)
  simp only [Nat.sub_self, Nat.add_zero] at hiff
  simp only [← hbelow, ← hmem]
  exact ⟨by omega, hiff⟩

/-- Locals that are only taken out lower what stands above them. -/
theorem reconcile_dropped (hapart : gone.Pairwise Declaration.Apart)
    (hpos : ∀ d ∈ gone, 0 < d.width) (h : (declarations w b).Perm (gone ++ declarations w b'))
    (hc : ∀ i ∈ b'.code, ∀ slot, i.slot? = some slot → isReserved slot = false →
      ∃ j ∈ b.code, j.slot? = some slot) :
    (take w b).reconcile w b' = { b' with
      locals := b'.locals.map fun l => { l with slot := lowered gone l.slot }
      code := b'.code.remap (settled (lowered gone)) } := by
  obtain ⟨removed, hchanges, hperm, hsorted⟩ := changes_of_dropped h
  have hshift (self : Option Nat) : Changes.shift ⟨removed, []⟩ self = lowered gone := by
    rw [eq_mergeSort hperm hsorted hapart hpos]
    rfl
  simp only [reconcile, remap_remapping hc, hchanges, hshift]
  congr 1
  conv_rhs => rw [← List.zipIdx_map_fst 0 b'.locals, List.map_map]
  rfl

end Snapshot

open Snapshot

/-- Locals that are taken out of a table at once lower what is left, locals and operands in reach
alike. A slot comes down by what the locals below it took together, if for each of them those
further down take less than there is from it up to the slot, and by less otherwise. References that
were parked stay where they are. -/
theorem reconcile_lowers (hapart : (declarations w b).Pairwise Declaration.Apart)
    (hstarts : ∀ i ∈ b.code, ∀ x, i.slot? = some x → isReserved x = false →
      ∃ l ∈ b.locals, l.slot = x)
    (hlocals : b.locals.Perm (dropped ++ b'.locals)) (hpos : ∀ l ∈ dropped, 0 < w l.type)
    (hcode : b'.code = b.code.remap park)
    (hparked : ∀ l ∈ dropped, isReserved (park l.slot) = true)
    (hkept : ∀ x, (∀ l ∈ dropped, l.slot ≠ x) → park x = x) :
    let gone := dropped.map (·.declaration w)
    (take w b).reconcile w b' = { b' with
      locals := b'.locals.map fun l => { l with slot := lowered gone l.slot }
      code := b'.code.remap (settled (lowered gone)) } ∧
    ∀ x, (∃ l ∈ b'.locals, l.slot = x) ∨
        (∃ i ∈ b'.code, i.slot? = some x ∧ isReserved x = false) →
      x - widthBelow gone x ≤ lowered gone x ∧
      (lowered gone x = x - widthBelow gone x ↔
        ∀ d ∈ gone, d.slot < x → d.slot + widthBelow gone d.slot < x) := by
  intro gone
  have hdeclared : (declarations w b).Perm (gone ++ declarations w b') := by
    simpa [declarations, gone] using hlocals.map (·.declaration w)
  obtain ⟨hgone, -, hacross⟩ :=
    List.pairwise_append.1 ((hdeclared.pairwise_iff Declaration.Apart.symm).1 hapart)
  have hwidths : ∀ d ∈ gone, 0 < d.width := by
    rintro d hd
    obtain ⟨l, hl, rfl⟩ := List.mem_map.1 hd
    exact hpos l hl
  -- an operand in reach was there before, at no local that is taken out
  have hoperand : ∀ i ∈ b'.code, ∀ x, i.slot? = some x → isReserved x = false →
      (∃ j ∈ b.code, j.slot? = some x) ∧ ∀ l ∈ dropped, l.slot ≠ x := by
    intro i hi x hx hreserved
    rw [hcode] at hi
    obtain ⟨j, hj, y, hy, rfl⟩ := Code.exists_of_mem_remap hi hx
    have hout : ∀ l ∈ dropped, l.slot ≠ y := by
      rintro l hl rfl
      rw [hparked l hl] at hreserved
      cases hreserved
    rw [hkept y hout]
    exact ⟨⟨j, hj, hy⟩, hout⟩
  refine ⟨reconcile_dropped hgone hwidths hdeclared
    fun i hi x hx hreserved => (hoperand i hi x hx hreserved).1, fun x hx => ?_⟩
  obtain ⟨l, hl, rfl⟩ : ∃ l ∈ b'.locals, l.slot = x := by
    rcases hx with hx | ⟨i, hi, hx, hreserved⟩
    · exact hx
    · obtain ⟨⟨j, hj, hjx⟩, hout⟩ := hoperand i hi x hx hreserved
      obtain ⟨l, hl, rfl⟩ := hstarts j hj x hjx hreserved
      refine ⟨l, (List.mem_append.1 (hlocals.subset hl)).resolve_left fun hd => ?_, rfl⟩
      exact hout l hd rfl
  refine lowered_eq_iff hgone hwidths fun d hd hlt => ?_
  rcases hacross d hd (l.declaration w) (List.mem_map_of_mem hl) with h | h
  · exact h
  · exact absurd hlt (Nat.not_lt_of_le (Nat.le_trans (Nat.le_add_right ..) h))

/-- Reads the first and the last of three locals. -/
def readsLast (second : ValueType) (last : Nat) : Body where
  signature := ⟨[], none, true⟩
  locals := [⟨"a", .int, 0, {}⟩, ⟨"b", second, 1, {}⟩, ⟨"c", .int, last, {}⟩]
  code := [.load 0 .int, .load last .int, .ret]

/-- The first two are taken out, and the reference to the first is parked. -/
def keepsLast (last : Nat) : Body where
  signature := ⟨[], none, true⟩
  locals := [⟨"c", .int, last, {}⟩]
  code := [.load unreachableSlot .int, .load last .int, .ret]

/-- References to the first two locals are parked. -/
def parkFirst (slot : Nat) : Nat := if slot < 2 then unreachableSlot else slot

theorem parkFirst_of_ne {l l' : Local} (h : l.slot = 0) (h' : l'.slot = 1)
    (hx : ∀ k ∈ [l, l'], k.slot ≠ x) : parkFirst x = x := by
  have h0 := hx l (by simp)
  have h1 := hx l' (by simp)
  exact if_neg (by omega)

theorem readsLast_starts (second : ValueType) (last : Nat) :
    ∀ i ∈ (readsLast second last).code, ∀ x, i.slot? = some x → isReserved x = false →
      ∃ l ∈ (readsLast second last).locals, l.slot = x := by
  simp [readsLast, Instruction.slot?]

/-- Above a wide local, the last one comes down by the widths of both. -/
theorem reconcile_lowers_on_wide :
    (take standardWidths (readsLast .long 3)).reconcile standardWidths (keepsLast 3) =
      keepsLast 0 := by
  let gone : List Declaration := [⟨"a", .int, 0, 1⟩, ⟨"b", .long, 1, 2⟩]
  obtain ⟨hresult, hslots⟩ := @reconcile_lowers standardWidths (readsLast .long 3) (keepsLast 3)
    [⟨"a", .int, 0, {}⟩, ⟨"b", .long, 1, {}⟩] parkFirst (by decide) (readsLast_starts .long 3)
    (by decide) (by decide) rfl (by decide) fun x hx => parkFirst_of_ne rfl rfl hx
  have hlast : lowered gone 3 = 0 :=
    (hslots 3 (.inl ⟨_, List.mem_singleton_self _, rfl⟩)).2.2 (by decide)
  have hload : settled (lowered gone) 3 = 0 := by rw [settled, if_neg (by decide), hlast]
  refine hresult.trans ?_
  change Body.mk _ [⟨"c", .int, lowered gone 3, {}⟩]
    [.load unreachableSlot .int, .load (settled (lowered gone) 3) .int, .ret] = _
  rw [hlast, hload]
  rfl

/-- Above a narrow local it comes down by the width of the first only. -/
theorem reconcile_skips_neighbour : ¬ ∀ (b b' : Body) (dropped : List Local) (park : Nat → Nat),
    (declarations standardWidths b).Pairwise Declaration.Apart →
    (∀ i ∈ b.code, ∀ x, i.slot? = some x → isReserved x = false → ∃ l ∈ b.locals, l.slot = x) →
    b.locals.Perm (dropped ++ b'.locals) → b'.code = b.code.remap park →
    (∀ l ∈ dropped, isReserved (park l.slot) = true) →
    (∀ x, (∀ l ∈ dropped, l.slot ≠ x) → park x = x) →
    let fall (x : Nat) := x - widthBelow (dropped.map (·.declaration standardWidths)) x
    (take standardWidths b).reconcile standardWidths b' = { b' with
      locals := b'.locals.map fun l => { l with slot := fall l.slot }
      code := b'.code.remap (settled fall) } := by
  intro h
  let gone : List Declaration := [⟨"a", .int, 0, 1⟩, ⟨"b", .int, 1, 1⟩]
  have hfall := h (readsLast .int 2) (keepsLast 2) [⟨"a", .int, 0, {}⟩, ⟨"b", .int, 1, {}⟩] parkFirst
    (by decide) (readsLast_starts .int 2) (by decide) rfl (by decide)
    fun x hx => parkFirst_of_ne rfl rfl hx
  have hresult := @reconcile_dropped standardWidths (readsLast .int 2) (keepsLast 2) gone
    (by decide) (by decide) (.refl _) (by simp [keepsLast, readsLast, Instruction.slot?, isReserved,
      unreachableSlot, maxSlot])
  have hlast : lowered gone 2 = 0 := by
    have hlocals := congrArg Body.locals (hresult.symm.trans hfall)
    exact congrArg Local.slot (List.head_eq_of_cons_eq hlocals)
  have hroom := (lowered_eq_iff (by decide) (by decide) (by decide)).2.1 hlast
  exact absurd hroom (by decide)

end Reparam
