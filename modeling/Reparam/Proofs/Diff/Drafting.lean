import Reparam.Diff.Report
import Reparam.Proofs.Edit.Frame

/-! What a draft stands for: the list that its script makes of the reference types, in which the
reference parameters are still told apart. -/
namespace Reparam

/-- An element of the working list with the type that it has by now. -/
abbrev Item := Entry × ValueType

def Item.fresh (t : ValueType) : Item := (.inserted, t)

def Item.retype (t : ValueType) (z : Item) : Item := (z.1, t)

def Item.ordinal? : Item → Option Nat
  | (.reference ordinal, _) => some ordinal
  | (.inserted, _) => none

def Placed.item (p : Placed) : Item := (.reference p.ordinal, p.type)

/-- The ordinals of the reference parameters in a list of items. -/
def present (items : List Item) : List Nat := items.filterMap Item.ordinal?

abbrev Edit.Moves (e : Edit) (items items' : List Item) : Prop :=
  e.Step Item.fresh Item.retype items items'

variable {types : List ValueType} {items items' items'' pre post mid : List Item} {d : Draft}
  {e : Edit} {s : Script} {z x y : Item} {p : Placed} {ps : List Placed} {ordinal index : Nat}
  {t : ValueType}

structure Draft.Shows (types : List ValueType) (d : Draft) (items : List Item) : Prop where
  working : d.working = items.map (·.1)
  replay : d.script.replay types = .ok (items.map (·.2))
  distinct : (present items).Nodup

/-- A step of the comparison succeeds and leaves a draft of these items. -/
def Gives (types : List ValueType) (r : Except DiffError Draft) (items : List Item) : Prop :=
  ∃ d, r = .ok d ∧ d.Shows types items

@[simp] theorem ordinal?_item (p : Placed) : p.item.ordinal? = some p.ordinal := rfl

@[simp] theorem present_nil : present [] = [] := rfl

@[simp] theorem present_reference (ordinal : Nat) (t : ValueType) (items : List Item) :
    present ((.reference ordinal, t) :: items) = ordinal :: present items := rfl

@[simp] theorem present_inserted (t : ValueType) (items : List Item) :
    present ((.inserted, t) :: items) = present items := rfl

theorem present_cons (h : z.ordinal? = some ordinal) :
    present (z :: items) = ordinal :: present items := List.filterMap_cons_some h

theorem present_append (pre post : List Item) : present (pre ++ post) = present pre ++ present post :=
  List.filterMap_append

@[simp] theorem present_items (ps : List Placed) :
    present (ps.map Placed.item) = ps.map (·.ordinal) := by
  induction ps with
  | nil => rfl
  | cons p ps ih => exact congrArg (p.ordinal :: ·) ih

theorem present_perm (h : items.Perm items') : (present items).Perm (present items') :=
  h.filterMap _

theorem present_sublist (h : items.Sublist items') : (present items).Sublist (present items') :=
  h.filterMap _

theorem mem_present : ordinal ∈ present items ↔ ∃ t, (.reference ordinal, t) ∈ items := by
  rw [present, List.mem_filterMap]
  constructor
  · rintro ⟨⟨_ | _, t⟩, hz, ho⟩ <;> cases ho
    exact ⟨t, hz⟩
  · rintro ⟨t, hz⟩
    exact ⟨_, hz, rfl⟩

theorem present_insert (index : Nat) (t : ValueType) (items : List Item) :
    present (items.insertIdx index (.fresh t)) = present items := by
  induction items generalizing index with
  | nil => cases index <;> rfl
  | cons z items ih =>
    obtain ⟨_ | _, u⟩ := z <;> cases index <;> simp [Item.fresh] <;> exact ih _

theorem present_modify (index : Nat) (t : ValueType) (items : List Item) :
    present (items.modify index (.retype t)) = present items := by
  induction items generalizing index with
  | nil => cases index <;> rfl
  | cons z items ih =>
    obtain ⟨_ | _, u⟩ := z <;> cases index <;> simp [Item.retype, ih]

theorem present_retype (t : ValueType) : present (pre ++ z.retype t :: post) =
    present (pre ++ z :: post) := by
  obtain ⟨_ | _, u⟩ := z <;> simp [present_append, Item.retype]

/-- An edit brings no reference parameter back. -/
theorem present_nodup_step (h : e.Moves items items') (hd : (present items).Nodup) :
    (present items').Nodup := by
  cases h with
  | insert t h => rwa [present_insert]
  | replace t h => rwa [present_modify]
  | swap ha hb => exact (present_perm exchange_perm).nodup_iff.2 hd
  | move hs hd' => exact (present_perm (relocate_perm hd')).nodup_iff.2 hd
  | remove h => exact hd.sublist (present_sublist (List.eraseIdx_sublist ..))
  | substitute hne ht hs => exact hd.sublist (present_sublist (List.eraseIdx_sublist ..))
  | inline generator h => exact hd.sublist (present_sublist (List.eraseIdx_sublist ..))

theorem Gives.bind {r : Except DiffError Draft} {f : Draft → Except DiffError Draft}
    (h : Gives types r items) (hf : ∀ d, d.Shows types items → Gives types (f d) items') :
    Gives types (r >>= f) items' := by
  obtain ⟨d, rfl, hd⟩ := h
  exact hf d hd

section Neighbours

variable {α : Type}

/-! Trading places with a neighbour is the same as moving over one place. -/

theorem exchange_next {xs : List α} {i : Nat} (h : i + 1 < xs.length) :
    exchange xs i (i + 1) = relocate xs i (i + 1) := by
  simp only [exchange, relocate, List.getElem?_eq_getElem h,
    List.getElem?_eq_getElem (Nat.lt_of_succ_lt h)]
  apply List.ext_getElem?
  intro j
  grind

theorem exchange_previous {xs : List α} {i : Nat} (h : i + 1 < xs.length) :
    exchange xs (i + 1) i = relocate xs (i + 1) i := by
  simp only [exchange, relocate, List.getElem?_eq_getElem h,
    List.getElem?_eq_getElem (Nat.lt_of_succ_lt h)]
  apply List.ext_getElem?
  intro j
  grind

theorem relocate_self {xs : List α} {i : Nat} (h : i < xs.length) : relocate xs i i = xs := by
  simp only [relocate, List.getElem?_eq_getElem h]
  apply List.ext_getElem?
  intro j
  grind

end Neighbours

namespace Draft.Shows

theorem emit (h : d.Shows types items) (he : e.Moves items items') :
    Gives types (d.emit e) items' := by
  have hentries := @Edit.apply_map _ _ Prod.fst Item.fresh Item.retype (fun _ => Entry.inserted)
    (fun _ entry => entry) (fun _ => rfl) (fun _ _ => rfl) e items
  have htypes := @Edit.apply_map _ _ Prod.snd Item.fresh Item.retype (fun t => t) (fun t _ => t)
    (fun _ => rfl) (fun _ _ => rfl) e items
  rw [he.apply_eq] at hentries htypes
  refine ⟨⟨items'.map (·.1), d.script ++ [e]⟩, ?_, rfl, ?_, present_nodup_step he h.distinct⟩
  · rw [Draft.emit, h.working, hentries]
    rfl
  · have hreplay := h.replay
    rw [Script.replay, Script.run_append hreplay, Script.run_cons (Edit.step_of_apply htypes)]
    rfl

theorem emit_all (h : d.Shows types items) (hs : s.run Item.fresh Item.retype items = .ok items') :
    Gives types (s.foldlM Draft.emit d) items' := by
  induction s generalizing d items with
  | nil =>
    cases hs
    exact ⟨d, rfl, h⟩
  | cons e s ih =>
    obtain ⟨items₁, he, hr⟩ := Script.run_cons_ok hs
    rw [List.foldlM_cons]
    exact (h.emit he).bind fun d hd => ih hd hr

theorem not_mem_before (h : d.Shows types (pre ++ z :: post)) (hz : z.ordinal? = some ordinal) :
    ordinal ∉ present pre ∧ ordinal ∉ present post := by
  have hd := h.distinct
  rw [present_append, present_cons hz] at hd
  have hd := List.nodup_append.1 hd
  refine ⟨fun hm => hd.2.2 ordinal hm ordinal List.mem_cons_self rfl, ?_⟩
  exact (List.nodup_cons.1 hd.2.1).1

theorem position (h : d.Shows types (pre ++ z :: post)) (hz : z.ordinal? = some ordinal) :
    d.position ordinal = .ok pre.length := by
  have hbefore := (h.not_mem_before hz).1
  have hfind : d.working.findIdx? (· = .reference ordinal) = some pre.length := by
    rw [h.working, List.findIdx?_eq_some_iff_getElem]
    refine ⟨by simp, ?_, ?_⟩
    · obtain ⟨entry | _, t⟩ := z <;> cases hz
      simp
    · intro i hi
      have hlt : i < pre.length := hi
      simp only [List.map_append, List.getElem_append_left, List.length_map, hlt,
        List.getElem_map, decide_eq_true_eq]
      intro he
      exact hbefore (mem_present.2 ⟨pre[i].2, List.mem_of_getElem (h := hlt) (by rw [← he])⟩)
  simp only [Draft.position, hfind]

theorem position_of_getElem? (h : d.Shows types items) (hi : items[index]? = some z)
    (hz : z.ordinal? = some ordinal) : d.position ordinal = .ok index := by
  obtain ⟨pre, post, rfl, rfl⟩ := exists_append_of_getElem? hi
  exact h.position hz

theorem insertAt (h : d.Shows types items) (index : Nat) (t : ValueType) :
    Gives types (d.insertAt index t) (items.insertIdx (min index items.length) (.fresh t)) := by
  have hlen : d.working.length = items.length := by simp [h.working]
  rw [Draft.insertAt, hlen]
  exact h.emit (.insert t (Nat.min_le_right ..))

theorem insert_between (h : d.Shows types (pre ++ post)) (hi : index = pre.length)
    (t : ValueType) : Gives types (d.insertAt index t) (pre ++ Item.fresh t :: post) := by
  have hgives := h.insertAt index t
  have hmin : min index (pre ++ post).length = pre.length := by simp [hi]
  rwa [hmin, insertIdx_middle] at hgives

theorem remove (h : d.Shows types (pre ++ z :: post)) (hz : z.ordinal? = some ordinal) :
    Gives types (d.remove ordinal) (pre ++ post) := by
  have hmoves : (Edit.remove pre.length).Moves (pre ++ z :: post) (pre ++ post) := by
    have hstep : (Edit.remove pre.length).Moves (pre ++ z :: post) _ := .remove (by simp)
    rwa [List.eraseIdx_append_of_length_le (Nat.le_refl _), Nat.sub_self] at hstep
  simp only [Draft.remove, h.position hz]
  exact h.emit hmoves

theorem replace (h : d.Shows types (pre ++ z :: post)) (hz : z.ordinal? = some ordinal)
    (t : ValueType) :
    Gives types (d.perform (.replace ordinal t)) (pre ++ z.retype t :: post) := by
  have hmoves : (Edit.replace pre.length t).Moves (pre ++ z :: post)
      (pre ++ z.retype t :: post) := by
    have hstep : (Edit.replace 0 t).Moves [z] [z.retype t] := .replace t (by simp)
    simpa [Edit.offset, Edit.mapIndices] using hstep.frame pre post
  simp only [Draft.perform, h.position hz]
  exact h.emit hmoves

theorem swap (h : d.Shows types items) {a b i j : Nat} (hi : items[i]? = some x)
    (hj : items[j]? = some y) (ha : x.ordinal? = some a) (hb : y.ordinal? = some b) :
    Gives types (d.perform (.swap a b)) (exchange items i j) := by
  have hmoves : (Edit.swap i j).Moves items (exchange items i j) :=
    .swap (List.getElem?_eq_some_iff.1 hi).1 (List.getElem?_eq_some_iff.1 hj).1
  simp only [Draft.perform, h.position_of_getElem? hi ha, h.position_of_getElem? hj hb]
  exact h.emit hmoves

theorem insertBehind (h : d.Shows types (pre ++ z :: post)) (hz : z.ordinal? = some ordinal)
    (t : ValueType) :
    Gives types (d.perform (.insertBehind ordinal t)) (pre ++ z :: Item.fresh t :: post) := by
  have hsplit : pre ++ z :: post = (pre ++ [z]) ++ post := by simp
  have hshows := h
  rw [hsplit] at hshows
  have hgives : Gives types (d.insertAt (pre.length + 1) t) _ :=
    hshows.insert_between (by simp) t
  rw [List.append_assoc] at hgives
  simp only [Draft.perform, h.position hz]
  exact hgives

theorem reorder (h : d.Shows types items) {source : Nat} (hs : source < items.length)
    (dest : Nat) : Gives types (d.reorder source dest)
      (relocate items source (min dest (items.length - 1))) := by
  have hlen : d.working.length = items.length := by simp [h.working]
  simp only [Draft.reorder, hlen]
  have hd : min dest (items.length - 1) < items.length := by omega
  generalize min dest (items.length - 1) = dest at hd
  by_cases heq : source = dest
  · subst heq
    rw [if_pos rfl, relocate_self hs]
    exact ⟨d, rfl, h⟩
  · rw [if_neg heq]
    by_cases hnext : source + 1 = dest ∨ dest + 1 = source
    · rw [if_pos hnext]
      rcases hnext with rfl | rfl
      · rw [← exchange_next hd]
        exact h.emit (.swap hs hd)
      · rw [← exchange_previous hs]
        exact h.emit (.swap hs hd)
    · rw [if_neg hnext]
      exact h.emit (.move hs hd)

theorem reorder_within (h : d.Shows types items) {source dest : Nat} (hs : source < items.length)
    (hd : dest < items.length) :
    Gives types (d.reorder source dest) (relocate items source dest) := by
  have hgives := h.reorder hs dest
  rwa [Nat.min_eq_left (by omega)] at hgives

end Draft.Shows

/-- The list without some of its reference parameters. -/
def without (gone : List Nat) (items : List Item) : List Item :=
  items.filter fun z => !z.ordinal?.any (· ∈ gone)

theorem exists_append_of_mem_present (h : ordinal ∈ present items) :
    ∃ pre z post, items = pre ++ z :: post ∧ z.ordinal? = some ordinal := by
  obtain ⟨z, hz, ho⟩ := List.mem_filterMap.1 h
  obtain ⟨pre, post, rfl⟩ := List.append_of_mem hz
  exact ⟨pre, z, post, rfl, ho⟩

theorem without_eq_self {gone : List Nat} (h : ∀ o ∈ gone, o ∉ present items) :
    without gone items = items := by
  refine List.filter_eq_self.2 fun z hz => ?_
  cases ho : z.ordinal? with
  | none => rfl
  | some ordinal =>
    have hmem : ordinal ∈ present items := List.mem_filterMap.2 ⟨z, hz, ho⟩
    have hnot : ordinal ∉ gone := fun hg => h ordinal hg hmem
    simpa using hnot

theorem without_cons (ordinal : Nat) (gone : List Nat) (items : List Item) :
    without (ordinal :: gone) items = without gone (without [ordinal] items) := by
  rw [without, without, without, List.filter_filter]
  refine List.filter_congr fun z _ => ?_
  cases z.ordinal? <;> simp [Bool.and_comm]

theorem without_append (gone : List Nat) (pre post : List Item) :
    without gone (pre ++ post) = without gone pre ++ without gone post := List.filter_append ..

theorem without_single (hd : (present (pre ++ z :: post)).Nodup)
    (hz : z.ordinal? = some ordinal) :
    without [ordinal] (pre ++ z :: post) = pre ++ post := by
  rw [present_append, present_cons hz] at hd
  have hd := List.nodup_append.1 hd
  have hpre : without [ordinal] pre = pre := by
    refine without_eq_self fun o ho hm => ?_
    rw [List.mem_singleton] at ho
    exact hd.2.2 o hm ordinal List.mem_cons_self ho
  have hpost : without [ordinal] post = post := by
    refine without_eq_self fun o ho hm => ?_
    rw [List.mem_singleton] at ho
    exact (List.nodup_cons.1 hd.2.1).1 (ho ▸ hm)
  have hhead : without [ordinal] (z :: post) = without [ordinal] post := by
    simp [without, hz]
  rw [without_append, hhead, hpre, hpost]

/-- Removing some reference parameters one after the other. -/
theorem Draft.Shows.remove_all {gone : List Nat} (h : d.Shows types items) (hn : gone.Nodup)
    (hp : ∀ o ∈ gone, o ∈ present items) :
    Gives types (gone.foldlM Draft.remove d) (without gone items) := by
  induction gone generalizing d items with
  | nil =>
    rw [without_eq_self (by simp)]
    exact ⟨d, rfl, h⟩
  | cons ordinal gone ih =>
    obtain ⟨pre, z, post, rfl, hz⟩ := exists_append_of_mem_present (hp ordinal List.mem_cons_self)
    have hone := without_single h.distinct hz
    rw [List.foldlM_cons, without_cons, hone]
    refine (h.remove hz).bind fun d hd => ih hd hn.of_cons fun o ho => ?_
    have hne : o ≠ ordinal := by
      rintro rfl
      exact (List.nodup_cons.1 hn).1 ho
    have hmem := hp o (List.mem_cons_of_mem _ ho)
    rw [present_append, present_cons hz] at hmem
    rw [present_append]
    simpa [hne] using hmem

end Reparam
