import Reparam.Proofs.Apply.Placing
import Reparam.Proofs.Traversal

/-! How a body stands while a script is applied to it: its table, its locals and its code all agree
with one row of parameters and with what each slot of the code before stands for. -/
namespace Reparam

namespace Progress

variable {w : Widths} {p p' : Progress}

@[simp] theorem tally_body (count : Nat) (p : Progress) : (p.tally count).body = p.body := by
  unfold tally
  split <;> rfl

@[simp] theorem tally_table (count : Nat) (p : Progress) : (p.tally count).table = p.table := by
  unfold tally
  split <;> rfl

theorem rebuild_eq_ok (h : p.rebuild w = .ok p') :
    p'.body = p.body ∧ SlotTable.ofSignature w p.body.signature = .ok p'.table := by
  unfold rebuild at h
  split at h
  · rename_i table htable
    cases h
    exact ⟨rfl, htable⟩
  · cases h

theorem entry_eq_ok {ordinal : Nat} {entry : SlotEntry} (h : p.entry ordinal = .ok entry) :
    p.table.entries[ordinal]? = some entry := by
  unfold Progress.entry at h
  split at h
  · rename_i e he
    cases h
    exact he
  · cases h

end Progress

theorem Body.localIndex_eq_some {b : Body} {slot index : Nat} {name : Option String}
    (h : b.localIndex? slot name = some index) :
    ∃ l, b.locals[index]? = some l ∧ l.slot = slot := by
  have found (p : Local → Bool) (hp : ∀ l, p l = true → l.slot = slot)
      (h : b.locals.findIdx? p = some index) : ∃ l, b.locals[index]? = some l ∧ l.slot = slot := by
    obtain ⟨hlt, hl, -⟩ := List.findIdx?_eq_some_iff_getElem.1 h
    exact ⟨_, List.getElem?_eq_getElem hlt, hp _ hl⟩
  unfold localIndex? at h
  cases hnamed : b.locals.findIdx? fun l => l.slot = slot && name.all (· == l.name) with
  | some named =>
    rw [hnamed] at h
    cases h
    refine found _ (fun l hl => ?_) hnamed
    simp only [Bool.and_eq_true, decide_eq_true_eq] at hl
    exact hl.1
  | none =>
    rw [hnamed] at h
    exact found _ (fun l hl => by simpa using hl) h

theorem Body.exists_localIndex {b : Body} {l : Local} (hl : l ∈ b.locals) (name : Option String) :
    ∃ index, b.localIndex? l.slot name = some index := by
  unfold localIndex?
  cases h : b.locals.findIdx? fun k => k.slot = l.slot && name.all (· == k.name) with
  | some index => exact ⟨index, rfl⟩
  | none =>
    obtain ⟨index, hindex⟩ : ∃ index, b.locals.findIdx? (·.slot = l.slot) = some index := by
      rw [← Option.isSome_iff_exists, List.findIdx?_isSome, List.any_eq_true]
      exact ⟨l, hl, by simp⟩
    exact ⟨index, hindex⟩

variable {g : Premises} {row front back : Row} {s : Site} {o : Origin} {t t' : ValueType}
  {σ : Nat → Site} {base : Code} {p p' : Progress}

namespace Premises

/-- The sites of the locals, with their types. -/
def sites (g : Premises) (row : Row) : List (Site × ValueType) :=
  row.map (fun q => (.parameter q.1, q.2)) ++ g.others

/-- Where the locals are declared. -/
def declared (g : Premises) (row : Row) : List (Nat × ValueType) :=
  (g.sites row).map fun q => (q.1.slot g row, q.2)

theorem sites_perm (g : Premises) (front back : Row) (o : Origin) (t : ValueType) :
    (g.sites (front ++ (o, t) :: back)).Perm ((.parameter o, t) :: g.sites (front ++ back)) := by
  simp only [sites, List.map_append, List.map_cons, List.append_assoc, List.cons_append]
  exact List.perm_middle

theorem in_of_mem_sites {q : Site × ValueType} (h : q ∈ g.sites row) :
    q.1.In g row ∧ q.1.isFixed = false := by
  rcases List.mem_append.1 h with h | h
  · obtain ⟨q, hq, rfl⟩ := List.mem_map.1 h
    exact ⟨List.mem_map_of_mem hq, rfl⟩
  · rcases g.others_kept q h with ⟨x, hx, he⟩ | ⟨distance, hd, he⟩
    · rw [he]
      exact ⟨hx, rfl⟩
    · rw [he]
      exact ⟨hd, rfl⟩

end Premises

/-- A site that is there and that suits an instruction. -/
def Site.At (g : Premises) (row : Row) (s : Site) (i : Instruction) : Prop :=
  s.In g row ∧ s.Suits g i

/-- The body and the table are those of a row of parameters, and every slot of the base code is at
the site that it stands for. -/
structure Stands (g : Premises) (row : Row) (σ : Nat → Site) (base : Code) (p : Progress) :
    Prop where
  types : p.body.signature.types = row.types
  receiver : p.body.signature.receiverSlots = g.receiver
  table : p.table = row.table g.applier.widths g.receiver
  nodup : row.origins.Nodup
  fits : row.Fits g
  places : p.body.places.Perm (g.declared row)
  code : p.body.code = base.placed g row σ
  sites : ∀ i ∈ base, ∀ x, i.slot? = some x → (σ x).At g row i

/-- A table that is made for the parameters of a row is that of the row. -/
theorem Row.fits_of_signature {signature : Signature} {made : SlotTable}
    (htypes : signature.types = row.types) (hreceiver : signature.receiverSlots = g.receiver)
    (hmade : SlotTable.ofSignature g.applier.widths signature = .ok made)
    (hbound : g.receiver + Row.extent g.applier.widths row ≤ g.bound) :
    row.Fits g ∧ made = row.table g.applier.widths g.receiver := by
  obtain ⟨hsame, hlimit⟩ := Row.ofSignature_eq_ok htypes hmade
  rw [hreceiver] at hsame hlimit
  exact ⟨⟨hbound, hlimit⟩, hsame⟩

theorem Site.In.insert (hs : s.In g (front ++ back)) : s.In g (front ++ (o, t) :: back) :=
  hs.of_origins fun p hp => by
    subst hp
    exact (List.Sublist.map _ ((List.sublist_cons_self _ _).append_left front)).subset hs

theorem Site.In.drop (hs : s.In g (front ++ (o, t) :: back)) (ho : s ≠ .parameter o) :
    s.In g (front ++ back) :=
  hs.of_origins fun p hp => by
    subst hp
    simp only [Site.In, Row.origins, List.map_append, List.mem_append, List.map_cons,
      List.mem_cons] at hs ⊢
    rcases hs with hs | rfl | hs
    · exact .inl hs
    · exact (ho rfl).elim
    · exact .inr hs

theorem Row.origins_perm (front back : Row) (o : Origin) (t : ValueType) :
    (origins (front ++ (o, t) :: back)).Perm (o :: origins (front ++ back)) :=
  List.perm_middle.map _

/-- A parameter of the row is at no other place of it. -/
theorem Row.not_mem_of_nodup (h : (Row.origins (front ++ (o, t) :: back)).Nodup) :
    o ∉ Row.origins (front ++ back) ∧ (Row.origins (front ++ back)).Nodup ∧ o ∉ front.origins := by
  have hnodup := List.nodup_cons.1 ((Row.origins_perm front back o t).nodup_iff.1 h)
  refine ⟨hnodup.1, hnodup.2, fun hm => hnodup.1 ?_⟩
  rw [Row.origins_append]
  exact List.mem_append_left _ hm

theorem Row.mem_origins_middle : o ∈ Row.origins (front ++ (o, t) :: back) :=
  (Row.origins_perm front back o t).symm.subset List.mem_cons_self

/-- A parameter has a local where it starts. -/
theorem Stands.exists_local (h : Stands g (front ++ (o, t) :: back) σ base p)
    (name : Option String) : ∃ i l,
      p.body.localIndex? (g.receiver + Row.extent g.applier.widths front) name = some i ∧
      p.body.locals[i]? = some l ∧ l.slot = g.receiver + Row.extent g.applier.widths front := by
  obtain ⟨-, -, hfront⟩ := Row.not_mem_of_nodup h.nodup
  have hstart : (Site.parameter o).slot g (front ++ (o, t) :: back) =
      g.receiver + Row.extent g.applier.widths front := Row.start_at hfront
  have hdeclared : (g.receiver + Row.extent g.applier.widths front, t) ∈ p.body.places := by
    refine h.places.symm.subset (List.mem_map.2 ⟨(.parameter o, t), ?_, by rw [hstart]⟩)
    exact (g.sites_perm front back o t).symm.subset List.mem_cons_self
  obtain ⟨l, hl, he⟩ := List.mem_map.1 hdeclared
  obtain ⟨i, hi⟩ := Body.exists_localIndex hl name
  rw [Prod.mk.injEq] at he
  rw [he.1] at hi
  obtain ⟨l', hl', hslot⟩ := Body.localIndex_eq_some hi
  exact ⟨i, l', hi, hl', hslot⟩

/-- The local at the start of a parameter is the one of the parameter, and the others are where
they are declared. -/
theorem Stands.local_eq (h : Stands g (front ++ (o, t) :: back) σ base p) {i : Nat} {l : Local}
    (hl : p.body.locals[i]? = some l)
    (hslot : l.slot = g.receiver + Row.extent g.applier.widths front) :
    l.type = t ∧ ((p.body.locals.eraseIdx i).map fun l => (l.slot, l.type)).Perm
      ((g.sites (front ++ back)).map fun q => (q.1.slot g (front ++ (o, t) :: back), q.2)) := by
  obtain ⟨ho, -, hfront⟩ := Row.not_mem_of_nodup h.nodup
  have hstart : (Site.parameter o).slot g (front ++ (o, t) :: back) =
      g.receiver + Row.extent g.applier.widths front := Row.start_at hfront
  have hfound : p.body.places.Perm
      ((l.slot, l.type) :: (p.body.locals.eraseIdx i).map fun l => (l.slot, l.type)) :=
    (perm_cons_eraseIdx hl).map _
  have hdeclared := (g.sites_perm front back o t).map fun q =>
    (q.1.slot g (front ++ (o, t) :: back), q.2)
  have hplaces := (hfound.symm.trans h.places).trans hdeclared
  simp only [List.map_cons, hstart] at hplaces
  have hfirst : (l.slot, l.type) = (g.receiver + Row.extent g.applier.widths front, t) := by
    rcases List.mem_cons.1 (hplaces.subset List.mem_cons_self) with he | hm
    · exact he
    · obtain ⟨q, hq, he⟩ := List.mem_map.1 hm
      have hin := (g.in_of_mem_sites hq).1
      have hqslot : q.1.slot g (front ++ (o, t) :: back) =
          (Site.parameter o).slot g (front ++ (o, t) :: back) := by
        rw [hstart, ← hslot]
        exact congrArg Prod.fst he
      rw [Site.eq_parameter hin.insert h.fits Row.mem_origins_middle hqslot] at hin
      exact (ho hin).elim
  rw [hfirst] at hplaces
  exact ⟨congrArg Prod.snd hfirst, (List.perm_cons _).1 hplaces⟩

end Reparam
