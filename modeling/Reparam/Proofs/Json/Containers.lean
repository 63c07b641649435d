import Mathlib.Data.List.Forall2
import Reparam.Proofs.Json.Leaves

/-! Values as lists of tokens. A value is passed over as a whole wherever it stands, and so the
entries of an object or an array are found one after the other. -/
namespace Reparam.Json

open Token

variable {r : Rigour} {stack outer : List Bracket} {expected : Expected} {t : Token}
  {ts rest : List Token} {tss : List (List Token)} {key : List Piece}
  {written : List (String × List Token)} {inPieces : List (List Piece × List Token)}

/-- Entries between brackets. -/
def enclosed (left right : Token) : List (List Token) → List Token
  | [] => [left, right]
  | ts :: tss => left :: (ts ++ (tss.flatMap (comma :: ·) ++ [right]))

/-- A member of an object, whose key is given in pieces. -/
def keyed (key : List Piece) (value : List Token) : List Token := .text key none :: .colon :: value

/-- A member of an object. -/
def memberOf (key : String) (value : List Token) : List Token :=
  .text (key.toList.map .char) none :: .colon :: value

/-- Members whose keys are given in pieces that are plain characters. -/
def inChars (written : List (String × List Token)) : List (List Piece × List Token) :=
  written.map fun m => (m.1.toList.map .char, m.2)

theorem map_inChars (written : List (String × List Token)) :
    (inChars written).map (fun m => keyed m.1 m.2) = written.map fun m => memberOf m.1 m.2 :=
  List.map_map

theorem forall_inChars {P : List Token → Prop} (h : ∀ m ∈ written, P m.2) :
    ∀ m ∈ inChars written, P m.2 := by
  intro m hm
  obtain ⟨m', hm', rfl⟩ := List.mem_map.1 hm
  exact h m' hm'

namespace Rigour

/-- What comes behind a value inside the containers on the stack. -/
def goOn (r : Rigour) : List Bracket → List Token → Except Fault (List Token)
  | [], ts => .ok ts
  | b :: outer, ts => r.go (b :: outer) .next ts

theorem go_of_next (h : r.step stack expected t = .ok (outer, .next)) :
    r.go stack expected (t :: ts) = r.goOn outer ts := by
  rw [go, h]
  cases outer <;> rfl

theorem go_of_step {inside : Expected} (h : r.step stack expected t = .ok (outer, inside))
    (hne : inside ≠ .next) : r.go stack expected (t :: ts) = r.go outer inside ts := by
  rw [go, h]
  cases outer <;> cases inside <;> first | rfl | exact absurd rfl hne

/-- Where an array might end, a token that does not end it begins an item. -/
theorem go_item (h : t ≠ .closeArray) :
    r.go stack .item (t :: ts) = r.go stack .value (t :: ts) := by
  have hstep : r.step stack .item t = r.step stack .value t := by
    cases stack <;> cases t <;> first | rfl | exact absurd rfl h
  rw [go, go, hstep]

end Rigour

open Rigour

/-- The tokens are one value, which is passed over as a whole. -/
def Passes (ts : List Token) : Prop :=
  ∀ stack rest, skipping.go stack .value (ts ++ rest) = skipping.goOn stack rest

theorem Passes.skipValue (h : Passes ts) (rest : List Token) :
    skipValue (ts ++ rest) = .ok rest := h [] rest

/-- A value does not begin with the end of an array. -/
theorem Passes.eq_cons (h : Passes ts) : ∃ t us, ts = t :: us ∧ t ≠ .closeArray := by
  have hwhole := h [] []
  cases ts with
  | nil => cases hwhole
  | cons t us =>
    refine ⟨t, us, rfl, ?_⟩
    rintro rfl
    cases hwhole

/-- A sound token without parts is a value by itself. -/
theorem passes_single (h : t.skipLeaf = .ok ()) : Passes [t] := by
  intro stack rest
  have hstep : skipping.step stack .value t =
      (t.skipLeaf.map fun _ => (stack, .next)) := by
    cases t <;> first | rfl | cases h
  refine go_of_next ?_
  rw [hstep, h]
  rfl

theorem passes_leaf (leaf : Leaf) : Passes leaf.tokens := by
  cases leaf <;> exact passes_single rfl

/-- From a comma or the end on an array is gone over to its end. -/
theorem go_items (h : ∀ ts ∈ tss, Passes ts) :
    skipping.go (.array :: outer) .next (tss.flatMap (comma :: ·) ++ .closeArray :: rest) =
      skipping.goOn outer rest := by
  induction tss with
  | nil => exact go_of_next rfl
  | cons ts tss ih =>
    have hcomma : skipping.step (.array :: outer) .next .comma =
        .ok (.array :: outer, .value) := rfl
    have hfirst := h ts List.mem_cons_self
    have hothers := ih fun us hus => h us (List.mem_cons_of_mem _ hus)
    simp only [List.flatMap_cons, List.append_assoc, List.cons_append]
    rw [go_of_step hcomma (by decide)]
    exact (hfirst _ _).trans hothers

theorem passes_array (h : ∀ ts ∈ tss, Passes ts) :
    Passes (enclosed .openArray .closeArray tss) := by
  intro stack rest
  have hopen : skipping.step stack .value .openArray = .ok (.array :: stack, .item) := rfl
  cases tss with
  | nil =>
    refine (go_of_step hopen (by decide)).trans ?_
    exact go_of_next rfl
  | cons ts tss =>
    have hfirst := h ts List.mem_cons_self
    obtain ⟨t, us, rfl, ht⟩ := hfirst.eq_cons
    have hothers := @go_items stack rest tss fun us hus => h us (List.mem_cons_of_mem _ hus)
    simp only [enclosed, List.append_assoc, List.cons_append, List.nil_append]
    rw [go_of_step hopen (by decide), go_item ht]
    exact (hfirst _ _).trans hothers

/-- A member is gone over wherever a key may come, whatever the pieces of its key are. -/
theorem go_member (he : expected = .member ∨ expected = .key) (h : Passes ts) :
    skipping.go (.object :: outer) expected (keyed key ts ++ rest) =
      skipping.go (.object :: outer) .next rest := by
  have hkey : skipping.step (.object :: outer) expected (.text key none) =
      .ok (.object :: outer, .colon) := by
    rcases he with rfl | rfl <;> rfl
  have hcolon : skipping.step (.object :: outer) .colon .colon =
      .ok (.object :: outer, .value) := rfl
  simp only [keyed, List.cons_append]
  rw [go_of_step hkey (by decide), go_of_step hcolon (by decide)]
  exact h _ _

theorem go_members (h : ∀ m ∈ inPieces, Passes m.2) :
    skipping.go (.object :: outer) .next
        ((inPieces.map fun m => keyed m.1 m.2).flatMap (comma :: ·) ++ .closeObject :: rest) =
      skipping.goOn outer rest := by
  induction inPieces with
  | nil => exact go_of_next rfl
  | cons m inPieces ih =>
    have hcomma : skipping.step (.object :: outer) .next .comma =
        .ok (.object :: outer, .key) := rfl
    have hothers := ih fun m' hm' => h m' (List.mem_cons_of_mem _ hm')
    simp only [List.map_cons, List.flatMap_cons, List.append_assoc, List.cons_append]
    rw [go_of_step hcomma (by decide), go_member (.inr rfl) (h m List.mem_cons_self)]
    exact hothers

theorem passes_keyed (h : ∀ m ∈ inPieces, Passes m.2) :
    Passes (enclosed .openObject .closeObject (inPieces.map fun m => keyed m.1 m.2)) := by
  intro stack rest
  have hopen : skipping.step stack .value .openObject = .ok (.object :: stack, .member) := rfl
  cases inPieces with
  | nil =>
    refine (go_of_step hopen (by decide)).trans ?_
    exact go_of_next rfl
  | cons m inPieces =>
    have hothers := @go_members stack rest inPieces fun m' hm' => h m' (List.mem_cons_of_mem _ hm')
    simp only [List.map_cons, enclosed, List.append_assoc, List.cons_append, List.nil_append]
    rw [go_of_step hopen (by decide), go_member (.inl rfl) (h m List.mem_cons_self)]
    exact hothers

theorem passes_object (h : ∀ m ∈ written, Passes m.2) :
    Passes (enclosed .openObject .closeObject (written.map fun m => memberOf m.1 m.2)) := by
  rw [← map_inChars]
  exact passes_keyed (forall_inChars h)

/-- The container was gone over to its end, and its entries correspond to the written ones. -/
structure Contents.Holds {α β : Type} (opens : α → β → Prop) (c : Contents α) (written : List β)
    (rest : List Token) : Prop where
  ending : c.ending = .ok rest
  entries : List.Forall₂ opens c.entries written

theorem Contents.Holds.push {α β : Type} {opens : α → β → Prop} {c : Contents α} {written : List β}
    {a : α} {b : β} (h : c.Holds opens written rest) (hab : opens a b) :
    (c.push a).Holds opens (b :: written) rest := ⟨h.ending, .cons hab h.entries⟩

/-- The tokens begin with the written ones. -/
def Opens (item ts : List Token) : Prop := ∃ more, item = ts ++ more

/-- The member has the key that the pieces are read as, and its value begins with the written
tokens. -/
def Member.Reads (m : Member) (written : List Piece × List Token) : Prop :=
  readPieces written.1 none = .ok m.key ∧ ∃ more, m.value = .ok (written.2 ++ more)

/-- The member has the written key, and its value begins with the written tokens. -/
def Member.Opens (m : Member) (written : String × List Token) : Prop :=
  ∃ more, m = ⟨written.1, .ok (written.2 ++ more)⟩

theorem Member.Reads.opens {m : Member} {w : String × List Token}
    (h : m.Reads (w.1.toList.map .char, w.2)) : m.Opens w := by
  obtain ⟨name, value⟩ := m
  obtain ⟨hkey, more, rfl⟩ := h
  have hname : w.1 = name := Except.ok.inj ((readPieces_chars w.1).symm.trans hkey)
  exact ⟨more, by rw [hname]⟩

theorem holds_itemsFrom (hts : Passes ts) (h : ∀ us ∈ tss, Passes us) (rest : List Token) :
    (itemsFrom (ts ++ (tss.flatMap (comma :: ·) ++ .closeArray :: rest))).Holds Opens
      (ts :: tss) rest := by
  induction tss generalizing ts with
  | nil =>
    have hskip := hts.skipValue (.closeArray :: rest)
    obtain ⟨t, us, rfl, -⟩ := hts.eq_cons
    simp only [List.flatMap_nil, List.nil_append, List.cons_append] at hskip ⊢
    rw [itemsFrom, hskip]
    exact ⟨rfl, .cons ⟨_, rfl⟩ .nil⟩
  | cons us tss ih =>
    have hothers := ih (h us List.mem_cons_self) fun vs hvs => h vs (List.mem_cons_of_mem _ hvs)
    have hskip := hts.skipValue
      (.comma :: (us ++ (tss.flatMap (comma :: ·) ++ .closeArray :: rest)))
    obtain ⟨t, ts, rfl, -⟩ := hts.eq_cons
    simp only [List.flatMap_cons, List.append_assoc, List.cons_append] at hskip hothers ⊢
    rw [itemsFrom, hskip]
    exact hothers.push ⟨_, rfl⟩

theorem holds_items (h : ∀ ts ∈ tss, Passes ts) (rest : List Token) :
    ∃ ts, enclosed .openArray .closeArray tss ++ rest = .openArray :: ts ∧
      (items ts).Holds Opens tss rest := by
  cases tss with
  | nil => exact ⟨.closeArray :: rest, rfl, rfl, .nil⟩
  | cons ts tss =>
    have hfirst := h ts List.mem_cons_self
    have hholds := holds_itemsFrom hfirst (fun us hus => h us (List.mem_cons_of_mem _ hus)) rest
    refine ⟨ts ++ (tss.flatMap (comma :: ·) ++ .closeArray :: rest), by simp [enclosed], ?_⟩
    obtain ⟨t, us, rfl, ht⟩ := hfirst.eq_cons
    simp only [List.cons_append] at hholds ⊢
    rw [items]
    · exact hholds
    · rintro more he
      cases he
      exact ht rfl

theorem holds_membersFrom {m : List Piece × List Token} (hm : Passes m.2)
    (hname : ∃ name, readPieces m.1 none = .ok name) (h : ∀ m ∈ inPieces, Passes m.2)
    (hnames : ∀ m ∈ inPieces, ∃ name, readPieces m.1 none = .ok name) (rest : List Token) :
    (membersFrom (keyed m.1 m.2 ++
      ((inPieces.map fun m => keyed m.1 m.2).flatMap (comma :: ·) ++
        .closeObject :: rest))).Holds Member.Reads (m :: inPieces) rest := by
  obtain ⟨name, hname⟩ := hname
  induction inPieces generalizing m name with
  | nil =>
    have hskip := hm.skipValue (.closeObject :: rest)
    simp only [keyed, List.map_nil, List.flatMap_nil, List.nil_append, List.cons_append]
    rw [membersFrom]
    simp only [hname, afterColon]
    rw [hskip]
    exact ⟨rfl, .cons ⟨hname, _, rfl⟩ .nil⟩
  | cons m' inPieces ih =>
    obtain ⟨name', hname'⟩ := hnames m' List.mem_cons_self
    have hothers := ih (h m' List.mem_cons_self)
      (fun m'' hm'' => h m'' (List.mem_cons_of_mem _ hm''))
      (fun m'' hm'' => hnames m'' (List.mem_cons_of_mem _ hm'')) name' hname'
    have hskip := hm.skipValue (.comma :: (keyed m'.1 m'.2 ++
      ((inPieces.map fun m => keyed m.1 m.2).flatMap (comma :: ·) ++ .closeObject :: rest)))
    simp only [List.map_cons, List.flatMap_cons, List.append_assoc, List.cons_append] at hskip ⊢
    rw [keyed]
    simp only [List.cons_append]
    rw [membersFrom]
    simp only [hname, afterColon]
    rw [hskip]
    exact hothers.push ⟨hname, _, rfl⟩

/-- The members of an object are found one after the other if their keys can be read. -/
theorem holds_keyed (h : ∀ m ∈ inPieces, Passes m.2)
    (hnames : ∀ m ∈ inPieces, ∃ name, readPieces m.1 none = .ok name) (rest : List Token) :
    ∃ ts, enclosed .openObject .closeObject (inPieces.map fun m => keyed m.1 m.2) ++ rest =
        .openObject :: ts ∧ (members ts).Holds Member.Reads inPieces rest := by
  cases inPieces with
  | nil => exact ⟨.closeObject :: rest, rfl, rfl, .nil⟩
  | cons m inPieces =>
    have hholds := holds_membersFrom (h m List.mem_cons_self) (hnames m List.mem_cons_self)
      (fun m' hm' => h m' (List.mem_cons_of_mem _ hm'))
      (fun m' hm' => hnames m' (List.mem_cons_of_mem _ hm')) rest
    refine ⟨keyed m.1 m.2 ++ ((inPieces.map fun m => keyed m.1 m.2).flatMap (comma :: ·) ++
      .closeObject :: rest), by simp [enclosed], hholds⟩

theorem holds_members (h : ∀ m ∈ written, Passes m.2) (rest : List Token) :
    ∃ ts, enclosed .openObject .closeObject (written.map fun m => memberOf m.1 m.2) ++ rest =
        .openObject :: ts ∧ (members ts).Holds Member.Opens written rest := by
  have hnames : ∀ m ∈ inChars written, ∃ name, readPieces m.1 none = .ok name := by
    intro m hm
    obtain ⟨m', -, rfl⟩ := List.mem_map.1 hm
    exact ⟨m'.1, readPieces_chars _⟩
  obtain ⟨ts, hts, hending, hentries⟩ := holds_keyed (forall_inChars h) hnames rest
  rw [map_inChars] at hts
  refine ⟨ts, hts, hending, ?_⟩
  rw [inChars, List.forall₂_map_right_iff] at hentries
  exact hentries.imp fun _ _ => Member.Reads.opens

end Reparam.Json
