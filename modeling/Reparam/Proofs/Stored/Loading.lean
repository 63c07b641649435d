import Reparam.Proofs.Stored.Edits

/-! Stored scripts load back unchanged, whatever their layout, just when their types come back from
their descriptors. Every script that is ever loaded is of that kind. -/
namespace Reparam

open Json (Member enclosed memberOf)

variable {s : Script} {rest ts : List Json.Token}

namespace Script

/-- Every type comes back from its descriptor. -/
def WellNamed (s : Script) : Prop := ∀ e ∈ s, e.WellNamed

/-- Every number fits into what it is stored as. -/
def Storable (s : Script) : Prop := ∀ e ∈ s, e.Storable

end Script

namespace Stored

theorem passes_edits (s : Script) : ∀ ts ∈ s.map Edit.tokens, Json.Passes ts := by
  intro ts hts
  obtain ⟨e, -, rfl⟩ := List.mem_map.1 hts
  exact e.passes

theorem readEdits_tokens (hs : s.Storable) (hw : s.WellNamed) (rest : List Json.Token) :
    readEdits (enclosed .openArray .closeArray (s.map Edit.tokens) ++ rest) = .ok s := by
  obtain ⟨ts, hts, hending, hentries⟩ := Json.holds_items (passes_edits s) rest
  have hread : (Json.items ts).entries.mapM readEdit = .ok s := by
    rw [List.forall₂_map_right_iff] at hentries
    refine mapM_ok_of_forall₂ hentries ?_
    rintro item e he ⟨more, rfl⟩
    exact readEdit_tokens (hs e he) (hw e he) more
  rw [hts]
  simp only [readEdits, Json.readItems, hread, hending, bind, Except.bind]
  rfl

/-- The members of a written script. -/
def members (s : Script) : List (String × List Json.Token) :=
  [("version", [.number (.ok (.ofNat formatVersion))]),
    ("operations", enclosed .openArray .closeArray (s.map Edit.tokens))]

theorem passes_members (s : Script) : ∀ m ∈ members s, Json.Passes m.2 := by
  intro m hm
  rcases List.mem_pair.1 hm with rfl | rfl
  · exact Json.passes_leaf (.natural formatVersion)
  · exact Json.passes_array (passes_edits s)

theorem readVersion_number {n : Nat} (h : n < versionLimit) (rest : List Json.Token) :
    readVersion (.number (.ok (.ofNat n)) :: rest) = .ok n := by
  have hlimit : versionLimit ≤ Json.wordLimit := by decide
  have hread := Json.readNatural_number (Nat.lt_of_lt_of_le h hlimit) rest
  rw [readVersion, hread]
  simp only [ok_bind, require, h, decide_true, ↓reduceIte]
  rfl

section Members

variable {α : Type} {name key : String} {read : List Json.Token → Except Json.Fault α}

theorem takeMember_same {value : List Json.Token} {a : α} (h : read value = .ok a) :
    takeMember name read none ⟨name, .ok value⟩ = .ok (some a) := by
  simp only [takeMember, ne_eq, not_true_eq_false, ↓reduceIte, h, bind, Except.bind]
  rfl

theorem takeMember_other {value : Except Json.Fault (List Json.Token)} (h : key ≠ name)
    (found : Option α) : takeMember name read found ⟨key, value⟩ = .ok found := if_pos h

theorem foldlM_takeMember_others {ms : List Member} (h : ∀ m ∈ ms, m.key ≠ name)
    (found : Option α) : ms.foldlM (takeMember name read) found = .ok found := by
  induction ms with
  | nil => rfl
  | cons m ms ih =>
    have hm : takeMember name read found m = .ok found :=
      takeMember_other (h m List.mem_cons_self) found
    rw [List.foldlM_cons, hm, ok_bind]
    exact ih fun m' hm' => h m' (List.mem_cons_of_mem _ hm')

/-- The one member with a name is found, wherever it stands. -/
theorem readMember_one {c : Json.Contents Member} {front back : List Member}
    {value : List Json.Token} {a : α} (hc : c.entries = front ++ ⟨name, .ok value⟩ :: back)
    (hothers : ∀ m ∈ front ++ back, m.key ≠ name) (hread : read value = .ok a)
    (hend : c.ending = .ok rest) : readMember name read c = .ok (some a, rest) := by
  have hfront := @foldlM_takeMember_others α name read front
    (fun m hm => hothers m (List.mem_append_left _ hm)) none
  have hback := @foldlM_takeMember_others α name read back
    (fun m hm => hothers m (List.mem_append_right _ hm)) (some a)
  rw [readMember, hc, List.foldlM_append, hfront, ok_bind, List.foldlM_cons, takeMember_same hread,
    ok_bind, hback, ok_bind, hend]
  rfl

/-- What is found under a name was read from a member. -/
theorem readMember_sound {P : α → Prop} {c : Json.Contents Member} {a : α}
    (hread : ∀ ts a, read ts = .ok a → P a) (h : readMember name read c = .ok (some a, rest)) :
    P a := by
  obtain ⟨found, hfound, h⟩ := exists_of_bind h
  obtain ⟨_, -, h⟩ := exists_of_bind h
  cases h
  have hkeeps : ∀ b ∈ some a, P b := by
    refine foldlM_keeps (P := fun found => ∀ b ∈ found, P b) ?_ (by simp) hfound
    intro m _ found found' hfound htake
    unfold takeMember at htake
    split at htake
    · cases htake
      exact hfound
    · obtain ⟨_, -, htake⟩ := exists_of_bind htake
      obtain ⟨ts, -, htake⟩ := exists_of_bind htake
      obtain ⟨b, hb, htake⟩ := exists_of_bind htake
      cases htake
      rintro _ ⟨⟩
      exact hread ts b hb
  exact hkeeps a rfl

end Members

/-- The header and the edits of a written script are read off its tokens. -/
theorem read_tokens (hs : s.Storable) (hw : s.WellNamed) :
    readHeader s.tokens = .ok formatVersion ∧ readScript s.tokens = .ok s := by
  obtain ⟨ts, hts, hending, hentries⟩ := Json.holds_members (passes_members s) []
  obtain ⟨m, found, ⟨version, rfl⟩, hrest, hc⟩ := List.forall₂_cons_right_iff.1 hentries
  obtain ⟨m, _, ⟨edits, rfl⟩, ⟨⟩, rfl⟩ := List.forall₂_cons_right_iff.1 hrest
  have htokens : s.tokens = .openObject :: ts := by
    rw [List.append_nil] at hts
    exact hts
  have hversion : readMember "version" readVersion (Json.members ts) =
      .ok (some formatVersion, []) :=
    @readMember_one [] _ _ _ _ [] _ _ _ hc (by simp) (readVersion_number (by decide) version)
      hending
  have hedits : readMember "operations" readEdits (Json.members ts) = .ok (some s, []) :=
    @readMember_one [] _ _ _ _ [_] [] _ _ hc (by simp) (readEdits_tokens hs hw edits) hending
  rw [htokens]
  constructor
  · rw [readHeader, hversion]
    rfl
  · rw [readScript, hedits]
    rfl

theorem readEdits_sound (h : readEdits ts = .ok s) : s.Storable ∧ s.WellNamed := by
  obtain ⟨c, -, h⟩ := exists_of_bind h
  obtain ⟨edits, hedits, h⟩ := exists_of_bind h
  obtain ⟨_, -, h⟩ := exists_of_bind h
  cases h
  have hsound : ∀ e ∈ s, e.Storable ∧ e.WellNamed := by
    intro e he
    obtain ⟨ts', -, hread⟩ := exists_of_mem_mapM_ok hedits he
    exact readEdit_sound hread
  exact ⟨fun e he => (hsound e he).1, fun e he => (hsound e he).2⟩

theorem readScript_sound (h : readScript ts = .ok s) : s.Storable ∧ s.WellNamed := by
  unfold readScript at h
  split at h
  · obtain ⟨⟨found, rest⟩, hmember, h⟩ := exists_of_bind h
    obtain ⟨_, -, h⟩ := exists_of_bind h
    cases h
    cases found with
    | none => exact ⟨fun _ he => (List.not_mem_nil he).elim, fun _ he => (List.not_mem_nil he).elim⟩
    | some s =>
      exact readMember_sound (P := fun s : Script => s.Storable ∧ s.WellNamed)
        (fun _ _ => readEdits_sound) hmember
  · cases h

end Stored

namespace Script

theorem ofTokens_tokens (hs : s.Storable) (hw : s.WellNamed) : ofTokens s.tokens = .ok s := by
  obtain ⟨hheader, hscript⟩ := Stored.read_tokens hs hw
  rw [ofTokens, hheader]
  simp only [hscript, ne_eq, not_true_eq_false, ↓reduceIte]

theorem ofTokens_sound (h : ofTokens ts = .ok s) : s.Storable ∧ s.WellNamed := by
  unfold ofTokens at h
  split at h
  · cases h
  split at h
  · cases h
  split at h
  · cases h
  · rename_i hscript
    cases h
    exact Stored.readScript_sound hscript

theorem ofText_toText (layout : Layout) (hs : s.Storable) (hw : s.WellNamed) :
    ofText (s.toText layout) = .ok s := by
  rw [ofText, toText, String.toList_ofList, tokens_write]
  exact ofTokens_tokens hs hw

theorem ofOctets_toUTF8 (text : String) : ofOctets text.toUTF8 = ofText text := by
  have hread : String.fromUTF8? text.toUTF8 = some text := dif_pos text.isValidUTF8
  rw [ofOctets, hread]

end Script

/-- Stored scripts load back unchanged, from their text and from its octets, just when no class name
in them is empty or holds a semicolon. A script that was loaded from any text is stored and loaded
again as it is. -/
theorem stored_loads_back :
    (∀ (s : Script) (layout : Layout), s.Storable →
      (Script.ofText (s.toText layout) = .ok s ↔ s.WellNamed) ∧
      (Script.ofOctets (s.toText layout).toUTF8 = .ok s ↔ s.WellNamed)) ∧
    ∀ (text : String) (s : Script), Script.ofText text = .ok s → ∀ layout : Layout,
      Script.ofText (s.toText layout) = .ok s ∧
      Script.ofOctets (s.toText layout).toUTF8 = .ok s := by
  constructor
  · intro s layout hs
    rw [Script.ofOctets_toUTF8]
    have hloads : Script.ofText (s.toText layout) = .ok s ↔ s.WellNamed := by
      constructor
      · intro h
        exact (Script.ofTokens_sound h).2
      · intro hw
        exact Script.ofText_toText layout hs hw
    exact ⟨hloads, hloads⟩
  · intro text s h layout
    obtain ⟨hs, hw⟩ := Script.ofTokens_sound h
    rw [Script.ofOctets_toUTF8]
    exact ⟨Script.ofText_toText layout hs hw, Script.ofText_toText layout hs hw⟩

/-- A class name with a quote, a line break and a semicolon: without the semicolon it comes back. -/
theorem stored_loads_back_on_quote :
    (∀ layout : Layout, Script.ofText (Script.toText layout
        [.insert 1 (.array (.object "a/\"\n")), .inline 2 0]) =
      .ok [.insert 1 (.array (.object "a/\"\n")), .inline 2 0]) ∧
    Script.ofText (Script.toText .pretty [.replace 0 (.array (.object "a/\"\n;"))]) ≠
      .ok [.replace 0 (.array (.object "a/\"\n;"))] := by
  have hs : Script.Storable [.insert 1 (.array (.object "a/\"\n")), .inline 2 0] := by
    intro e he
    rcases List.mem_pair.1 he with rfl | rfl
    · exact (by decide : 1 < Json.wordLimit)
    · exact (by decide : 2 < Json.wordLimit ∧ 0 < generatorLimit)
  have hw : Script.WellNamed [.insert 1 (.array (.object "a/\"\n")), .inline 2 0] := by
    intro e he
    rcases List.mem_pair.1 he with rfl | rfl
    · rintro t ⟨⟩
      exact (by decide : "a/\"\n" ≠ "" ∧ ';' ∉ "a/\"\n".toList)
    · rintro t ⟨⟩
  constructor
  · have hfirst := (stored_loads_back.1 _ .pretty hs).1.2 hw
    exact fun layout => (stored_loads_back.2 _ _ hfirst layout).1
  · intro h
    have hw' := (stored_loads_back.1 [.replace 0 (.array (.object "a/\"\n;"))] .pretty (by
      intro e he
      rw [List.mem_singleton.1 he]
      exact (by decide : 0 < Json.wordLimit))).1.1 h
    have hname : "a/\"\n;" ≠ "" ∧ ';' ∉ "a/\"\n;".toList :=
      hw' (.replace 0 (.array (.object "a/\"\n;"))) List.mem_cons_self _ rfl
    exact absurd hname (by decide)

end Reparam
