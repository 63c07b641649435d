import Reparam.Proofs.Json.Lexemes
import Reparam.Stored.Writer

/-! The tokens of a stored script. They are the same for every layout. -/
namespace Reparam

open Json (Leaf Writes)

variable {layout : Layout} {level : Nat} {left right : Char} {l r : Json.Token}
  {ts : List Json.Token} {entries : List (List Char)} {tss : List (List Json.Token)}

theorem Json.Leaf.writes (leaf : Leaf) : Writes leaf.write leaf.tokens := by
  intro rest hrest
  cases leaf with
  | natural n => exact Json.tokens_natural hrest
  | text s => exact Json.tokens_quote s rest
  | other =>
    have hblank : ¬ Json.Token.isBlank 'n' = true := by decide
    simp only [write, tokens, List.cons_append, List.nil_append]
    rw [Json.tokens, if_neg hblank]
    rfl

namespace Layout

theorem isBlank_lineBreak (layout : Layout) (level : Nat) : Json.IsBlank (layout.lineBreak level) := by
  cases layout with
  | compact => exact Json.isBlank_nil
  | pretty =>
    intro c hc
    rcases List.mem_cons.1 hc with rfl | hc
    · rfl
    · rw [List.eq_of_mem_replicate hc]
      rfl

theorem writes_member {value : List Char} (key : String) (h : Writes value ts) :
    Writes (layout.member key value) (Json.memberOf key ts) := by
  intro rest hrest
  have hcolon : Json.tokens (layout.colon ++ (value ++ rest)) =
      .colon :: (ts ++ Json.tokens rest) := by
    cases layout with
    | compact => exact (Json.tokens_punctuation rfl).trans (congrArg _ (h rest hrest))
    | pretty =>
      have hblank : Json.IsBlank [' '] := by simp [Json.IsBlank, Json.Token.isBlank]
      refine (Json.tokens_punctuation rfl).trans (congrArg _ ?_)
      exact (Json.tokens_blank hblank).trans (h rest hrest)
  simp only [member, List.append_assoc, Json.tokens_quote, hcolon, Json.memberOf, List.cons_append]

theorem writes_enclose (hl : Json.Token.punctuation? left = some l)
    (hr : Json.Token.punctuation? right = some r) (h : List.Forall₂ Writes entries tss) :
    Writes (layout.enclose level left right entries) (Json.enclosed l r tss) := by
  have hbefore := layout.isBlank_lineBreak (level + 1)
  have hpadded : List.Forall₂ Writes (entries.map (layout.lineBreak (level + 1) ++ ·)) tss := by
    refine List.forall₂_map_left_iff.2 (h.imp fun entry ts hentry => ?_)
    have hentry := hentry.padded hbefore Json.isBlank_nil
    rwa [List.append_nil] at hentry
  cases entries with
  | nil => exact Json.writes_enclosed hl hr Json.isBlank_nil Json.isBlank_nil hpadded
  | cons entry entries =>
    have hwhole := Json.writes_enclosed hl hr Json.isBlank_nil (layout.isBlank_lineBreak level) hpadded
    simpa [enclose, Json.commas, List.flatMap_map] using hwhole

end Layout

/-- The fields of an edit with its tag in front, as they are written. -/
def Edit.written (e : Edit) : List (String × Leaf) :=
  ("op", .text e.kind.tag) :: e.kind.fieldNames.zip e.fieldValues

def Edit.tokens (e : Edit) : List Json.Token :=
  Json.enclosed .openObject .closeObject (e.written.map fun (key, value) =>
    Json.memberOf key value.tokens)

def Script.tokens (s : Script) : List Json.Token :=
  Json.enclosed .openObject .closeObject
    [Json.memberOf "version" [.number (.ok (.ofNat formatVersion))],
      Json.memberOf "operations"
        (Json.enclosed .openArray .closeArray (s.map Edit.tokens))]

theorem Edit.writes (e : Edit) : Writes (e.write layout) e.tokens := by
  change Writes (layout.enclose 2 '{' '}' (e.written.map fun (key, value) =>
    layout.member key value.write)) e.tokens
  refine @Layout.writes_enclose layout 2 '{' '}' .openObject .closeObject _ _ rfl rfl ?_
  rw [List.forall₂_map_left_iff, List.forall₂_map_right_iff]
  exact List.forall₂_same.2 fun field _ => Layout.writes_member field.1 field.2.writes

theorem Script.writes (s : Script) : Writes (s.write layout) s.tokens := by
  have hedits : Writes (layout.enclose 1 '[' ']' (s.map (·.write layout)))
      (Json.enclosed .openArray .closeArray (s.map Edit.tokens)) := by
    refine @Layout.writes_enclose layout 1 '[' ']' .openArray .closeArray _ _ rfl rfl ?_
    rw [List.forall₂_map_left_iff, List.forall₂_map_right_iff]
    exact List.forall₂_same.2 fun e _ => e.writes
  have hversion : Writes (Nat.toDigits 10 formatVersion)
      [.number (.ok (.ofNat formatVersion))] := (Leaf.natural formatVersion).writes
  refine @Layout.writes_enclose layout 0 '{' '}' .openObject .closeObject _ _ rfl rfl ?_
  exact .cons (Layout.writes_member "version" hversion)
    (.cons (Layout.writes_member "operations" hedits) .nil)

/-- The tokens of a written script do not depend on its layout. -/
theorem Script.tokens_write (layout : Layout) (s : Script) :
    Json.tokens (s.write layout) = s.tokens := by
  exact s.writes.tokens_eq

end Reparam
