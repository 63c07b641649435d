import Reparam.Diff.Report

/-! Tables that show the lists of a comparison side by side, at its start and wherever a span is
rearranged or a window compared. -/
namespace Reparam

structure ComparisonTable where
  title : String
  text : String
deriving DecidableEq, Repr

namespace ComparisonTable

def blanks (n : Nat) : String := String.ofList (List.replicate n ' ')

def padLeft (width : Nat) (s : String) : String := blanks (width - s.length) ++ s

def padRight (width : Nat) (s : String) : String := s ++ blanks (width - s.length)

/-- Of an odd number of blanks, the one left over goes to the right. -/
def center (width : Nat) (s : String) : String :=
  let left := (width - s.length) / 2
  blanks left ++ padRight (width - left) s

def rule : String := String.ofList (List.replicate 96 '=')

def row (index reference target : String) : String :=
  "| " ++ index ++ " | " ++ reference ++ " | " ++ target ++ " |"

/-- The rows from an index on, as many as the longer list has. -/
def rows (index : Nat) : List String → List String → List String
  | [], [] => []
  | p :: ps, [] => cells p "" :: rows (index + 1) ps []
  | [], q :: qs => cells "" q :: rows (index + 1) [] qs
  | p :: ps, q :: qs => cells p q :: rows (index + 1) ps qs
where
  cells (p q : String) : String :=
    row (padRight 5 (toString index)) (padLeft 40 p) (padRight 40 q)

def ofLists (title : String) (reference target : List Placed) : ComparisonTable :=
  let sources (list : List Placed) := list.map (·.type.source)
  let head := row "Index" (center 40 "Reference") (center 40 "Target")
  ⟨title, String.intercalate "\n"
    ([head, rule] ++ rows 0 (sources reference) (sources target) ++ [rule])⟩

/-- A window is shown once its place in the working list is known. -/
def ofStage (d : Draft) : Stage → List ComparisonTable
  | .rearrange reference target => [ofLists "rearranging parameters" reference target]
  | .window (first :: reference) target =>
    match d.position first.ordinal with
    | .ok _ => [ofLists "comparing window" (first :: reference) target]
    | .error _ => []
  | _ => []

/-- The tables of stages up to the one that fails, if any does. -/
def ofStages : List Stage → Draft → List ComparisonTable
  | [], _ => []
  | stage :: rest, d =>
    ofStage d stage ++
      match d.perform stage with
      | .ok d => ofStages rest d
      | .error _ => []

end ComparisonTable

def comparisonTables (names : NameTieBreak) (reference target : List Parameter) :
    List ComparisonTable :=
  .ofLists "comparing parameters" (Placed.ofList reference) (Placed.ofList target) ::
    ComparisonTable.ofStages (stages names reference target) (.initial reference.length)

end Reparam
