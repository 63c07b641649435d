import Mathlib.Logic.Relation
import Reparam.Method.Instruction

/-! Control in the code of a method. It starts at the first instruction, goes on to the next one
unless the instruction is an exit, and jumps to labels. Whatever it comes to counts as reachable. -/
namespace Reparam

variable {code : Code} {i j : Instruction} {k : Nat} {live : Bool}

/-- The label that an instruction may send control to. -/
def Instruction.target? : Instruction → Option Nat
  | jump target | branch _ target => some target
  | _ => none

namespace Code

/-- Control goes from one position to another in one step. Of a label that stands in several places
any may be meant. -/
inductive Step (code : Code) : Nat → Nat → Prop where
  | next {k : Nat} {i : Instruction} (hi : code[k]? = some i) (hexit : i.isExit = false) :
    Step code k (k + 1)
  | jump {k dest id : Nat} {i : Instruction} (hi : code[k]? = some i) (htarget : i.target? = some id)
    (hlabel : code[dest]? = some (.label id)) : Step code k dest

/-- Control comes to a position in any number of steps. -/
def Reaches (code : Code) (k : Nat) : Prop := Relation.ReflTransGen code.Step 0 k

theorem reachableFrom_label (hi : code[k]? = some i) (hlabel : i.label?.isSome = true) :
    (code.reachableFrom live)[k]? = some true := by
  induction code generalizing live k with
  | nil => cases hi
  | cons c code ih =>
    cases k with
    | zero =>
      cases hi
      simp [reachableFrom, hlabel]
    | succ k => exact ih hi

/-- The scan goes on behind an instruction that is in reach as control does. -/
theorem reachableFrom_next (hlive : (code.reachableFrom live)[k]? = some true)
    (hi : code[k]? = some i) (hexit : i.isExit = false) (hj : code[k + 1]? = some j) :
    (code.reachableFrom live)[k + 1]? = some true := by
  induction code generalizing live k with
  | nil => cases hi
  | cons c code ih =>
    cases k with
    | zero =>
      cases hi
      obtain _ | ⟨d, code⟩ := code
      · cases hj
      · have hhere : (live || i.label?.isSome) = true := by simpa [reachableFrom] using hlive
        simp [reachableFrom, hhere, hexit]
    | succ k => exact ih hlive hi hj

/-- The scan starts where control starts, and takes every step that control takes. -/
theorem Reaches.reachable (h : code.Reaches k) (hi : code[k]? = some i) :
    code.reachable[k]? = some true := by
  unfold Reaches at h
  induction h generalizing i with
  | refl =>
    obtain _ | ⟨c, code⟩ := code
    · cases hi
    · rfl
  | tail hpath hstep ih =>
    cases hstep with
    | next hbefore hexit => exact reachableFrom_next (ih hbefore) hbefore hexit hi
    | jump hbefore htarget hlabel => exact reachableFrom_label hlabel rfl

end Code
end Reparam
