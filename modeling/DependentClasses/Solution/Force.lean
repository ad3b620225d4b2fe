import DependentClasses.Solution.Basic
import DependentClasses.Value.Evaluation

/-! Solved pattern variables give way to their solutions at the head of a value. -/
namespace DependentClasses

/-- The operations of a stuck computation, carried out on the solution of its head. -/
def Neutral.resume (n : Nat) (s : Solution) : Neutral → Eval (Option Value)
  | .var x =>
    match s.find x with
    | some (.solved _ v) => pure (some v)
    | _ => pure none
  | .app p target _ arg => do
    match ← target.resume n s with
    | some f => some <$> f.app n p arg
    | none => pure none
  | .car pair => do
    match ← pair.resume n s with
    | some v => some <$> v.car
    | none => pure none
  | .cdr pair => do
    match ← pair.resume n s with
    | some v => some <$> v.cdr n
    | none => pure none
  | .dot target label => do
    match ← target.resume n s with
    | some v => some <$> v.dot n label
    | none => pure none

/-- The value with no solved pattern variable at its head. -/
def Value.force : Nat → Solution → Value → Eval Value
  | 0, _, _ => Eval.outOfFuel
  | n + 1, s, v =>
    match v with
    | .neutral _ spine => do
      match ← spine.resume n s with
      | some w => w.force n s
      | none => pure v
    | _ => pure v

end DependentClasses
