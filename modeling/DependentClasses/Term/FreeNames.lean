import DependentClasses.Term.Basic

/-! The names that occur free in a term, in the order of their occurrences. -/
namespace DependentClasses

namespace Term

mutual

/-- The occurrences in a term of names outside `bound`. -/
def freeIn (bound : List Name) : Term → List Name
  | .var x => if x ∈ bound then [] else [x]
  | .type => []
  | .pi _ x domain codomain => domain.freeIn bound ++ codomain.freeIn (x :: bound)
  | .fn _ x domain body => domain.freeIn bound ++ body.freeIn (x :: bound)
  | .app _ target arg => target.freeIn bound ++ arg.freeIn bound
  | .sigma x carType cdrType => carType.freeIn bound ++ cdrType.freeIn (x :: bound)
  | .cons a b => a.freeIn bound ++ b.freeIn bound
  | .car pair => pair.freeIn bound
  | .cdr pair => pair.freeIn bound
  | .string => []
  | .quote _ => []
  | .trivial => []
  | .sole => []
  | .equal ty left right => ty.freeIn bound ++ left.freeIn bound ++ right.freeIn bound
  | .same value => value.freeIn bound
  | .emptyClass => []
  | .declared _ x ty rest => ty.freeIn bound ++ rest.freeIn (x :: bound)
  | .fulfilled _ x ty value rest =>
    ty.freeIn bound ++ value.freeIn bound ++ rest.freeIn (x :: bound)
  | .object fields => fieldsFreeIn bound fields
  | .dot target _ => target.freeIn bound
  | .letIn x ty value body => ty.freeIn bound ++ value.freeIn bound ++ body.freeIn (x :: bound)

def fieldsFreeIn (bound : List Name) : List (Name × Term) → List Name
  | [] => []
  | (_, value) :: fields => value.freeIn bound ++ fieldsFreeIn bound fields

end

def freeNames (t : Term) : List Name := (t.freeIn []).eraseDups

end Term

end DependentClasses
