/-! The two kinds of function: those whose argument is written at the call, and those
whose argument is found by the elaborator. -/
namespace DependentClasses

inductive Plicity
  | explicit
  | implicit
  deriving DecidableEq

end DependentClasses
