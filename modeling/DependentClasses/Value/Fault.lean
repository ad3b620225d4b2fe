import DependentClasses.Name
import DependentClasses.Plicity

/-! How a computation may end without a value: the term asks for something that its values
do not have, or the allowed depth is used up. -/
namespace DependentClasses

inductive Fault
  | unboundVariable (x : Name)
  | notFunction (plicity : Plicity)
  | notFunctionType (plicity : Plicity)
  | notPair
  | notPairType
  | notObject
  | notClass
  | missingField (label : Name)
  | missingProperty (label : Name)
  | brokenChain

namespace Fault

def message : Fault → String
  | .unboundVariable x => "variable " ++ x.text ++ " is missing from the environment"
  | .notFunction .explicit => "applied a value that is not a function"
  | .notFunction .implicit => "implicitly applied a value that is not an implicit function"
  | .notFunctionType .explicit => "applied a neutral whose type is not a function type"
  | .notFunctionType .implicit =>
    "implicitly applied a neutral whose type is not an implicit function type"
  | .notPair => "projected from a value that is not a pair"
  | .notPairType => "projected from a neutral whose type is not a pair type"
  | .notObject => "accessed a property of a value that is not an object"
  | .notClass => "accessed a property of a neutral whose type is not a class"
  | .missingField label => "object has no property " ++ label.text
  | .missingProperty label => "class has no property " ++ label.text
  | .brokenChain => "the rest of a class must be a class"

end Fault

inductive Halt
  | fault (cause : Fault)
  | outOfFuel

/-- A computation of bounded depth. -/
abbrev Eval := Except Halt

namespace Eval

def fault {α : Type} (cause : Fault) : Eval α := .error (.fault cause)

def outOfFuel {α : Type} : Eval α := .error .outOfFuel

end Eval

end DependentClasses
