import DependentClasses.Term.Basic

/-! Values: terms in the course of being computed. The body of a binder waits in a closure
for its argument, and a computation that is stuck on a variable is neutral and knows its
type. -/
namespace DependentClasses

mutual

inductive Value
  | neutral (type : Value) (spine : Neutral)
  | type
  | pi (plicity : Plicity) (domain : Value) (codomain : Closure)
  | fn (plicity : Plicity) (domain : Value) (body : Closure)
  | sigma (carType : Value) (cdrType : Closure)
  | cons (car cdr : Value)
  | string
  | quote (text : String)
  | trivial
  | sole
  | equal (type left right : Value)
  | same (value : Value)
  | classOf (chain : Chain)
  | object (fields : List (Name × Value))

/-- A variable under the operations that it blocks. An argument keeps the type it was given at. -/
inductive Neutral
  | var (x : Name)
  | app (plicity : Plicity) (target : Neutral) (argType arg : Value)
  | car (pair : Neutral)
  | cdr (pair : Neutral)
  | dot (target : Neutral) (label : Name)

/-- The properties of a class in order. What follows an unfulfilled property depends on its
value. -/
inductive Chain
  | nil
  | declared (label : Name) (type : Value) (rest : Closure)
  | fulfilled (label : Name) (type value : Value) (rest : Chain)

/-- A term that waits for the value of one name, with the values of the others. -/
structure Closure where
  env : List (Name × Value)
  x : Name
  body : Term

end

/-- The values of names; of two values for a name the first counts. -/
abbrev Environment := List (Name × Value)

def Value.variable (a : Value) (x : Name) : Value := .neutral a (.var x)

/-- The values that the body of a closure is computed with, once its name has a value. -/
def Closure.bind (c : Closure) (v : Value) : Environment := (c.x, v) :: c.env

def Value.kind : Value → String
  | .neutral _ _ => "TypedNeutral"
  | .type => "Type"
  | .pi .explicit _ _ => "Pi"
  | .pi .implicit _ _ => "PiImplicit"
  | .fn .explicit _ _ => "Fn"
  | .fn .implicit _ _ => "FnImplicit"
  | .sigma _ _ => "Sigma"
  | .cons _ _ => "Cons"
  | .string => "String"
  | .quote _ => "Quote"
  | .trivial => "Trivial"
  | .sole => "Sole"
  | .equal _ _ _ => "Equal"
  | .same _ => "Same"
  | .classOf _ => "Clazz"
  | .object _ => "Objekt"

namespace Neutral

def head : Neutral → Name
  | .var x => x
  | .app _ target _ _ => target.head
  | .car pair => pair.head
  | .cdr pair => pair.head
  | .dot target _ => target.head

def kind : Neutral → String
  | .var _ => "Var"
  | .app .explicit _ _ _ => "Ap"
  | .app .implicit _ _ _ => "ApImplicit"
  | .car _ => "Car"
  | .cdr _ => "Cdr"
  | .dot _ _ => "Dot"

end Neutral

end DependentClasses
