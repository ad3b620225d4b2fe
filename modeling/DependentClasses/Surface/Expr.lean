import DependentClasses.Name
import DependentClasses.Plicity

/-! Expressions and statements as they are written, each expression with the span of
source bytes that it was read from. -/
namespace DependentClasses

/-- The bytes of a source text from `start` up to, but without, `stop`. -/
structure Span where
  start : Nat
  stop : Nat
  deriving DecidableEq

mutual

structure Expr where
  span : Span
  form : Form

inductive Form
  | var (x : Name)
  | type
  | pi (plicity : Plicity) (x : Name) (domain codomain : Expr)
  | fn (plicity : Plicity) (x : Name) (domain : Option Expr) (body : Expr)
  | app (plicity : Plicity) (target arg : Expr)
  | sigma (x : Name) (carType cdrType : Expr)
  | cons (car cdr : Expr)
  | car (pair : Expr)
  | cdr (pair : Expr)
  | string
  | quote (text : String)
  | trivial
  | sole
  | equal (type left right : Expr)
  | same (value : Expr)
  | classOf (members : List Member)
  | object (fields : List (Name × Expr))
  | dot (target : Expr) (label : Name)
  /-- An object of a class, its properties given by name. -/
  | new (target : Expr) (fields : List (Name × Expr))
  /-- An object of a class, its unfulfilled properties given in order. -/
  | newWith (target : Expr) (args : List Expr)
  | the (type value : Expr)
  | letIn (x : Name) (type : Option Expr) (value body : Expr)

/-- A property of a written class: declared with a type, or fulfilled with a value. -/
inductive Member
  | declared (label : Name) (type : Expr)
  | fulfilled (label : Name) (type : Option Expr) (value : Expr)

end

def Member.label : Member → Name
  | .declared label _ => label
  | .fulfilled label _ _ => label

structure Equation where
  type : Option Expr
  left : Expr
  right : Expr

inductive Statement
  | define (x : Name) (type : Option Expr) (value : Expr)
  | check (value type : Expr)
  | compute (value : Expr)
  | solve (unknowns : List (Name × Expr)) (equations : List Equation)

end DependentClasses
