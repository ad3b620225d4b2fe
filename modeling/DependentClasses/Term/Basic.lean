import DependentClasses.Name
import DependentClasses.Plicity

/-! Terms: what elaboration makes of expressions. Every binder has a type, every implicit
argument is present, and a class is a chain of properties that ends in the empty class. -/
namespace DependentClasses

inductive Term
  | var (x : Name)
  | type
  | pi (plicity : Plicity) (x : Name) (domain codomain : Term)
  | fn (plicity : Plicity) (x : Name) (domain body : Term)
  | app (plicity : Plicity) (target arg : Term)
  | sigma (x : Name) (carType cdrType : Term)
  | cons (car cdr : Term)
  | car (pair : Term)
  | cdr (pair : Term)
  | string
  | quote (text : String)
  | trivial
  | sole
  | equal (type left right : Term)
  | same (value : Term)
  | emptyClass
  /-- A property without a value; `x` stands for it in the rest of the class. -/
  | declared (label x : Name) (type rest : Term)
  /-- A property that the class itself gives a value; `x` stands for it in the rest of the class. -/
  | fulfilled (label x : Name) (type value rest : Term)
  | object (fields : List (Name × Term))
  | dot (target : Term) (label : Name)
  | letIn (x : Name) (type value body : Term)

end DependentClasses
