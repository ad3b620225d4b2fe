import DependentClasses.Value.Basic

/-! The names in scope, the innermost first. The label is the name as it is written; the
name itself may have been made fresh. -/
namespace DependentClasses

structure Context.Entry where
  label : Name
  name : Name
  type : Value
  /-- A definition has a value, a parameter has none. -/
  value : Option Value

abbrev Context := List Context.Entry

namespace Context

def bind (ctx : Context) (label x : Name) (a : Value) : Context := ⟨label, x, a, none⟩ :: ctx

def define (ctx : Context) (label x : Name) (a v : Value) : Context := ⟨label, x, a, some v⟩ :: ctx

/-- What a written name refers to. -/
def find (ctx : Context) (label : Name) : Option Entry := ctx.find? fun e => e.label = label

/-- `x` is a parameter. -/
def isAbstract (ctx : Context) (x : Name) : Bool :=
  match ctx.find? fun e => e.name = x with
  | some e => e.value.isNone
  | none => false

def names (ctx : Context) : List Name := ctx.map Entry.name

/-- The value of a definition, and a parameter as a variable of its type. -/
def Entry.reading (e : Entry) : Value := e.value.getD (.variable e.type e.name)

def environment (ctx : Context) : Environment := ctx.map fun e => (e.name, e.reading)

end Context

end DependentClasses
