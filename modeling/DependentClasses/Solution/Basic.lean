import DependentClasses.Context

/-! Pattern variables and what has been found out about them. -/
namespace DependentClasses

inductive PatternVariable
  /-- `scope` holds the names that a solution may mention. -/
  | unsolved (a : Value) (scope : List Name)
  | solved (a v : Value)

namespace PatternVariable

def type : PatternVariable → Value
  | .unsolved a _ => a
  | .solved a _ => a

/-- The solution, or the variable itself while there is none. -/
def reading (x : Name) : PatternVariable → Value
  | .unsolved a _ => .variable a x
  | .solved _ v => v

end PatternVariable

/-- An order in which the names of a set may be met. -/
structure Listing where
  arrange : List Name → List Name
  perm (xs : List Name) : (arrange xs).Perm xs

namespace Listing

def asFound : Listing := ⟨id, .refl⟩

variable (l : Listing)

@[simp] theorem mem_arrange {x : Name} {xs : List Name} : x ∈ l.arrange xs ↔ x ∈ xs :=
  (l.perm xs).mem_iff

@[simp] theorem arrange_nil : l.arrange [] = [] := (l.perm []).eq_nil

end Listing

structure Solution where
  entries : List (Name × PatternVariable) := []
  /-- Every name that has been handed out, also for other uses than a pattern variable. -/
  names : List Name := []
  /-- The order in which names are looked at that a solution may not mention. -/
  listing : Listing := .asFound

namespace Solution

def usedNames (s : Solution) (ctx : Context) : List Name := ctx.names ++ s.names

def freshName (s : Solution) (ctx : Context) (x : Name) : Name := x.fresh (s.usedNames ctx)

def reserve (s : Solution) (xs : List Name) : Solution :=
  { s with names := s.names ++ xs.filter (· ∉ s.names) }

def find (s : Solution) (x : Name) : Option PatternVariable := s.entries.lookup x

def create (s : Solution) (x : Name) (a : Value) (scope : List Name) : Solution :=
  { s.reserve [x] with entries := (x, .unsolved a scope) :: s.entries.filter (·.1 ≠ x) }

/-- Gives a pattern variable its solution; other names have none. -/
def bind (s : Solution) (x : Name) (v : Value) : Solution :=
  { s with entries := s.entries.map fun (y, old) => (y, if y = x then .solved old.type v else old) }

def isPatternVariable (s : Solution) (x : Name) : Bool := (s.find x).isSome

def isUnsolved (s : Solution) (x : Name) : Bool :=
  match s.find x with
  | some (.unsolved _ _) => true
  | _ => false

/-- `v` is stuck on an unsolved pattern variable. -/
def isPatternHeaded (s : Solution) : Value → Bool
  | .neutral _ spine => s.isUnsolved spine.head
  | _ => false

/-- The values of the names in scope and of all pattern variables. -/
def environment (s : Solution) (ctx : Context) : Environment :=
  s.entries.map (fun (x, v) => (x, v.reading x)) ++ ctx.environment

end Solution

end DependentClasses
