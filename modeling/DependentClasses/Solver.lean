import DependentClasses.Failure
import DependentClasses.Value.Reification

/-! Checks that may be refused, and checks that extend the solution as they go. A refused
check keeps what it has added to the solution, so that the checks around it can describe
their types as they have become. -/
namespace DependentClasses

/-- A check under a fixed solution. -/
abbrev Verdict := ExceptT Failure Eval

/-- A check that extends the solution. -/
abbrev Solver := ExceptT Failure (StateT Solution Eval)

def refuse {m : Type → Type} [MonadExcept Failure m] {α : Type} (cause : Cause) :
    m α := throw { cause }

namespace Solver

variable {α : Type}

def outOfFuel : Solver α := (Eval.outOfFuel : Eval α)

def reading (f : Solution → Eval α) : Solver α := do
  let s ← get
  f s

def judging (f : Solution → Verdict α) : Solver α := do
  let s ← get
  match ← (f s).run with
  | .ok a => pure a
  | .error e => throw e

def locating (span : Span) (x : Solver α) : Solver α := ExceptT.adapt (Failure.locate span) x

def within (frame : Frame) (x : Solver α) : Solver α := ExceptT.adapt (Failure.within frame) x

def force (n : Nat) (v : Value) : Solver Value := reading fun s => v.force n s

def reify (n : Nat) (ctx : Context) (v : Value) : Solver Term := reading fun s => s.reify n ctx v

def reifyChain (n : Nat) (ctx : Context) (c : Chain) : Solver Term :=
  reading fun s => s.reifyChain n ctx c

/-- The value of a term in a context, under the solution found so far. -/
def evaluate (n : Nat) (ctx : Context) (t : Term) : Solver Value :=
  reading fun s => eval n (s.environment ctx) t

def freshName (ctx : Context) (x : Name) : Solver Name := do
  let s ← get
  pure (s.freshName ctx x)

/-- A new unsolved pattern variable that may mention what is in scope. -/
def create (ctx : Context) (x : Name) (a : Value) : Solver Value := do
  modify fun s => s.create x a ctx.names
  pure (.variable a x)

end Solver

/-- A fresh parameter of type `a`, and the context that has it. -/
def Solution.witness (s : Solution) (ctx : Context) (x : Name) (a : Value) : Context × Value :=
  let y := s.freshName ctx x
  (ctx.bind y y a, .variable a y)

def Solver.witness (ctx : Context) (x : Name) (a : Value) : Solver (Context × Value) := do
  let s ← get
  pure (s.witness ctx x a)

end DependentClasses
