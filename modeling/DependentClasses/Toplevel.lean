import DependentClasses.Elaboration
import DependentClasses.Surface.Source

/-! Programs: statements that are run one after another in a common scope. A statement
that fails leaves the scope as it was. -/
namespace DependentClasses

/-- The definitions made so far, the pattern variables they came with, and the symbols read so
far. -/
structure Toplevel where
  lexicon : Lexicon := []
  context : Context := []
  solution : Solution := {}

inductive Trouble
  | parse (error : ParseError)
  | failure (failure : Failure)
  | halt (halt : Halt)

/-- Refuses a term with an unsolved pattern variable, and names the first of them. -/
def ensureResolved (lexicon : Lexicon) (t : Term) : Solver Unit := do
  let s ← get
  match s.unsolvedNames lexicon t with
  | x :: _ => refuse (.unresolvedPatternVariable x)
  | [] => pure ()

namespace Equation

/-- Makes both sides equal: at the type that is written, or at the type that both sides have. -/
def solve (n : Nat) (ctx : Context) (e : Equation) : Solver Unit :=
  match e.type with
  | some type => do
    let (_, a) ← checkType n ctx type
    let l ← check n ctx e.left a
    let r ← check n ctx e.right a
    let l ← Solver.evaluate n ctx l
    let r ← Solver.evaluate n ctx r
    unify n ctx a l r
  | none => do
    let l ← infer n ctx e.left
    let r ← infer n ctx e.right
    Solver.judging fun s => convertType n s ctx l.type r.type
    let v ← Solver.evaluate n ctx l.term
    let w ← Solver.evaluate n ctx r.term
    unify n ctx l.type v w

/-- Solves equations in order. A failure tells the place of its equation. -/
def solveAll (n : Nat) (ctx : Context) : Nat → List Equation → Solver Unit
  | _, [] => pure ()
  | index, e :: es => do
    Solver.within (.equation index) (e.solve n ctx)
    solveAll n ctx (index + 1) es

end Equation

/-- Adds the unknowns of an equation system to a context, each as a pattern variable. -/
def bindUnknowns (n : Nat) : Context → List (Name × Expr) → Solver (Context × List (Name × Value))
  | ctx, [] => pure (ctx, [])
  | ctx, (label, type) :: unknowns => do
    let (_, a) ← checkType n ctx type
    let x ← Solver.freshName ctx label
    let v ← Solver.create ctx x a
    let (inner, vs) ← bindUnknowns n (ctx.bind label x a) unknowns
    pure (inner, (label, v) :: vs)

inductive Answer
  /-- A value in normal form, and its type. -/
  | computed (t u : Term)
  /-- The unknowns of an equation system, each with its solution. -/
  | solved (solutions : List (Name × Term))

namespace Answer

def terms : Answer → List Term
  | .computed t u => [t, u]
  | .solved solutions => solutions.map Prod.snd

def text : Answer → String
  | .computed t u => t.text ++ ": " ++ u.text
  | .solved solutions =>
    "\n".intercalate (solutions.map fun (label, t) => label.text ++ " = " ++ t.text)

end Answer

namespace Statement

def run (n : Nat) (lexicon : Lexicon) (ctx : Context) : Statement → Solver (Context × Option Answer)
  | .define label type value => do
    let (t, a) ← match type with
      | some type => do
        let (_, a) ← checkType n ctx type
        let t ← DependentClasses.check n ctx value a
        pure (t, a)
      | none => do
        let i ← infer n ctx value
        pure (i.term, i.type)
    let v ← Solver.evaluate n ctx t
    let u ← Solver.reify n ctx a
    ensureResolved lexicon u
    let w ← Solver.reify n ctx v
    ensureResolved lexicon w
    let a ← Solver.evaluate n ctx u
    let x ← Solver.freshName ctx label
    pure (ctx.define label x a v, none)
  | .check value type => do
    let (_, a) ← checkType n ctx type
    let t ← DependentClasses.check n ctx value a
    let v ← Solver.evaluate n ctx t
    let w ← Solver.reify n ctx v
    ensureResolved lexicon w
    pure (ctx, none)
  | .compute value => do
    let i ← infer n ctx value
    let v ← Solver.evaluate n ctx i.term
    let t ← Solver.reify n ctx v
    let u ← Solver.reify n ctx i.type
    ensureResolved lexicon t
    ensureResolved lexicon u
    pure (ctx, some (.computed t u))
  | .solve unknowns equations => do
    let (inner, vs) ← bindUnknowns n ctx unknowns
    Equation.solveAll n inner 0 equations
    let solutions ← vs.mapM fun (label, v) => do
      let t ← Solver.reify n ctx v
      ensureResolved lexicon t
      pure (label, t)
    pure (ctx, some (.solved solutions))

end Statement

namespace Toplevel

/-- Notes the symbols of a reading, whether it succeeds or not. -/
def note {α : Type} (m : Toplevel) (r : Reading α) : Toplevel :=
  { m with lexicon := m.lexicon.noteAll r.symbols }

/-- Runs a check in the scope. Its additions to the solution are kept if it succeeds. -/
def solve {α : Type} (m : Toplevel) (x : Solver α) : Except Trouble (α × Toplevel) :=
  match x.run.run m.solution with
  | .ok (.ok a, s) => .ok (a, { m with solution := s })
  | .ok (.error f, _) => .error (.failure f)
  | .error h => .error (.halt h)

/-- Runs one statement for its answer. -/
def answer (n : Nat) (m : Toplevel) (s : Statement) :
    Except Trouble (Option Answer × Toplevel) := do
  let ((ctx, a), m) ← m.solve (s.run n m.lexicon m.context)
  pure (a, { m with context := ctx })

def step (n : Nat) (m : Toplevel) (s : Statement) : Except Trouble (Option String × Toplevel) := do
  let (a, m) ← m.answer n s
  pure (a.map Answer.text, m)

/-- Runs statements up to the first one that fails; the scope is that before it. -/
def runAll (n : Nat) (m : Toplevel) : List Statement → Except Trouble (List String) × Toplevel
  | [] => (.ok [], m)
  | s :: ss =>
    match m.step n s with
    | .error t => (.error t, m)
    | .ok (output, m) =>
      match m.runAll n ss with
      | (.ok outputs, m) => (.ok (output.toList ++ outputs), m)
      | (.error t, m) => (.error t, m)

def execute (n : Nat) (m : Toplevel) (source : String) : Except Trouble (List String) × Toplevel :=
  let r := Statement.listOfSource source
  match r.outcome with
  | .error e => (.error (.parse e), m.note r)
  | .ok ss => (m.note r).runAll n ss

def lookup (m : Toplevel) (label : Name) : Option Value :=
  (m.context.find label).bind Context.Entry.value

end Toplevel

end DependentClasses
