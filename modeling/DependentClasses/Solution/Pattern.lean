import DependentClasses.Solver
import DependentClasses.Term.Alpha

/-! Equations with a pattern variable on one side. A pattern variable applied to distinct
parameters is solved by the function of these parameters that gives the other side. -/
namespace DependentClasses

structure PatternSpine.Arg where
  plicity : Plicity
  type : Value
  value : Value

/-- An unsolved pattern variable and what it is applied to. -/
structure PatternSpine where
  head : Name
  args : List PatternSpine.Arg

def Neutral.patternSpine (s : Solution) : Neutral → Option PatternSpine
  | .var x => if s.isUnsolved x then some ⟨x, []⟩ else none
  | .app p target a v => (target.patternSpine s).map fun ⟨head, args⟩ => ⟨head, args ++ [⟨p, a, v⟩]⟩
  | _ => none

def Value.patternSpine (s : Solution) : Value → Option PatternSpine
  | .neutral _ spine => spine.patternSpine s
  | _ => none

namespace PatternSpine

/-- Arguments of the same kinds and with the same normal forms. -/
def sameArgs (n : Nat) (s : Solution) (ctx : Context) : List Arg → List Arg → Eval Bool
  | [], [] => pure true
  | a :: as, b :: bs =>
    if a.plicity = b.plicity then do
      let l ← s.reify n ctx a.value
      let r ← s.reify n ctx b.value
      if l.alphaEquivalent r then sameArgs n s ctx as bs else pure false
    else pure false
  | _, _ => pure false

def same (n : Nat) (s : Solution) (ctx : Context) (l r : PatternSpine) : Eval Bool :=
  if l.head = r.head ∧ l.args.length = r.args.length then
    sameArgs n s ctx l.args r.args else pure false

/-- The parameters that a spine applies `head` to, which have to be distinct. -/
def parameters (n : Nat) (s : Solution) (ctx : Context) (head : Name) (seen : List Name) :
    List Arg → Verdict (List Name)
  | [] => pure seen
  | a :: as => do
    match ← a.value.force n s with
    | .neutral _ (.var x) =>
      if ctx.isAbstract x && !s.isPatternVariable x && x ∉ seen then
        parameters n s ctx head (seen ++ [x]) as
      else refuse (.nonPatternSpine head)
    | _ => refuse (.nonPatternSpine head)

def abstracted (n : Nat) (s : Solution) (ctx : Context) : List (Arg × Name) → Term → Eval Term
  | [], body => pure body
  | (a, x) :: rest, body => do
    let body ← abstracted n s ctx rest body
    let domain ← s.reify n ctx a.type
    pure (.fn a.plicity x domain body)

/-- A solution of `head` mentions only parameters, names of its scope and other pattern variables.
The first name that is neither is told. -/
def checkScope (s : Solution) (head : Name) (parameters scope : List Name) :
    List Name → Verdict Unit
  | [] => pure ()
  | x :: xs =>
    if x = head then refuse (.occursCheck head)
    else if x ∉ parameters ∧ x ∉ scope ∧ s.isPatternVariable x = false then
      refuse (.scopeEscape head x)
    else checkScope s head parameters scope xs

/-- The solution in which the application has the value `other`. -/
def solve (n : Nat) (s : Solution) (ctx : Context) (spine : PatternSpine) (other : Value) :
    Verdict Solution := do
  let xs ← parameters n s ctx spine.head [] spine.args
  let body ← s.reify n ctx other
  match s.find spine.head with
  | some (.unsolved _ scope) => do
    checkScope s spine.head xs scope (s.listing.arrange body.freeNames)
    let t ← abstracted n s ctx (spine.args.zip xs) body
    let v ← eval n (s.environment ctx) t
    pure (s.bind spine.head v)
  | _ => refuse (.internal ("pattern variable " ++ spine.head.text ++ " is not unsolved"))

end PatternSpine

end DependentClasses
