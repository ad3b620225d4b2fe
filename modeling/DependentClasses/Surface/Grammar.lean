import DependentClasses.Surface.Lexeme
import DependentClasses.Surface.Sugar

/-! The rules of the language. An expression inside another one starts further on in the
source, so the rules at a place take the readers of later places as an argument. -/
namespace DependentClasses

/-- The readers of expressions and of atoms at later places. -/
structure Rules where
  expr : Parser Expr
  atom : Parser Expr

namespace Grammar

open Lexeme

def spanned (p : Parser Form) : Parser Expr := do
  let start ← Parser.position
  let form ← p
  let stop ← Parser.position
  pure ⟨⟨start, stop⟩, form⟩

variable (later : Rules)

def annotation : Parser (Option Expr) := Parser.optional (after ":" later.expr)

/-- `x: A`. -/
def typed (name : Parser Name) : Parser (Name × Expr) := do
  let x ← name
  let type ← after ":" later.expr
  pure (x, type)

def implicitly {α : Type} (p : Parser α) : Parser α := do
  keyword "implicit"
  blanks
  p

def piBinder : Parser (Plicity × Name × Expr) :=
  (do let b ← implicitly (typed later identifier); pure (.implicit, b))
  <|> (do let b ← typed later binder; pure (.explicit, b))
  <|> (do let type ← later.expr; pure (.explicit, Name.anonymous, type))

def sigmaBinder : Parser (Name × Expr) :=
  typed later binder <|> (do let type ← later.expr; pure (Name.anonymous, type))

def fnBinder : Parser (Plicity × Name × Option Expr) :=
  (do let x ← implicitly identifier; let type ← annotation later; pure (.implicit, x, type))
  <|> (do let x ← binder; let type ← annotation later; pure (.explicit, x, type))

def argument : Parser (Plicity × Expr) :=
  (do let e ← implicitly later.expr; pure (.implicit, e))
  <|> (do let e ← later.expr; pure (.explicit, e))

def member : Parser Member :=
  (do
    let (label, type) ← typed later identifier
    match ← Parser.optional (after "=" later.expr) with
    | some value => pure (.fulfilled label (some type) value)
    | none => pure (.declared label type))
  <|> (do
    let label ← identifier
    let value ← after "=" later.expr
    pure (.fulfilled label none value))

def field : Parser (Name × Expr) := typed later identifier

/-- A definition in a block; a check there defines a value that is not mentioned. -/
def definition : Parser (Name × Option Expr × Expr) :=
  (do
    keyword "let"
    blanks
    let x ← binder
    let type ← annotation later
    let value ← after "=" later.expr
    pure (x, type, value))
  <|> (do
    keyword "check"
    blanks
    let value ← later.expr
    let type ← after ":" later.expr
    pure (Name.anonymous, some type, value))

def parenthesized : Parser Expr := do
  literal "("
  blanks
  let e ← later.expr
  blanks
  literal ")"
  pure e

def classLiteral : Parser Expr := do
  let start ← Parser.position
  keyword "class"
  blanks
  literal "\x7b"
  blanks
  let members ← commaList (member later)
  literal "\x7d"
  let stop ← Parser.position
  if Member.Distinct members then pure ⟨⟨start, stop⟩, .classOf members⟩
  else Parser.expect .distinctLabels

def block : Parser Expr := do
  let start ← Parser.position
  literal "\x7b"
  blanks
  let definitions ← Parser.sepBy (definition later) blanks
  blanks
  keyword "return"
  blanks
  let body ← later.expr
  blanks
  literal "\x7d"
  let stop ← Parser.position
  pure (Expr.lets ⟨start, stop⟩ definitions body)

/-- `{ x: a, y: b }`. -/
def fields : Parser (List (Name × Expr)) := do
  literal "\x7b"
  blanks
  let fs ← commaList (field later)
  literal "\x7d"
  pure fs

/-- `(a, b)`. -/
def positional : Parser (List Expr) := do
  literal "("
  blanks
  let args ← commaList later.expr
  literal ")"
  pure args

def newObject : Parser Form := do
  keyword "new"
  blanks
  let target ← later.atom
  blanks
  (do let args ← positional later; pure (.newWith target args))
  <|> (do let fs ← fields later; pure (.new target fs))

def call1 (word : String) (form : Expr → Form) : Parser Form := do
  literal word
  let a ← after "(" later.expr
  blanks
  literal ")"
  pure (form a)

def call2 (word : String) (form : Expr → Expr → Form) : Parser Form := do
  literal word
  let a ← after "(" later.expr
  let b ← after "," later.expr
  blanks
  literal ")"
  pure (form a b)

def call3 (word : String) (form : Expr → Expr → Expr → Form) : Parser Form := do
  literal word
  let a ← after "(" later.expr
  let b ← after "," later.expr
  let c ← after "," later.expr
  blanks
  literal ")"
  pure (form a b c)

def constant (word : String) (form : Form) : Parser Form := do
  keyword word
  pure form

def simple : Parser Form :=
  constant "Type" .type
  <|> constant "String" .string
  <|> constant "Trivial" .trivial
  <|> constant "sole" .sole
  <|> (do let text ← quote; pure (.quote text))
  <|> (do let fs ← fields later; pure (.object fs))
  <|> call2 later "cons" .cons
  <|> call1 later "car" .car
  <|> call1 later "cdr" .cdr
  <|> call3 later "Equal" .equal
  <|> call1 later "same" .same
  <|> call2 later "the" .the
  <|> (do let x ← identifier; pure (.var x))

def atom : Parser Expr :=
  parenthesized later
  <|> classLiteral later
  <|> block later
  <|> spanned (newObject later)
  <|> spanned (simple later)

/-- The target applied to the arguments that follow, or its property that follows. -/
def suffix (start : Nat) (target : Expr) : Parser Expr :=
  (do
    literal "("
    blanks
    let args ← commaList (argument later)
    literal ")"
    let stop ← Parser.position
    pure (Expr.apps ⟨start, stop⟩ target args))
  <|> (do
    literal "."
    let label ← identifier
    let stop ← Parser.position
    pure ⟨⟨start, stop⟩, .dot target label⟩)

def suffixes (start : Nat) : Nat → Expr → Parser Expr
  | 0, target => pure target
  | n + 1, target => (do let e ← suffix later start target; suffixes start n e) <|> pure target

/-- An atom with its suffixes, each of which uses up a character. -/
def spine (atom : Parser Expr) : Parser Expr := do
  let start ← Parser.position
  let target ← atom
  fun c => suffixes later start (c.rest.length + 1) target c

/-- `(x: A, B) -> C`. -/
def boundArrow : Parser Expr := do
  let start ← Parser.position
  literal "("
  blanks
  let binders ← commaList1 (piBinder later)
  literal ")"
  let codomain ← after "->" later.expr
  let stop ← Parser.position
  pure (Expr.pis ⟨start, stop⟩ binders codomain)

/-- `A -> B`, where `A` has no arrow of its own. -/
def arrow (spine : Parser Expr) : Parser Expr := do
  let start ← Parser.position
  let domain ← spine
  let codomain ← after "->" later.expr
  let stop ← Parser.position
  pure (Expr.pis ⟨start, stop⟩ [(.explicit, Name.anonymous, domain)] codomain)

/-- `(x: A, y)`, before the arrow of a function. -/
def parameters : Parser (List (Plicity × Name × Option Expr)) := do
  literal "("
  blanks
  let binders ← commaList1 (fnBinder later)
  literal ")"
  pure binders

def function : Parser Expr :=
  (do
    let start ← Parser.position
    let binders ← parameters later
    let type ← after ":" later.expr
    let body ← after "=>" later.expr
    let stop ← Parser.position
    pure (Expr.typedFns ⟨start, stop⟩ binders type body))
  <|> (do
    let start ← Parser.position
    let binders ← parameters later
    let body ← after "=>" later.expr
    let stop ← Parser.position
    pure (Expr.fns ⟨start, stop⟩ binders body))

def sigma : Parser Expr := do
  let start ← Parser.position
  keyword "exists"
  blanks
  literal "("
  blanks
  let binders ← commaList1 (sigmaBinder later)
  literal ")"
  blanks
  let cdrType ← later.expr
  let stop ← Parser.position
  pure (Expr.sigmas ⟨start, stop⟩ binders cdrType)

def expr (spine : Parser Expr) : Parser Expr :=
  boundArrow later <|> arrow later spine <|> function later <|> sigma later <|> spine

def equation : Parser Equation := do
  let left ← later.expr
  let right ← after "=" later.expr
  let type ← annotation later
  pure ⟨type, left, right⟩

def statement : Parser Statement :=
  (do
    keyword "let"
    blanks
    let x ← identifier
    let type ← annotation later
    let value ← after "=" later.expr
    pure (.define x type value))
  <|> (do
    keyword "check"
    blanks
    let value ← later.expr
    let type ← after ":" later.expr
    pure (.check value type))
  <|> (do
    keyword "compute"
    blanks
    let value ← later.expr
    pure (.compute value))
  <|> (do
    literal "solve"
    blanks
    literal "("
    blanks
    let unknowns ← commaList (typed later identifier)
    literal ")"
    blanks
    literal "\x7b"
    blanks
    let equations ← Parser.sepBy (equation later) blanks
    blanks
    literal "\x7d"
    pure (.solve unknowns equations))

def statements : Parser (List Statement) := do
  blanks
  let ss ← Parser.sepBy (statement later) blanks
  blanks
  pure ss

def wholeExpr : Parser Expr := do
  blanks
  let e ← later.expr
  blanks
  pure e

end Grammar

end DependentClasses
