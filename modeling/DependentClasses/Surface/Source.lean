import DependentClasses.Surface.Grammar

/-! Reading whole source texts. A table has the expression at every place of the source, and
each is read once, when it is first asked for, so that backtracking reads no text again. -/
namespace DependentClasses

/-- What is read at one place of a source, once it is asked for. -/
structure Entry where
  offset : Nat
  atom : Thunk (Reply Expr)
  expr : Thunk (Reply Expr)

namespace Entry

/-- The readers that look up what has been read at the place they are run at. -/
def rules (later : List Entry) : Rules where
  expr c := ((later.find? fun e => e.offset == c.offset).map (·.expr.get)).getD (.failed .empty)
  atom c := ((later.find? fun e => e.offset == c.offset).map (·.atom.get)).getD (.failed .empty)

def read (later : List Entry) (c : Cursor) : Entry :=
  let atom : Thunk (Reply Expr) := .mk fun _ => Grammar.atom (rules later) c
  let spine : Thunk (Reply Expr) := .mk fun _ => Grammar.spine (rules later) (fun _ => atom.get) c
  ⟨c.offset, atom, .mk fun _ => Grammar.expr (rules later) (fun _ => spine.get) c⟩

/-- The entries of every place of a text that starts at `offset`. -/
def table (offset : Nat) : List Char → List Entry
  | [] => [read [] ⟨offset, []⟩]
  | c :: rest =>
    let later := table (offset + c.utf8Size) rest
    read later ⟨offset, c :: rest⟩ :: later

end Entry

/-- The furthest place at which reading a source failed, and what was expected there. -/
structure ParseError where
  offset : Nat
  expected : List Expected

/-- The outcome of reading a source, with the symbols met on the way. -/
structure Reading (α : Type) where
  outcome : Except ParseError α
  symbols : List String

namespace Reading

/-- A reading succeeds if it uses up the source. -/
def ofReply {α : Type} (r : Reply α) : Reading α :=
  let symbols := Name.anonymous.symbol :: r.trace.symbols
  match r.result with
  | some (a, c) =>
    if c.rest.isEmpty then ⟨.ok a, symbols⟩
    else
      let t := r.trace.join (.expecting c.offset .endOfInput)
      ⟨.error ⟨t.furthest, t.expected⟩, symbols⟩
  | none => ⟨.error ⟨r.trace.furthest, r.trace.expected⟩, symbols⟩

def ofSource {α : Type} (rule : Rules → Parser α) (source : String) : Reading α :=
  ofReply (rule (Entry.rules (Entry.table 0 source.toList)) ⟨0, source.toList⟩)

end Reading

def Expr.ofSource (source : String) : Reading Expr := Reading.ofSource Grammar.wholeExpr source

def Statement.listOfSource (source : String) : Reading (List Statement) :=
  Reading.ofSource Grammar.statements source

namespace ParseError

def texts (e : ParseError) : List String :=
  e.expected.foldr (fun x => place x.text) []
where
  place (s : String) : List String → List String
    | [] => [s]
    | t :: ts => if t < s then t :: place s ts else s :: t :: ts

def expectation (e : ParseError) : String :=
  match e.texts with
  | [] => "<unreported>"
  | [t] => t
  | ts => "one of " ++ ", ".intercalate ts

end ParseError

/-- The line and the column of a place, both counted from one; a column is a character. -/
def lineColumn (source : String) (offset : Nat) : Nat × Nat :=
  go 0 1 1 source.toList
where
  go (at' line column : Nat) : List Char → Nat × Nat
    | [] => (line, column)
    | c :: rest =>
      if offset ≤ at' then (line, column)
      else if c == '\n' then go (at' + c.utf8Size) (line + 1) 1 rest
      else go (at' + c.utf8Size) line (column + 1) rest

end DependentClasses
