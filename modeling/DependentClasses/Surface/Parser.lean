import DependentClasses.Lexicon

/-! Backtracking readers of source text. Besides its result a reader leaves a trace: the
furthest place at which something was expected in vain, what was expected there, and the
symbols it came across. The trace of an abandoned alternative is kept. -/
namespace DependentClasses

inductive Expected
  | literal (text : String)
  | identifier
  | quoted
  | distinctLabels
  | endOfInput
  deriving DecidableEq

namespace Expected

def quotationMark : Char := '\x22'

def escaped (c : Char) : List Char := if c = quotationMark then ['\\', c] else [c]

def text : Expected → String
  | .literal s => String.ofList (quotationMark :: s.toList.flatMap escaped ++ [quotationMark])
  | .identifier => "identifier"
  | .quoted => "[^'\"']"
  | .distinctLabels => "distinct property names"
  | .endOfInput => "EOF"

end Expected

/-- A place in a source text: the number of bytes before it and the characters after it. -/
structure Cursor where
  offset : Nat
  rest : List Char

namespace Cursor

def skip : Nat → Cursor → Cursor
  | 0, c => c
  | _, ⟨o, []⟩ => ⟨o, []⟩
  | n + 1, ⟨o, ch :: rest⟩ => skip n ⟨o + ch.utf8Size, rest⟩

end Cursor

structure Trace where
  furthest : Nat
  expected : List Expected
  symbols : List String

namespace Trace

def empty : Trace := ⟨0, [], []⟩

def expecting (offset : Nat) (e : Expected) : Trace := ⟨offset, [e], []⟩

def reading (symbol : String) : Trace := ⟨0, [], [symbol]⟩

/-- What was expected at the further of two places, or at both if they are the same. -/
def joinExpected (a b : Trace) : List Expected :=
  if a.furthest < b.furthest then b.expected
  else if b.furthest < a.furthest then a.expected
  else a.expected ++ b.expected.filter (· ∉ a.expected)

def join (a b : Trace) : Trace :=
  ⟨max a.furthest b.furthest, joinExpected a b, a.symbols ++ b.symbols.filter (· ∉ a.symbols)⟩

end Trace

structure Reply (α : Type) where
  result : Option (α × Cursor)
  trace : Trace

def Reply.failed {α : Type} (trace : Trace) : Reply α := ⟨none, trace⟩

/-- The same result, reached after `trace`. -/
def Reply.after {α : Type} (trace : Trace) (r : Reply α) : Reply α := ⟨r.result, trace.join r.trace⟩

def Parser (α : Type) := Cursor → Reply α

namespace Parser

variable {α β : Type}

protected def pure (a : α) : Parser α := fun c => ⟨some (a, c), .empty⟩

protected def bind (p : Parser α) (f : α → Parser β) : Parser β := fun c =>
  match p c with
  | ⟨none, t⟩ => .failed t
  | ⟨some (a, c'), t⟩ => (f a c').after t

/-- `q` is read from the same place when `p` fails. -/
protected def orElse (p q : Parser α) : Parser α := fun c =>
  match p c with
  | ⟨none, t⟩ => (q c).after t
  | r => r

instance : Monad Parser where
  pure := Parser.pure
  bind := Parser.bind

instance : OrElse (Parser α) where
  orElse p q := p.orElse (q ())

def expect (e : Expected) : Parser α := fun c => .failed (.expecting c.offset e)

def position : Parser Nat := fun c => ⟨some (c.offset, c), .empty⟩

def optional (p : Parser α) : Parser (Option α) := (some <$> p) <|> pure none

def upTo (p : Parser α) : Nat → Parser (List α)
  | 0 => pure []
  | n + 1 => (do let a ← p; let as ← upTo p n; pure (a :: as)) <|> pure []

/-- Readings of `p`, each of which uses up a character, until it fails. -/
def many (p : Parser α) : Parser (List α) := fun c => upTo p (c.rest.length + 1) c

def sepBy1 (p : Parser α) (separator : Parser Unit) : Parser (List α) := do
  let a ← p
  let as ← many (do separator; p)
  pure (a :: as)

def sepBy (p : Parser α) (separator : Parser Unit) : Parser (List α) :=
  sepBy1 p separator <|> pure []

end Parser

end DependentClasses
