import DependentClasses.Failure
import DependentClasses.Surface.Source
import DependentClasses.Text.Blank
import DependentClasses.Text.Line
import DependentClasses.Text.Width

/-! Reports: a message with the line of the source that it is about, and carets under the
place. -/
namespace DependentClasses

namespace Report

/-- A place in a source: the number of a line, the line, and the bytes of the line before the
place. -/
structure Position where
  number : Nat
  line : List Char
  offset : Nat

/-- Looks for a byte in lines, of which the first has the given number. -/
def Position.among (number offset : Nat) : List (List Char) → Option Position
  | [] => none
  | l :: ls =>
    if Text.byteLength l ≤ offset then among (number + 1) (offset - Text.byteLength l) ls
    else some ⟨number, l, offset⟩

def Position.atEnd (source : List Char) : Position :=
  ⟨source.count '\n' + 1, Text.lastLine source, Text.byteLength (Text.lastLine source)⟩

def expandTabs (s : List Char) : List Char := s.flatMap fun c => if c = '\t' then
  [' ', ' ', ' '] else [c]

def Position.shown (p : Position) : List Char := Text.trimEnd (expandTabs p.line)

/-- The columns before the place, unless it lies inside a character. -/
def Position.column (measure : List Char → Nat) (p : Position) : Option Nat :=
  (Text.takeBytes p.offset p.line).map fun s => measure (expandTabs s)

/-- A message with the line that it is about, and a row of carets under the line, after some
blanks. -/
def page (number offset : Nat) (message : String) (shown : List Char)
    (blanks carets : Nat) : String :=
  let number := toString number
  let margin := String.ofList (List.replicate number.length ' ')
  "[" ++ number ++ ":" ++ toString offset ++ "] error: " ++ message ++ "\n"
    ++ margin ++ " |\n"
    ++ number ++ " | " ++ String.ofList shown ++ "\n"
    ++ margin ++ " | " ++ String.ofList (List.replicate blanks ' ' ++ List.replicate carets '^') ++
      "\n"

/-- A message about `width` bytes from a place on. The carets stop at the end of the line. -/
def render (measure : List Char → Nat) (p : Position) (width : Nat) (message : String) :
    Option String :=
  (p.column measure).map fun column =>
    page p.number p.offset message p.shown column
      (min width (max (Text.byteLength p.shown - column) 1))

/-- A message about a span of a source; a span past the end is shown at the end. The columns of a
text are counted by `measure`. -/
def atSpan (measure : List Char → Nat) (source : String) (span : Span) (message : String) :
    Option String :=
  match Position.among 1 span.start (Text.lines source.toList) with
  | some p => render measure p (max (span.stop - span.start) 1) message
  | none => render measure (.atEnd source.toList) 1 message

end Report

def ParseError.report (source : String) (e : ParseError) : Option String :=
  Report.atSpan Text.width source ⟨e.offset, e.offset + 1⟩
    ("parse error: expected one of: " ++ e.expectation)

def Failure.report (source : String) (f : Failure) : Option String :=
  match f.span with
  | some span => Report.atSpan Text.width source span f.text
  | none => some ("error: " ++ f.text ++ "\n")

end DependentClasses
