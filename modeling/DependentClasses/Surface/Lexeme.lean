import DependentClasses.Surface.Parser

/-! The smallest pieces of source text: blanks and comments, fixed words, identifiers,
quoted texts. -/
namespace DependentClasses

namespace Lexeme

def isBlank (c : Char) : Bool := c == ' ' || c == '\t' || c == '\n' || c == '\r'

def isLetter (c : Char) : Bool := ('a' ≤ c && c ≤ 'z') || ('A' ≤ c && c ≤ 'Z')

def isWordChar (c : Char) : Bool := isLetter c || ('0' ≤ c && c ≤ '9') || c == '_'

def reserved : List String :=
  ["Type", "String", "Trivial", "sole", "class", "cons", "car", "cdr", "Equal", "same",
    "the", "exists",
   "implicit", "let", "check", "compute", "solve", "new", "return"]

/-- The place after blanks and comments; a comment runs from `//` to the end of its line. -/
def skipBlanks (inComment : Bool) (offset : Nat) : List Char → Cursor
  | [] => ⟨offset, []⟩
  | c :: rest =>
    if inComment then skipBlanks (c != '\n') (offset + c.utf8Size) rest
    else if isBlank c then skipBlanks false (offset + c.utf8Size) rest
    else if c == '/' && rest.head? == some '/' then skipBlanks true (offset + c.utf8Size) rest
    else ⟨offset, c :: rest⟩

def blanks : Parser Unit := fun c => ⟨some ((), skipBlanks false c.offset c.rest), .empty⟩

def literal (text : String) : Parser Unit := fun c =>
  if text.toList.isPrefixOf c.rest then ⟨some ((), c.skip text.length), .empty⟩
  else .failed (.expecting c.offset (.literal text))

/-- Holds where no word goes on. -/
def wordEnd : Parser Unit := fun c =>
  match c.rest with
  | ch :: _ => if isWordChar ch then .failed .empty else ⟨some ((), c), .empty⟩
  | [] => ⟨some ((), c), .empty⟩

def keyword (text : String) : Parser Unit := do literal text; wordEnd

/-- An unreserved word that starts with a letter, or with an underscore and has more characters. -/
def isIdentifier (word : List Char) : Bool :=
  match word with
  | [] => false
  | c :: more =>
    (isLetter c || (c == '_' && !more.isEmpty)) && !reserved.contains (String.ofList word)

def identifier : Parser Name := fun c =>
  let word := c.rest.takeWhile isWordChar
  if isIdentifier word then
    let symbol := String.ofList word
    ⟨some (⟨symbol, 0⟩, c.skip word.length), .reading symbol⟩
  else .failed (.expecting c.offset .identifier)

/-- An identifier, or a lone underscore for a binder that is not mentioned. -/
def binder : Parser Name := identifier <|> (do keyword "_"; pure Name.anonymous)

/-- The characters before the next quotation mark. Where they end, one more of them was expected in
vain. -/
def quotedText : Parser String := fun c =>
  let text := c.rest.takeWhile (· != Expected.quotationMark)
  let after := c.skip text.length
  ⟨some (String.ofList text, after), .expecting after.offset .quoted⟩

def quote : Parser String := do
  literal "\""
  let text ← quotedText
  literal "\""
  pure text

/-- What `items` reads with commas between; one more comma may follow the last. -/
def commaSeparated {α : Type} (items : Parser Unit → Parser (List α)) : Parser (List α) := do
  let as ← items (do blanks; literal ","; blanks)
  blanks
  let _ ← Parser.optional (literal ",")
  blanks
  pure as

def commaList {α : Type} (p : Parser α) : Parser (List α) := commaSeparated (Parser.sepBy p)

def commaList1 {α : Type} (p : Parser α) : Parser (List α) := commaSeparated (Parser.sepBy1 p)

def after {α : Type} (mark : String) (p : Parser α) : Parser α := do
  blanks
  literal mark
  blanks
  p

end Lexeme

end DependentClasses
