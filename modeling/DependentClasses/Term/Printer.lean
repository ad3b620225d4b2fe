import DependentClasses.Term.FreeNames

/-! Terms as source text. A binder that is never mentioned is left out where the language
allows it. -/
namespace DependentClasses

namespace Term

/-- The text, in parentheses where it stands as an operand. -/
def parens (operand : Bool) (s : String) : String := if operand then "(" ++ s ++ ")" else s

def braced (items : List String) : String :=
  match items with
  | [] => "\x7b\x7d"
  | _ => "\x7b " ++ ", ".intercalate items ++ " \x7d"

mutual

/-- The text of a term, as an operand of an arrow, a call or a property access if `operand`
holds. -/
def textAs (operand : Bool) : Term → String
  | .var x => x.text
  | .type => "Type"
  | .pi .explicit x domain codomain =>
    parens operand <|
      if x ∈ codomain.freeNames then
        "(" ++ x.text ++ ": " ++ domain.textAs false ++ ") -> " ++ codomain.textAs false
      else domain.textAs true ++ " -> " ++ codomain.textAs false
  | .pi .implicit x domain codomain =>
    parens operand <| "(implicit " ++ x.text ++ ": " ++ domain.textAs false ++ ") -> " ++
      codomain.textAs false
  | .fn .explicit x domain body =>
    parens operand <| "(" ++ x.text ++ ": " ++ domain.textAs false ++ ") => " ++ body.textAs false
  | .fn .implicit x domain body =>
    parens operand <| "(implicit " ++ x.text ++ ": " ++ domain.textAs false ++ ") => " ++
      body.textAs false
  | .app .explicit target arg => target.textAs true ++ "(" ++ arg.textAs false ++ ")"
  | .app .implicit target arg => target.textAs true ++ "(implicit " ++ arg.textAs false ++ ")"
  | .sigma x carType cdrType =>
    parens operand <|
      (if x ∈ cdrType.freeNames then "exists (" ++ x.text ++ ": " else "exists (")
        ++ carType.textAs false ++ ") " ++ cdrType.textAs false
  | .cons a b => "cons(" ++ a.textAs false ++ ", " ++ b.textAs false ++ ")"
  | .car pair => "car(" ++ pair.textAs false ++ ")"
  | .cdr pair => "cdr(" ++ pair.textAs false ++ ")"
  | .string => "String"
  | .quote s => "\"" ++ s ++ "\""
  | .trivial => "Trivial"
  | .sole => "sole"
  | .equal ty left right =>
    "Equal(" ++ ty.textAs false ++ ", " ++ left.textAs false ++ ", " ++ right.textAs false ++ ")"
  | .same value => "same(" ++ value.textAs false ++ ")"
  | .emptyClass => "class " ++ braced []
  | .declared label _ ty rest =>
    "class " ++ braced ((label.text ++ ": " ++ ty.textAs false) :: memberTexts rest)
  | .fulfilled label _ ty value rest =>
    "class " ++ braced ((label.text ++ ": " ++ ty.textAs false ++ " = " ++ value.textAs false) ::
      memberTexts rest)
  | .object fields => braced (fieldTexts fields)
  | .dot target label => target.textAs true ++ "." ++ label.text
  | .letIn x ty value body =>
    parens operand <|
      "\x7b let " ++ x.text ++ ": " ++ ty.textAs false ++ " = " ++ value.textAs false
        ++ " return " ++ body.textAs false ++ " \x7d"

def memberTexts : Term → List String
  | .declared label _ ty rest => (label.text ++ ": " ++ ty.textAs false) :: memberTexts rest
  | .fulfilled label _ ty value rest =>
    (label.text ++ ": " ++ ty.textAs false ++ " = " ++ value.textAs false) :: memberTexts rest
  | _ => []

def fieldTexts : List (Name × Term) → List String
  | [] => []
  | (label, value) :: fields => (label.text ++ ": " ++ value.textAs false) :: fieldTexts fields

end

def text (t : Term) : String := t.textAs false

end Term

end DependentClasses
