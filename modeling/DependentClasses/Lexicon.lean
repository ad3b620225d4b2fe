import DependentClasses.Name

/-! The symbols met so far, in the order in which they were first read. Names are
listed in this order, and by subscript under one symbol. -/
namespace DependentClasses

abbrev Lexicon := List String

namespace Lexicon

def note (lexicon : Lexicon) (symbol : String) : Lexicon :=
  if symbol ∈ lexicon then lexicon else lexicon ++ [symbol]

def noteAll (lexicon : Lexicon) (symbols : List String) : Lexicon := symbols.foldl note lexicon

def le (lexicon : Lexicon) (x y : Name) : Bool :=
  let i := lexicon.idxOf x.symbol
  let j := lexicon.idxOf y.symbol
  i < j || (i == j && x.subscript ≤ y.subscript)

def place (lexicon : Lexicon) (x : Name) : List Name → List Name
  | [] => [x]
  | y :: ys => if lexicon.le x y then x :: y :: ys else y :: place lexicon x ys

def sort (lexicon : Lexicon) (xs : List Name) : List Name := xs.foldr lexicon.place []

end Lexicon

end DependentClasses
