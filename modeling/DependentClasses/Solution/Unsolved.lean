import DependentClasses.Lexicon
import DependentClasses.Solution.Basic
import DependentClasses.Term.FreeNames

/-! The pattern variables that are left open in a term. -/
namespace DependentClasses

namespace Solution

/-- The unsolved pattern variables of a term, in the order of their occurrence. -/
def unsolvedIn (s : Solution) (t : Term) : List Name := t.freeNames.filter s.isUnsolved

/-- The unsolved pattern variables of a term, in the order of a lexicon. -/
def unsolvedNames (s : Solution) (lexicon : Lexicon) (t : Term) : List Name :=
  lexicon.sort (s.unsolvedIn t)

end Solution

end DependentClasses
