/-! Lines of a text, and places in it that are counted in bytes. -/
namespace DependentClasses

namespace Text

def byteLength : List Char → Nat
  | [] => 0
  | c :: rest => c.utf8Size + byteLength rest

/-- The first `count` bytes of a text, if no character lies across their end. -/
def takeBytes : Nat → List Char → Option (List Char)
  | 0, _ => some []
  | _ + 1, [] => none
  | n + 1, c :: rest =>
    if c.utf8Size ≤ n + 1 then (takeBytes (n + 1 - c.utf8Size) rest).map (c :: ·) else none

/-- The lines of a text, each with the line feed at its end. -/
def lines : List Char → List (List Char)
  | [] => []
  | c :: rest =>
    if c = '\n' then [c] :: lines rest
    else
      match lines rest with
      | [] => [[c]]
      | l :: ls => (c :: l) :: ls

def lastLine (s : List Char) : List Char := (s.reverse.takeWhile (· ≠ '\n')).reverse

end Text

end DependentClasses
