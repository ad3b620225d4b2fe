/-! Names of variables and properties: a symbol with a subscript. A name that is
already taken is made fresh by a change of its subscript alone. -/
namespace DependentClasses

structure Name where
  symbol : String
  subscript : Nat := 0
  deriving DecidableEq

namespace Name

/-- The binder of a function or pair type whose bound value is never mentioned. -/
def anonymous : Name := ⟨"_", 0⟩

def lowered (digit : Char) : Char := Char.ofNat ('₀'.toNat + (digit.toNat - '0'.toNat))

/-- The symbol, followed by the subscript unless that is zero. -/
def text (x : Name) : String :=
  if x.subscript = 0 then x.symbol
  else x.symbol ++ String.ofList ((Nat.toDigits 10 x.subscript).map lowered)

def texts (xs : List Name) : String := ", ".intercalate (xs.map text)

/-- `x` itself when it is unused, and otherwise its symbol with the least unused positive subscript.
One of the first `used.length + 1` subscripts is unused. -/
def fresh (used : List Name) (x : Name) : Name :=
  if x ∈ used then
    match (List.range (used.length + 1)).find? fun k => ⟨x.symbol, k + 1⟩ ∉ used with
    | some k => ⟨x.symbol, k + 1⟩
    | none => x
  else x

theorem fresh_of_not_mem {used : List Name} {x : Name} (h : x ∉ used) : fresh used x = x := by
  simp [fresh, h]

theorem fresh_symbol (used : List Name) (x : Name) : (fresh used x).symbol = x.symbol := by
  unfold fresh; split
  · split <;> rfl
  · rfl

/-- Gives `x` an image that avoids `used` and the images given before; a name with an image keeps
it. -/
def extendImages (used : List Name) (images : List (Name × Name)) (x : Name) : List (Name × Name) :=
  match images.lookup x with
  | some _ => images
  | none => images ++ [(x, fresh (images.map Prod.snd ++ used) x)]

/-- Fresh images for all of `xs` at once, one for each distinct name, in the order of first
occurrence. -/
def freshImages (used xs : List Name) : List (Name × Name) := xs.foldl (extendImages used) []

end Name

end DependentClasses
