import DependentClasses.Term.Basic

/-! Equality of terms up to the names of their binders. -/
namespace DependentClasses

namespace Term

/-- Both names are bound by binders of the same depth, or both are free and equal.
The innermost binder stands first in each list. -/
def sameVariable (left right : List Name) (x y : Name) : Bool :=
  match left.findIdx? (· = x), right.findIdx? (· = y) with
  | some i, some j => i == j
  | none, none => x = y
  | _, _ => false

mutual

/-- Equality up to renaming, below binders paired by their depth. -/
def alphaIn (left right : List Name) : Term → Term → Bool
  | .var x, .var y => sameVariable left right x y
  | .type, .type => true
  | .pi p x a b, .pi q y a' b' =>
    p = q && alphaIn left right a a' && alphaIn (x :: left) (y :: right) b b'
  | .fn p x a b, .fn q y a' b' =>
    p = q && alphaIn left right a a' && alphaIn (x :: left) (y :: right) b b'
  | .app p f a, .app q f' a' => p = q && alphaIn left right f f' && alphaIn left right a a'
  | .sigma x a b, .sigma y a' b' => alphaIn left right a a' && alphaIn (x :: left) (y :: right) b b'
  | .cons a b, .cons a' b' => alphaIn left right a a' && alphaIn left right b b'
  | .car a, .car a' => alphaIn left right a a'
  | .cdr a, .cdr a' => alphaIn left right a a'
  | .string, .string => true
  | .quote s, .quote s' => s = s'
  | .trivial, .trivial => true
  | .sole, .sole => true
  | .equal t a b, .equal t' a' b' =>
    alphaIn left right t t' && alphaIn left right a a' && alphaIn left right b b'
  | .same a, .same a' => alphaIn left right a a'
  | .emptyClass, .emptyClass => true
  | .declared k x t r, .declared k' y t' r' =>
    k = k' && alphaIn left right t t' && alphaIn (x :: left) (y :: right) r r'
  | .fulfilled k x t v r, .fulfilled k' y t' v' r' =>
    k = k' && alphaIn left right t t' && alphaIn left right v v' && alphaIn (x :: left)
      (y :: right) r r'
  | .object fs, .object fs' => alphaFieldsIn left right fs fs'
  | .dot a k, .dot a' k' => k = k' && alphaIn left right a a'
  | .letIn x t v b, .letIn y t' v' b' =>
    alphaIn left right t t' && alphaIn left right v v' && alphaIn (x :: left) (y :: right) b b'
  | _, _ => false

def alphaFieldsIn (left right : List Name) : List (Name × Term) → List (Name × Term) → Bool
  | [], [] => true
  | (k, a) :: fs, (k', a') :: fs' =>
    k = k' && alphaIn left right a a' && alphaFieldsIn left right fs fs'
  | _, _ => false

end

def alphaEquivalent (t u : Term) : Bool := alphaIn [] [] t u

end Term

end DependentClasses
