import DependentClasses.Proofs.Elaboration
import DependentClasses.Proofs.RelistedElaboration
import DependentClasses.Proofs.WrittenClasses

/-! Objects made by position and by name. Arguments go to the unfulfilled properties of a class in
order; so they may as well be given under the labels of these properties. -/
namespace DependentClasses

section

variable {n : Nat} {ctx : Context} {c : Chain} {fields : List (Name × Expr)} {args : List Expr}

end

namespace GivenInOrder

def A : Name := ⟨"A", 0⟩
def x : Name := ⟨"x", 0⟩
def y : Name := ⟨"y", 0⟩

def target : Chain :=
  .declared A .type
    ⟨[], A, .fulfilled y y .string (.quote "z") (.declared x x (.var A) .emptyClass)⟩

def type : Expr := ⟨⟨0, 6⟩, .string⟩

def text : Expr := ⟨⟨8, 11⟩, .quote "b"⟩

end GivenInOrder

namespace TwoStrays

def T : Name := ⟨"T", 0⟩
def Q : Name := ⟨"Q", 0⟩
def p : Name := ⟨"p", 0⟩
def q : Name := ⟨"q", 0⟩

/-- `T` has to be found; there are `Q: Type -> Type` and `q: Q(T)`. -/
def scope : Context :=
  let family : Value := .pi .explicit .type ⟨[], Name.anonymous, .type⟩
  [⟨q, q, .neutral .type (.app .explicit (.var Q) .type (.variable .type T)), none⟩,
    ⟨Q, Q, family, none⟩, ⟨T, T, .type, none⟩]

def start : Solution := Solution.create {} T .type []

def given : Expr := ⟨⟨0, 1⟩, .var q⟩

def told (x : Solver Term) (s : Solution) : Option Cause :=
  match x.run.run s with
  | .ok (.error f, _) => some f.cause
  | _ => none

end TwoStrays

end DependentClasses
