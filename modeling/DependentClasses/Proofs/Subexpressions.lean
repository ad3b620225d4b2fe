import DependentClasses.Surface.Expr
import Mathlib.Logic.Relation

/-! The expressions inside an expression: those that it is directly made of, and those inside of
these. -/
namespace DependentClasses

open Relation (ReflTransGen)

def Member.parts : Member → List Expr
  | .declared _ type => [type]
  | .fulfilled _ type value => type.toList ++ [value]

/-- The expression of a form that stands in no source text. -/
def Form.bare (form : Form) : Expr := ⟨⟨0, 0⟩, form⟩

def Form.parts : Form → List Expr
  | .var _ | .type | .string | .quote _ | .trivial | .sole => []
  | .pi _ _ a b | .sigma _ a b | .app _ a b | .cons a b | .the a b => [a, b]
  | .fn _ _ domain body => domain.toList ++ [body]
  | .car a | .cdr a | .same a | .dot a _ => [a]
  | .equal a l r => [a, l, r]
  | .classOf members => members.flatMap Member.parts
  | .object fields => fields.map Prod.snd
  | .new target fields => target :: fields.map Prod.snd
  | .newWith target args => target :: args
  | .letIn _ a value body => a.toList ++ [value, body]

def Equation.parts (e : Equation) : List Expr := e.type.toList ++ [e.left, e.right]

def Statement.parts : Statement → List Expr
  | .define _ type value => type.toList ++ [value]
  | .check value type => [value, type]
  | .compute value => [value]
  | .solve unknowns equations => unknowns.map Prod.snd ++ equations.flatMap Equation.parts

namespace Expr

def parts (e : Expr) : List Expr := e.form.parts

/-- `sub` is `e`, or a part of it, or a part of a part, and so on. -/
def Within (sub e : Expr) : Prop := ReflTransGen (fun part whole : Expr => part ∈ whole.parts) sub e

namespace Within

variable {sub e : Expr}

theorem refl (e : Expr) : e.Within e := ReflTransGen.refl

/-- The parts of an expression inside another one are inside it, too. -/
theorem part (h : sub.Within e) {part : Expr} (hpart : part ∈ sub.parts) : part.Within e :=
  ReflTransGen.head hpart h

theorem eq_or_part (h : sub.Within e) : sub = e ∨ ∃ part ∈ e.parts, sub.Within part := by
  rcases ReflTransGen.cases_tail h with rfl | ⟨part, hsub, hpart⟩
  · exact .inl rfl
  · exact .inr ⟨part, hpart, hsub⟩

end Within

end Expr

end DependentClasses
