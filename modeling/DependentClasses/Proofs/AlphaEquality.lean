import DependentClasses.Term.Alpha
import Mathlib.Tactic.Common

/-! Equality up to the names of binders, former by former. -/
namespace DependentClasses

namespace Term

section

variable {left right : List Name} {p : Plicity} {x y k : Name} {a a' b b' c c' : Term}

theorem alphaIn_pi :
    alphaIn left right (.pi p x a b) (.pi p y a' b') ↔
      alphaIn left right a a' ∧ alphaIn (x :: left) (y :: right) b b' := by
  change (decide (p = p) && alphaIn left right a a' && alphaIn (x :: left) (y :: right) b b') =
    true ↔ _
  simp

theorem alphaIn_fn :
    alphaIn left right (.fn p x a b) (.fn p y a' b') ↔
      alphaIn left right a a' ∧ alphaIn (x :: left) (y :: right) b b' := by
  change (decide (p = p) && alphaIn left right a a' && alphaIn (x :: left) (y :: right) b b') =
    true ↔ _
  simp

theorem alphaIn_app :
    alphaIn left right (.app p a b) (.app p a' b') ↔ alphaIn left right a a' ∧
      alphaIn left right b b' := by
  change (decide (p = p) && alphaIn left right a a' && alphaIn left right b b') = true ↔ _
  simp

theorem alphaIn_sigma :
    alphaIn left right (.sigma x a b) (.sigma y a' b') ↔
      alphaIn left right a a' ∧ alphaIn (x :: left) (y :: right) b b' := by
  change (alphaIn left right a a' && alphaIn (x :: left) (y :: right) b b') = true ↔ _
  simp

theorem alphaIn_cons :
    alphaIn left right (.cons a b) (.cons a' b') ↔ alphaIn left right a a' ∧
      alphaIn left right b b' := by
  change (alphaIn left right a a' && alphaIn left right b b') = true ↔ _
  simp

theorem alphaIn_equal :
    alphaIn left right (.equal a b c) (.equal a' b' c') ↔
      alphaIn left right a a' ∧ alphaIn left right b b' ∧ alphaIn left right c c' := by
  change (alphaIn left right a a' && alphaIn left right b b' && alphaIn left right c c') = true ↔ _
  simp [and_assoc]

theorem alphaIn_dot : alphaIn left right (.dot a k) (.dot a' k) ↔ alphaIn left right a a' := by
  change (decide (k = k) && alphaIn left right a a') = true ↔ _
  simp

theorem alphaIn_declared :
    alphaIn left right (.declared k x a b) (.declared k y a' b') ↔
      alphaIn left right a a' ∧ alphaIn (x :: left) (y :: right) b b' := by
  change (decide (k = k) && alphaIn left right a a' && alphaIn (x :: left) (y :: right) b b') =
    true ↔ _
  simp

theorem alphaIn_fulfilled :
    alphaIn left right (.fulfilled k x a b c) (.fulfilled k y a' b' c') ↔
      alphaIn left right a a' ∧ alphaIn left right b b' ∧
      alphaIn (x :: left) (y :: right) c c' := by
  change (decide (k = k) && alphaIn left right a a' && alphaIn left right b b' &&
    alphaIn (x :: left) (y :: right) c c') = true ↔ _
  simp [and_assoc]

theorem alphaFieldsIn_cons {fields fields' : List (Name × Term)} :
    alphaFieldsIn left right ((k, a) :: fields) ((k, a') :: fields') ↔
      alphaIn left right a a' ∧ alphaFieldsIn left right fields fields' := by
  change (decide (k = k) && alphaIn left right a a' && alphaFieldsIn left right fields fields') =
    true ↔ _
  simp

end

theorem sameVariable_cons_self (left right : List Name) (x z : Name) :
    sameVariable (x :: left) (z :: right) x z := by
  simp [sameVariable, List.findIdx?_cons]

theorem sameVariable_cons_of_ne (left right : List Name) {x y z w : Name}
    (hy : y ≠ x) (hw : w ≠ z) :
    sameVariable (x :: left) (z :: right) y w = sameVariable left right y w := by
  unfold sameVariable
  rw [List.findIdx?_cons, List.findIdx?_cons]
  have hx : (decide (x = y)) = false := by simpa using Ne.symm hy
  have hz : (decide (z = w)) = false := by simpa using Ne.symm hw
  rw [hx, hz]
  cases left.findIdx? (· = y) <;> cases right.findIdx? (· = w) <;> simp

theorem sameVariable_self (bound : List Name) (x : Name) : sameVariable bound bound x x := by
  unfold sameVariable
  cases bound.findIdx? (· = x) <;> simp

mutual

theorem alphaIn_self (bound : List Name) : (t : Term) → alphaIn bound bound t t
  | .var x => sameVariable_self bound x
  | .type | .string | .trivial | .sole | .emptyClass => rfl
  | .quote s => by simp [alphaIn]
  | .pi _ x a b | .fn _ x a b | .sigma x a b | .declared _ x a b => by
    simp [alphaIn, alphaIn_self bound a, alphaIn_self (x :: bound) b]
  | .app _ a b | .cons a b => by simp [alphaIn, alphaIn_self bound a, alphaIn_self bound b]
  | .car a | .cdr a | .same a | .dot a _ => by simp [alphaIn, alphaIn_self bound a]
  | .equal t a b =>
    by simp [alphaIn, alphaIn_self bound t, alphaIn_self bound a, alphaIn_self bound b]
  | .fulfilled _ x t v r | .letIn x t v r => by
    simp [alphaIn, alphaIn_self bound t, alphaIn_self bound v, alphaIn_self (x :: bound) r]
  | .object fields => alphaFieldsIn_self bound fields

theorem alphaFieldsIn_self (bound : List Name) :
    (fields : List (Name × Term)) → alphaFieldsIn bound bound fields fields
  | [] => rfl
  | (_, a) :: fields =>
    by simp [alphaFieldsIn, alphaIn_self bound a, alphaFieldsIn_self bound fields]

end

/-- A term is equal to itself. -/
@[simp] theorem alphaEquivalent_self (t : Term) : t.alphaEquivalent t := alphaIn_self [] t

end Term

end DependentClasses
