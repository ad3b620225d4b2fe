import DependentClasses.Term.Alpha
import Mathlib.Tactic.Common

/-! Terms in which binders have no names. A bound occurrence tells which of the binders around it it
belongs to, counted from the inside, and free names and labels stay as they are. Two terms are equal
up to the names of their binders exactly if they are the same without these names. -/
namespace DependentClasses

inductive Occurrence
  /-- A binder, with `depth` others between it and the occurrence. -/
  | bound (depth : Nat)
  | free (x : Name)

namespace Occurrence

def lift : Occurrence → Occurrence
  | .bound depth => .bound (depth + 1)
  | .free x => .free x

/-- What `x` refers to below binders with the given names, the innermost of which stands first. -/
def of : List Name → Name → Occurrence
  | [], x => .free x
  | y :: binders, x => if x = y then .bound 0 else (of binders x).lift

end Occurrence

inductive NamelessTerm
  | var (occurrence : Occurrence)
  | type
  | pi (plicity : Plicity) (domain codomain : NamelessTerm)
  | fn (plicity : Plicity) (domain body : NamelessTerm)
  | app (plicity : Plicity) (target arg : NamelessTerm)
  | sigma (carType cdrType : NamelessTerm)
  | cons (car cdr : NamelessTerm)
  | car (pair : NamelessTerm)
  | cdr (pair : NamelessTerm)
  | string
  | quote (text : String)
  | trivial
  | sole
  | equal (type left right : NamelessTerm)
  | same (value : NamelessTerm)
  | emptyClass
  | declared (label : Name) (type rest : NamelessTerm)
  | fulfilled (label : Name) (type value rest : NamelessTerm)
  | object (fields : List (Name × NamelessTerm))
  | dot (target : NamelessTerm) (label : Name)
  | letIn (type value body : NamelessTerm)

namespace Term

mutual

/-- The term without the names of its binders, below binders with the given names. -/
def nameless (binders : List Name) : Term → NamelessTerm
  | .var x => .var (.of binders x)
  | .type => .type
  | .pi p x a b => .pi p (a.nameless binders) (b.nameless (x :: binders))
  | .fn p x a b => .fn p (a.nameless binders) (b.nameless (x :: binders))
  | .app p a b => .app p (a.nameless binders) (b.nameless binders)
  | .sigma x a b => .sigma (a.nameless binders) (b.nameless (x :: binders))
  | .cons a b => .cons (a.nameless binders) (b.nameless binders)
  | .car a => .car (a.nameless binders)
  | .cdr a => .cdr (a.nameless binders)
  | .string => .string
  | .quote text => .quote text
  | .trivial => .trivial
  | .sole => .sole
  | .equal a l r => .equal (a.nameless binders) (l.nameless binders) (r.nameless binders)
  | .same a => .same (a.nameless binders)
  | .emptyClass => .emptyClass
  | .declared k x a b => .declared k (a.nameless binders) (b.nameless (x :: binders))
  | .fulfilled k x a v b =>
    .fulfilled k (a.nameless binders) (v.nameless binders) (b.nameless (x :: binders))
  | .object fields => .object (namelessFields binders fields)
  | .dot a k => .dot (a.nameless binders) k
  | .letIn x a v b => .letIn (a.nameless binders) (v.nameless binders) (b.nameless (x :: binders))

def namelessFields (binders : List Name) : List (Name × Term) → List (Name × NamelessTerm)
  | [] => []
  | (k, a) :: fields => (k, a.nameless binders) :: namelessFields binders fields

end

end Term

theorem Occurrence.of_eq (binders : List Name) (x : Name) :
    of binders x = match binders.findIdx? (· = x) with
      | some depth => .bound depth
      | none => .free x := by
  induction binders with
  | nil => rfl
  | cons y binders ih =>
    rw [of, List.findIdx?_cons, ih]
    by_cases h : x = y
    · simp [h]
    · have hne : decide (y = x) = false := by simpa using Ne.symm h
      rw [if_neg h, hne]
      cases binders.findIdx? (· = x) <;> rfl

namespace Term

/-- Variables are the same exactly if they refer to the same. -/
theorem sameVariable_iff {left right : List Name} {x y : Name} :
    sameVariable left right x y ↔ Occurrence.of left x = .of right y := by
  rw [Occurrence.of_eq, Occurrence.of_eq, sameVariable]
  cases left.findIdx? (· = x) <;> cases right.findIdx? (· = y) <;> simp

mutual

/-- Terms that are compared below binders, which may differ in number, are equal exactly if they are
the same without names. -/
theorem alphaIn_iff (left right : List Name) :
    (t u : Term) → (alphaIn left right t u ↔ t.nameless left = u.nameless right)
  | .var x, u => by
    cases u with
    | var y => simp [alphaIn, nameless, sameVariable_iff]
    | _ => exact iff_of_false nofun nofun
  | .type, u | .string, u | .trivial, u | .sole, u | .emptyClass, u => by
    cases u with
    | type | string | trivial | sole | emptyClass => simp [alphaIn, nameless]
    | _ => exact iff_of_false nofun nofun
  | .quote text, u => by
    cases u with
    | quote text' => simp [alphaIn, nameless]
    | _ => exact iff_of_false nofun nofun
  | .pi p x a b, u => by
    cases u with
    | pi q y a' b' =>
      simp [alphaIn, nameless, alphaIn_iff left right a,
        alphaIn_iff (x :: left) (y :: right) b, and_assoc]
    | _ => exact iff_of_false nofun nofun
  | .fn p x a b, u => by
    cases u with
    | fn q y a' b' =>
      simp [alphaIn, nameless, alphaIn_iff left right a,
        alphaIn_iff (x :: left) (y :: right) b, and_assoc]
    | _ => exact iff_of_false nofun nofun
  | .app p a b, u => by
    cases u with
    | app q a' b' =>
      simp [alphaIn, nameless, alphaIn_iff left right a, alphaIn_iff left right b, and_assoc]
    | _ => exact iff_of_false nofun nofun
  | .sigma x a b, u => by
    cases u with
    | sigma y a' b' =>
      simp [alphaIn, nameless, alphaIn_iff left right a, alphaIn_iff (x :: left) (y :: right) b]
    | _ => exact iff_of_false nofun nofun
  | .cons a b, u => by
    cases u with
    | cons a' b' => simp [alphaIn, nameless, alphaIn_iff left right a, alphaIn_iff left right b]
    | _ => exact iff_of_false nofun nofun
  | .car a, u => by
    cases u with
    | car a' => simp [alphaIn, nameless, alphaIn_iff left right a]
    | _ => exact iff_of_false nofun nofun
  | .cdr a, u => by
    cases u with
    | cdr a' => simp [alphaIn, nameless, alphaIn_iff left right a]
    | _ => exact iff_of_false nofun nofun
  | .equal a l r, u => by
    cases u with
    | equal a' l' r' =>
      simp [alphaIn, nameless, alphaIn_iff left right a, alphaIn_iff left right l,
        alphaIn_iff left right r, and_assoc]
    | _ => exact iff_of_false nofun nofun
  | .same a, u => by
    cases u with
    | same a' => simp [alphaIn, nameless, alphaIn_iff left right a]
    | _ => exact iff_of_false nofun nofun
  | .declared k x a b, u => by
    cases u with
    | declared j y a' b' =>
      simp [alphaIn, nameless, alphaIn_iff left right a,
        alphaIn_iff (x :: left) (y :: right) b, and_assoc]
    | _ => exact iff_of_false nofun nofun
  | .fulfilled k x a v b, u => by
    cases u with
    | fulfilled j y a' v' b' =>
      simp [alphaIn, nameless, alphaIn_iff left right a, alphaIn_iff left right v,
        alphaIn_iff (x :: left) (y :: right) b, and_assoc]
    | _ => exact iff_of_false nofun nofun
  | .object fields, u => by
    cases u with
    | object fields' => simp [alphaIn, nameless, alphaFieldsIn_iff left right fields]
    | _ => exact iff_of_false nofun nofun
  | .dot a k, u => by
    cases u with
    | dot a' j => simp [alphaIn, nameless, alphaIn_iff left right a, and_comm]
    | _ => exact iff_of_false nofun nofun
  | .letIn x a v b, u => by
    cases u with
    | letIn y a' v' b' =>
      simp [alphaIn, nameless, alphaIn_iff left right a, alphaIn_iff left right v,
        alphaIn_iff (x :: left) (y :: right) b, and_assoc]
    | _ => exact iff_of_false nofun nofun

theorem alphaFieldsIn_iff (left right : List Name) : (fs gs : List (Name × Term)) →
    (alphaFieldsIn left right fs gs ↔ namelessFields left fs = namelessFields right gs)
  | [], gs => by
    cases gs with
    | nil => simp [alphaFieldsIn, namelessFields]
    | cons g gs => exact iff_of_false nofun nofun
  | (k, a) :: fs, gs => by
    cases gs with
    | nil => exact iff_of_false nofun nofun
    | cons g gs =>
      obtain ⟨j, b⟩ := g
      simp [alphaFieldsIn, namelessFields, alphaIn_iff left right a,
        alphaFieldsIn_iff left right fs, and_assoc]

end

end Term

/-- Equality up to the names of binders is decided: it holds exactly if the terms are the same
without these names. So it is an equivalence. -/
theorem alpha_equality_decided :
    (∀ t u : Term, t.alphaEquivalent u ↔ t.nameless [] = u.nameless []) ∧
      Equivalence fun t u : Term => (t.alphaEquivalent u : Prop) := by
  have hiff (t u : Term) : t.alphaEquivalent u ↔ t.nameless [] = u.nameless [] :=
    Term.alphaIn_iff [] [] t u
  refine ⟨hiff, fun t => (hiff t t).2 rfl, fun {t u} h => ?_, fun {t u v} h h' => ?_⟩
  · exact (hiff u t).2 ((hiff t u).1 h).symm
  · exact (hiff t v).2 (((hiff t u).1 h).trans ((hiff u v).1 h'))

end DependentClasses
