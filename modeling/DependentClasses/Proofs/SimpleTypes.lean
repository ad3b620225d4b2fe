import DependentClasses.Proofs.Fuel
import Mathlib.Order.Filter.AtTopBot.Basic

/-! Simple types: functions, pairs and classes in which nothing depends on a value. Their terms
are closed, so that they have a value in every environment, and reading it back gives the type
again with its binders renamed. All this holds with enough fuel, and how much is enough depends
on the type alone. -/
namespace DependentClasses

open Filter

inductive Literal
  | quote (text : String)
  | sole
  deriving DecidableEq

mutual

inductive Simple
  | type
  | string
  | trivial
  | pi (plicity : Plicity) (x : Name) (domain codomain : Simple)
  | sigma (x : Name) (carType cdrType : Simple)
  | classOf (c : SimpleClass)

inductive SimpleClass
  | nil
  | declared (label x : Name) (type : Simple) (rest : SimpleClass)
  | fulfilled (label x : Name) (literal : Literal) (rest : SimpleClass)

end

namespace Literal

def type : Literal → Simple
  | .quote _ => .string
  | .sole => .trivial

def typeTerm : Literal → Term
  | .quote _ => .string
  | .sole => .trivial

def typeValue : Literal → Value
  | .quote _ => .string
  | .sole => .trivial

def term : Literal → Term
  | .quote text => .quote text
  | .sole => .sole

def value : Literal → Value
  | .quote text => .quote text
  | .sole => .sole

end Literal

inductive SimpleProperty
  | declared (a : Simple)
  | fulfilled (l : Literal)

namespace SimpleProperty

def type : SimpleProperty → Simple
  | .declared a => a
  | .fulfilled l => l.type

def literal : SimpleProperty → Option Literal
  | .declared _ => none
  | .fulfilled l => some l

@[simp] theorem type_declared (a : Simple) : (declared a).type = a := rfl

@[simp] theorem type_fulfilled (l : Literal) : (fulfilled l).type = l.type := rfl

@[simp] theorem literal_declared (a : Simple) : (declared a).literal = none := rfl

@[simp] theorem literal_fulfilled (l : Literal) : (fulfilled l).literal = some l := rfl

end SimpleProperty

namespace SimpleClass

def properties : SimpleClass → List (Name × SimpleProperty)
  | .nil => []
  | .declared label _ a rest => (label, .declared a) :: rest.properties
  | .fulfilled label _ literal rest => (label, .fulfilled literal) :: rest.properties

def labels (c : SimpleClass) : List Name := c.properties.map Prod.fst

@[simp] theorem labels_nil : nil.labels = [] := rfl

@[simp] theorem labels_declared (k x : Name) (A : Simple) (c : SimpleClass) :
    (declared k x A c).labels = k :: c.labels := rfl

@[simp] theorem labels_fulfilled (k x : Name) (l : Literal) (c : SimpleClass) :
    (fulfilled k x l c).labels = k :: c.labels := rfl

end SimpleClass

mutual

def Simple.Distinct : Simple → Prop
  | .pi _ _ a b => a.Distinct ∧ b.Distinct
  | .sigma _ a b => a.Distinct ∧ b.Distinct
  | .classOf c => c.Distinct
  | _ => True

def SimpleClass.Distinct : SimpleClass → Prop
  | .nil => True
  | .declared label _ a rest => label ∉ rest.labels ∧ a.Distinct ∧ rest.Distinct
  | .fulfilled label _ _ rest => label ∉ rest.labels ∧ rest.Distinct

end

mutual

def Simple.term : Simple → Term
  | .type => .type
  | .string => .string
  | .trivial => .trivial
  | .pi p x a b => .pi p x a.term b.term
  | .sigma x a b => .sigma x a.term b.term
  | .classOf c => c.term

def SimpleClass.term : SimpleClass → Term
  | .nil => .emptyClass
  | .declared label x a rest => .declared label x a.term rest.term
  | .fulfilled label x literal rest => .fulfilled label x literal.typeTerm literal.term rest.term

end

mutual

/-- The value of a simple type. The environment is kept, but nothing is looked up in it. -/
def Simple.value (env : Environment) : Simple → Value
  | .type => .type
  | .string => .string
  | .trivial => .trivial
  | .pi p x a b => .pi p (a.value env) ⟨env, x, b.term⟩
  | .sigma x a b => .sigma (a.value env) ⟨env, x, b.term⟩
  | .classOf c => .classOf (c.value env)

def SimpleClass.value (env : Environment) : SimpleClass → Chain
  | .nil => .nil
  | .declared label x a rest => .declared label (a.value env) ⟨env, x, rest.term⟩
  | .fulfilled label x literal rest =>
    .fulfilled label literal.typeValue literal.value (rest.value ((x, literal.value) :: env))

end

mutual

def Simple.renamed (used : List Name) : Simple → Simple
  | .pi p x a b => .pi p (x.fresh used) (a.renamed used) (b.renamed (x.fresh used :: used))
  | .sigma x a b => .sigma (x.fresh used) (a.renamed used) (b.renamed (x.fresh used :: used))
  | .classOf c => .classOf (c.renamed used)
  | a => a

def SimpleClass.renamed (used : List Name) : SimpleClass → SimpleClass
  | .nil => .nil
  | .declared label _ a rest =>
    .declared label (label.fresh used) (a.renamed used) (rest.renamed (label.fresh used :: used))
  | .fulfilled label _ literal rest =>
    .fulfilled label (label.fresh used) literal (rest.renamed (label.fresh used :: used))

end

/-- What holds with one more unit of fuel, for all but finitely many amounts, holds for all but
finitely many. -/
theorem eventually_of_succ {P : Nat → Prop} (h : ∀ᶠ n in atTop, P (n + 1)) :
    ∀ᶠ n in atTop, P n := by
  rw [← map_add_atTop_eq_nat 1]
  exact h

theorem Literal.eval_term (l : Literal) : ∀ᶠ n in atTop, ∀ env, eval n env l.term = .ok l.value :=
  eventually_of_succ (.of_forall fun _ _ => by cases l <;> rfl)

theorem Literal.eval_typeTerm (l : Literal) :
    ∀ᶠ n in atTop, ∀ env, eval n env l.typeTerm = .ok l.typeValue :=
  eventually_of_succ (.of_forall fun _ _ => by cases l <;> rfl)

@[simp] theorem Literal.value_type (l : Literal) (env : Environment) :
    l.type.value env = l.typeValue := by
  cases l <;> rfl

/-- The value of a class is that of its properties. -/
theorem SimpleClass.eval_term_of_evalChain {c : SimpleClass} {n : Nat} {env : Environment}
    (h : evalChain n env c.term = .ok (c.value env)) :
    eval (n + 1) env c.term = .ok (.classOf (c.value env)) := by
  unfold eval
  cases c <;> exact Eval.bind_eq_ok.2 ⟨_, h, rfl⟩

mutual

theorem Simple.eval_term :
    (A : Simple) → ∀ᶠ n in atTop, ∀ env, eval n env A.term = .ok (A.value env)
  | .type => eventually_of_succ (.of_forall fun _ _ => rfl)
  | .string => eventually_of_succ (.of_forall fun _ _ => rfl)
  | .trivial => eventually_of_succ (.of_forall fun _ _ => rfl)
  | .pi p x a b => by
    refine eventually_of_succ ?_
    filter_upwards [a.eval_term] with n ha env
    rw [Simple.term, eval, ha env]
    rfl
  | .sigma x a b => by
    refine eventually_of_succ ?_
    filter_upwards [a.eval_term] with n ha env
    rw [Simple.term, eval, ha env]
    rfl
  | .classOf c => by
    refine eventually_of_succ ?_
    filter_upwards [c.evalChain_term] with n hc env
    exact SimpleClass.eval_term_of_evalChain (hc env)

theorem SimpleClass.evalChain_term :
    (c : SimpleClass) → ∀ᶠ n in atTop, ∀ env, evalChain n env c.term = .ok (c.value env)
  | .nil => eventually_of_succ (.of_forall fun _ _ => rfl)
  | .declared label x A rest => by
    refine eventually_of_succ ?_
    filter_upwards [A.eval_term] with n hA env
    rw [SimpleClass.term, evalChain, hA env]
    rfl
  | .fulfilled label x l rest => by
    refine eventually_of_succ ?_
    filter_upwards [l.eval_term, l.eval_typeTerm, rest.evalChain_term] with n hl ha hrest env
    rw [SimpleClass.term, evalChain]
    exact Eval.bind_eq_ok.2
      ⟨_, hl _, Eval.bind_eq_ok.2 ⟨_, ha _, Eval.bind_eq_ok.2 ⟨_, hrest _, rfl⟩⟩⟩

end

theorem Simple.apply_term (A : Simple) :
    ∀ᶠ n in atTop,
      ∀ env x v, Closure.apply n ⟨env, x, A.term⟩ v = .ok (A.value ((x, v) :: env)) := by
  filter_upwards [A.eval_term] with n hA env x v
  exact hA _

theorem SimpleClass.applyChain_term (c : SimpleClass) :
    ∀ᶠ n in atTop,
      ∀ env x v, Closure.applyChain n ⟨env, x, c.term⟩ v = .ok (c.value ((x, v) :: env)) := by
  filter_upwards [(Simple.classOf c).apply_term] with n hc env x v
  exact Eval.bind_eq_ok.2 ⟨_, hc env x v, rfl⟩

/-- A simple type is stuck on nothing. -/
theorem Simple.force_value (A : Simple) :
    ∀ᶠ n in atTop, ∀ env s, (A.value env).force n s = .ok (A.value env) :=
  eventually_of_succ (.of_forall fun _ _ _ => by cases A <;> rfl)

theorem Simple.isPatternHeaded_value (A : Simple) (env : Environment) (s : Solution) :
    s.isPatternHeaded (A.value env) = false := by
  cases A <;> rfl

theorem Literal.force_value (l : Literal) : ∀ᶠ n in atTop, ∀ s, l.value.force n s = .ok l.value :=
  eventually_of_succ (.of_forall fun _ _ => by cases l <;> rfl)

theorem Literal.reify_value (l : Literal) :
    ∀ᶠ n in atTop, ∀ s used, l.value.reify n s used = .ok l.term :=
  eventually_of_succ (eventually_of_succ (.of_forall fun _ _ _ => by cases l <;> rfl))

theorem Literal.reify_typeValue (l : Literal) :
    ∀ᶠ n in atTop, ∀ s used, l.typeValue.reify n s used = .ok l.typeTerm :=
  eventually_of_succ (eventually_of_succ (.of_forall fun _ _ _ => by cases l <;> rfl))

mutual

theorem Simple.reify_value :
    (A : Simple) → ∀ᶠ n in atTop,
      ∀ env s used, (A.value env).reify n s used = .ok (A.renamed used).term
  | .type => eventually_of_succ (eventually_of_succ (.of_forall fun _ _ _ _ => rfl))
  | .string => eventually_of_succ (eventually_of_succ (.of_forall fun _ _ _ _ => rfl))
  | .trivial => eventually_of_succ (eventually_of_succ (.of_forall fun _ _ _ _ => rfl))
  | .pi p x a b => by
    refine eventually_of_succ ?_
    filter_upwards [Simple.force_value (.pi p x a b), b.apply_term, b.reify_value, a.reify_value]
      with n hforce happly hb ha env s used
    unfold Value.reify
    refine Eval.bind_eq_ok.2 ⟨_, hforce _ _, ?_⟩
    exact Eval.bind_eq_ok.2
      ⟨_, happly _ _ _, Eval.bind_eq_ok.2 ⟨_, hb _ _ _, Eval.bind_eq_ok.2 ⟨_, ha _ _ _, rfl⟩⟩⟩
  | .sigma x a b => by
    refine eventually_of_succ ?_
    filter_upwards [Simple.force_value (.sigma x a b), b.apply_term, b.reify_value, a.reify_value]
      with n hforce happly hb ha env s used
    unfold Value.reify
    refine Eval.bind_eq_ok.2 ⟨_, hforce _ _, ?_⟩
    exact Eval.bind_eq_ok.2
      ⟨_, happly _ _ _, Eval.bind_eq_ok.2 ⟨_, hb _ _ _, Eval.bind_eq_ok.2 ⟨_, ha _ _ _, rfl⟩⟩⟩
  | .classOf c => by
    refine eventually_of_succ ?_
    filter_upwards [Simple.force_value (.classOf c), c.reify_value] with n hforce hc env s used
    unfold Value.reify
    refine Eval.bind_eq_ok.2 ⟨_, hforce _ _, ?_⟩
    exact hc _ _ _

theorem SimpleClass.reify_value :
    (c : SimpleClass) → ∀ᶠ n in atTop,
      ∀ env s used, (c.value env).reify n s used = .ok (c.renamed used).term
  | .nil => eventually_of_succ (.of_forall fun _ _ _ _ => rfl)
  | .declared label x A rest => by
    refine eventually_of_succ ?_
    filter_upwards [A.reify_value, rest.applyChain_term, rest.reify_value] with n hA happly
      hrest env s used
    unfold Chain.reify
    exact Eval.bind_eq_ok.2
      ⟨_, hA _ _ _, Eval.bind_eq_ok.2 ⟨_, happly _ _ _, Eval.bind_eq_ok.2 ⟨_, hrest _ _ _, rfl⟩⟩⟩
  | .fulfilled label x l rest => by
    refine eventually_of_succ ?_
    filter_upwards [l.reify_typeValue, l.reify_value, rest.reify_value] with n ha hl
      hrest env s used
    unfold Chain.reify
    exact Eval.bind_eq_ok.2
      ⟨_, ha _ _, Eval.bind_eq_ok.2 ⟨_, hl _ _, Eval.bind_eq_ok.2 ⟨_, hrest _ _ _, rfl⟩⟩⟩

end

mutual

/-- A simple type mentions nothing. -/
theorem Simple.freeIn_term (bound : List Name) : (A : Simple) → A.term.freeIn bound = []
  | .type => rfl
  | .string => rfl
  | .trivial => rfl
  | .pi p x a b => by simp [Simple.term, Term.freeIn, a.freeIn_term, b.freeIn_term]
  | .sigma x a b => by simp [Simple.term, Term.freeIn, a.freeIn_term, b.freeIn_term]
  | .classOf c => c.freeIn_term bound

theorem SimpleClass.freeIn_term (bound : List Name) : (c : SimpleClass) → c.term.freeIn bound = []
  | .nil => rfl
  | .declared label x A rest =>
    by simp [SimpleClass.term, Term.freeIn, A.freeIn_term, rest.freeIn_term]
  | .fulfilled label x l rest => by
    cases l <;> simp [SimpleClass.term, Literal.term, Literal.typeTerm, Term.freeIn,
      rest.freeIn_term]

end

theorem Simple.unsolvedIn_term (A : Simple) (s : Solution) : s.unsolvedIn A.term = [] := by
  simp [Solution.unsolvedIn, Term.freeNames, A.freeIn_term]

end DependentClasses
