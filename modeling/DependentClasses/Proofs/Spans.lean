import DependentClasses.Surface.Grammar

/-! What is read from a source, moved to other places of it. Only the spans change; with all places
made one, what is left is what is written. -/
namespace DependentClasses

class Movable (α : Type) where
  moved : (Nat → Nat) → α → α
  moved_id (a : α) : moved id a = a

export Movable (moved moved_id)

instance : Movable Nat := ⟨fun f n => f n, fun _ => rfl⟩
instance : Movable Unit := ⟨fun _ a => a, fun _ => rfl⟩
instance : Movable String := ⟨fun _ a => a, fun _ => rfl⟩
instance : Movable Name := ⟨fun _ a => a, fun _ => rfl⟩
instance : Movable Plicity := ⟨fun _ a => a, fun _ => rfl⟩
instance : Movable Span := ⟨fun f s => ⟨f s.start, f s.stop⟩, fun _ => rfl⟩

section
variable {α β : Type} [Movable α] [Movable β]

theorem moved_id_eq : moved id = (id : α → α) := funext moved_id

instance : Movable (Option α) :=
  ⟨fun f => Option.map (moved f), fun a => by rw [moved_id_eq, Option.map_id]; rfl⟩
instance : Movable (List α) :=
  ⟨fun f => List.map (moved f), fun a => by rw [moved_id_eq, List.map_id]⟩
instance : Movable (α × β) :=
  ⟨fun f => Prod.map (moved f) (moved f), fun a => by rw [moved_id_eq, moved_id_eq]; rfl⟩

variable (f : Nat → Nat)

@[simp] theorem moved_none : moved f (none : Option α) = none := rfl
@[simp] theorem moved_some (a : α) : moved f (some a) = some (moved f a) := rfl
@[simp] theorem moved_nil : moved f ([] : List α) = [] := rfl
@[simp] theorem moved_cons (a : α) (as : List α) :
    moved f (a :: as) = moved f a :: moved f as := rfl
@[simp] theorem moved_pair (a : α) (b : β) : moved f (a, b) = (moved f a, moved f b) := rfl
@[simp] theorem moved_name (x : Name) : moved f x = x := rfl
@[simp] theorem moved_plicity (p : Plicity) : moved f p = p := rfl
@[simp] theorem moved_string (s : String) : moved f s = s := rfl

end

mutual

protected def Expr.moved (f : Nat → Nat) : Expr → Expr
  | ⟨span, form⟩ => ⟨moved f span, form.moved f⟩

protected def Form.moved (f : Nat → Nat) : Form → Form
  | .var x => .var x
  | .type => .type
  | .pi p x domain codomain => .pi p x (domain.moved f) (codomain.moved f)
  | .fn p x domain body => .fn p x (optionMoved f domain) (body.moved f)
  | .app p target arg => .app p (target.moved f) (arg.moved f)
  | .sigma x carType cdrType => .sigma x (carType.moved f) (cdrType.moved f)
  | .cons car cdr => .cons (car.moved f) (cdr.moved f)
  | .car pair => .car (pair.moved f)
  | .cdr pair => .cdr (pair.moved f)
  | .string => .string
  | .quote text => .quote text
  | .trivial => .trivial
  | .sole => .sole
  | .equal type left right => .equal (type.moved f) (left.moved f) (right.moved f)
  | .same value => .same (value.moved f)
  | .classOf members => .classOf (membersMoved f members)
  | .object fields => .object (fieldsMoved f fields)
  | .dot target label => .dot (target.moved f) label
  | .new target fields => .new (target.moved f) (fieldsMoved f fields)
  | .newWith target args => .newWith (target.moved f) (argsMoved f args)
  | .the type value => .the (type.moved f) (value.moved f)
  | .letIn x type value body => .letIn x (optionMoved f type) (value.moved f) (body.moved f)

protected def Member.moved (f : Nat → Nat) : Member → Member
  | .declared label type => .declared label (type.moved f)
  | .fulfilled label type value => .fulfilled label (optionMoved f type) (value.moved f)

def optionMoved (f : Nat → Nat) : Option Expr → Option Expr
  | none => none
  | some e => some (e.moved f)

def membersMoved (f : Nat → Nat) : List Member → List Member
  | [] => []
  | m :: ms => m.moved f :: membersMoved f ms

def fieldsMoved (f : Nat → Nat) : List (Name × Expr) → List (Name × Expr)
  | [] => []
  | (label, e) :: fields => (label, e.moved f) :: fieldsMoved f fields

def argsMoved (f : Nat → Nat) : List Expr → List Expr
  | [] => []
  | e :: es => e.moved f :: argsMoved f es

end

mutual

theorem Expr.moved_id : ∀ e : Expr, e.moved id = e
  | ⟨_, form⟩ => by rw [Expr.moved, form.moved_id]; rfl

theorem Form.moved_id : ∀ form : Form, form.moved id = form
  | .var _ | .type | .string | .quote _ | .trivial | .sole => by simp only [Form.moved]
  | .pi _ _ a b | .sigma _ a b | .cons a b | .app _ a b | .the a b => by
    rw [Form.moved, a.moved_id, b.moved_id]
  | .car a | .cdr a | .same a | .dot a _ => by rw [Form.moved, a.moved_id]
  | .equal a b c => by rw [Form.moved, a.moved_id, b.moved_id, c.moved_id]
  | .fn _ _ a b => by rw [Form.moved, optionMoved_id a, b.moved_id]
  | .letIn _ a b c => by rw [Form.moved, optionMoved_id a, b.moved_id, c.moved_id]
  | .classOf ms => by rw [Form.moved, membersMoved_id ms]
  | .object fs => by rw [Form.moved, fieldsMoved_id fs]
  | .new a fs => by rw [Form.moved, a.moved_id, fieldsMoved_id fs]
  | .newWith a es => by rw [Form.moved, a.moved_id, argsMoved_id es]

theorem Member.moved_id : ∀ m : Member, m.moved id = m
  | .declared _ a => by rw [Member.moved, a.moved_id]
  | .fulfilled _ a b => by rw [Member.moved, optionMoved_id a, b.moved_id]

theorem optionMoved_id : ∀ e : Option Expr, optionMoved id e = e
  | none => rfl
  | some e => by rw [optionMoved, e.moved_id]

theorem membersMoved_id : ∀ ms : List Member, membersMoved id ms = ms
  | [] => rfl
  | m :: ms => by rw [membersMoved, m.moved_id, membersMoved_id ms]

theorem fieldsMoved_id : ∀ fs : List (Name × Expr), fieldsMoved id fs = fs
  | [] => rfl
  | (_, e) :: fs => by rw [fieldsMoved, e.moved_id, fieldsMoved_id fs]

theorem argsMoved_id : ∀ es : List Expr, argsMoved id es = es
  | [] => rfl
  | e :: es => by rw [argsMoved, e.moved_id, argsMoved_id es]

end

instance : Movable Expr := ⟨Expr.moved, Expr.moved_id⟩
instance : Movable Form := ⟨Form.moved, Form.moved_id⟩
instance : Movable Member := ⟨Member.moved, Member.moved_id⟩

instance : Movable Equation where
  moved f e := ⟨moved f e.type, moved f e.left, moved f e.right⟩
  moved_id e := by simp only [moved_id]

instance : Movable Statement where
  moved f
    | .define x type value => .define x (moved f type) (moved f value)
    | .check value type => .check (moved f value) (moved f type)
    | .compute value => .compute (moved f value)
    | .solve unknowns equations => .solve (moved f unknowns) (moved f equations)
  moved_id s := by cases s <;> simp only [moved_id]

section
variable (f : Nat → Nat)

theorem optionMoved_eq (e : Option Expr) : optionMoved f e = moved f e := by
  cases e <;> rfl

theorem membersMoved_eq (ms : List Member) : membersMoved f ms = moved f ms := by
  induction ms with
  | nil => rfl
  | cons m ms ih => exact congrArg _ ih

theorem fieldsMoved_eq (fields : List (Name × Expr)) : fieldsMoved f fields = moved f fields := by
  induction fields with
  | nil => rfl
  | cons p fields ih => exact congrArg _ ih

theorem argsMoved_eq (es : List Expr) : argsMoved f es = moved f es := by
  induction es with
  | nil => rfl
  | cons e es ih => exact congrArg _ ih

@[simp] theorem moved_expr (span : Span) (form : Form) :
    moved f (⟨span, form⟩ : Expr) = ⟨moved f span, moved f form⟩ := rfl

@[simp] theorem moved_span (start stop : Nat) :
    moved f (⟨start, stop⟩ : Span) = ⟨f start, f stop⟩ := rfl

theorem moved_fn (p : Plicity) (x : Name) (domain : Option Expr) (body : Expr) :
    moved f (Form.fn p x domain body) = .fn p x (moved f domain) (moved f body) :=
  congrArg (Form.fn p x · (moved f body)) (optionMoved_eq f domain)

theorem moved_letIn (x : Name) (type : Option Expr) (value body : Expr) :
    moved f (Form.letIn x type value body) = .letIn x (moved f type) (moved f value)
      (moved f body) :=
  congrArg (Form.letIn x · (moved f value) (moved f body)) (optionMoved_eq f type)

theorem moved_classOf (members : List Member) :
    moved f (Form.classOf members) = .classOf (moved f members) :=
  congrArg Form.classOf (membersMoved_eq f members)

theorem moved_object (fields : List (Name × Expr)) :
    moved f (Form.object fields) = .object (moved f fields) :=
  congrArg Form.object (fieldsMoved_eq f fields)

theorem moved_new (target : Expr) (fields : List (Name × Expr)) :
    moved f (Form.new target fields) = .new (moved f target) (moved f fields) :=
  congrArg (Form.new (moved f target)) (fieldsMoved_eq f fields)

theorem moved_newWith (target : Expr) (args : List Expr) :
    moved f (Form.newWith target args) = .newWith (moved f target) (moved f args) :=
  congrArg (Form.newWith (moved f target)) (argsMoved_eq f args)

theorem moved_fulfilled (label : Name) (type : Option Expr) (value : Expr) :
    moved f (Member.fulfilled label type value) = .fulfilled label (moved f type) (moved f value) :=
  congrArg (Member.fulfilled label · (moved f value)) (optionMoved_eq f type)

theorem label_moved (m : Member) : (moved f m).label = m.label := by cases m <;> rfl

theorem distinct_moved_iff (ms : List Member) :
    Member.Distinct (moved f ms) ↔ Member.Distinct ms := by
  have h : (moved f ms).map Member.label = ms.map Member.label := by
    simp only [moved, List.map_map]
    exact List.map_congr_left fun m _ => label_moved f m
  rw [Member.Distinct, Member.Distinct, h]

theorem moved_pis (span : Span) (binders : List (Plicity × Name × Expr)) (codomain : Expr) :
    moved f (Expr.pis span binders codomain) = .pis (moved f span) (moved f binders)
      (moved f codomain) := by
  induction binders with
  | nil => rfl
  | cons b binders ih => exact congrArg (fun e => (⟨_, .pi _ _ _ e⟩ : Expr)) ih

theorem moved_sigmas (span : Span) (binders : List (Name × Expr)) (cdrType : Expr) :
    moved f (Expr.sigmas span binders cdrType) = .sigmas (moved f span) (moved f binders)
      (moved f cdrType) := by
  induction binders with
  | nil => rfl
  | cons b binders ih => exact congrArg (fun e => (⟨_, .sigma _ _ e⟩ : Expr)) ih

theorem moved_fns (span : Span) (binders : List (Plicity × Name × Option Expr)) (body : Expr) :
    moved f (Expr.fns span binders body) = .fns (moved f span) (moved f binders)
      (moved f body) := by
  induction binders with
  | nil => rfl
  | cons b binders ih =>
    obtain ⟨p, x, domain⟩ := b
    exact congrArg
      (Expr.mk _) ((moved_fn f p x domain _).trans (congrArg (Form.fn p x (moved f domain)) ih))

theorem moved_typedFns (span : Span) (binders : List (Plicity × Name × Option Expr))
    (type body : Expr) :
    moved f (Expr.typedFns span binders type body) =
      .typedFns (moved f span) (moved f binders) (moved f type) (moved f body) := by
  obtain ⟨_, _⟩ := type
  obtain ⟨_, _⟩ := body
  exact moved_fns f span binders _

theorem moved_lets (span : Span) (definitions : List (Name × Option Expr × Expr)) (body : Expr) :
    moved f (Expr.lets span definitions body) = .lets (moved f span) (moved f definitions)
      (moved f body) := by
  induction definitions with
  | nil => rfl
  | cons d definitions ih =>
    obtain ⟨x, type, value⟩ := d
    exact congrArg (Expr.mk _)
      ((moved_letIn f x type value _).trans
      (congrArg (Form.letIn x (moved f type) (moved f value)) ih))

theorem moved_apps (span : Span) (target : Expr) (args : List (Plicity × Expr)) :
    moved f (Expr.apps span target args) = .apps (moved f span) (moved f target)
      (moved f args) := by
  induction args generalizing target with
  | nil => rfl
  | cons a args ih => exact ih _

end

end DependentClasses
