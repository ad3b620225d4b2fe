import DependentClasses.Surface.Expr

/-! Forms written with several binders, arguments or definitions at once. They stand for
nested forms, each of which spans the whole written expression. -/
namespace DependentClasses

namespace Expr

/-- `(x: A, implicit y: B) -> C`. -/
def pis (span : Span) (binders : List (Plicity × Name × Expr)) (codomain : Expr) : Expr :=
  binders.foldr (fun (p, x, domain) rest => ⟨span, .pi p x domain rest⟩) codomain

/-- `exists (x: A, y: B) C`. -/
def sigmas (span : Span) (binders : List (Name × Expr)) (cdrType : Expr) : Expr :=
  binders.foldr (fun (x, carType) rest => ⟨span, .sigma x carType rest⟩) cdrType

/-- `(x: A, implicit y) => c`. -/
def fns (span : Span) (binders : List (Plicity × Name × Option Expr)) (body : Expr) : Expr :=
  binders.foldr (fun (p, x, domain) rest => ⟨span, .fn p x domain rest⟩) body

/-- `(x: A): B => c`, whose body is checked against the type before the arrow. -/
def typedFns (span : Span) (binders : List (Plicity × Name × Option Expr))
    (type body : Expr) : Expr :=
  fns span binders ⟨⟨type.span.start, body.span.stop⟩, .the type body⟩

/-- The definitions `x: A = b` of a block before what it returns. -/
def lets (span : Span) (definitions : List (Name × Option Expr × Expr)) (body : Expr) : Expr :=
  definitions.foldr (fun (x, type, value) rest => ⟨span, .letIn x type value rest⟩) body

/-- `f(implicit a, b)`, applied from left to right. -/
def apps (span : Span) (target : Expr) (args : List (Plicity × Expr)) : Expr :=
  args.foldl (fun f (p, arg) => ⟨span, .app p f arg⟩) target

end Expr

def Member.Distinct (members : List Member) : Prop := (members.map Member.label).Nodup

instance (members : List Member) : Decidable (Member.Distinct members) :=
  inferInstanceAs (Decidable (List.Nodup _))

end DependentClasses
