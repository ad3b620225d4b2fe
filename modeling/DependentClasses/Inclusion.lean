import DependentClasses.Conversion
import DependentClasses.Solution.Unification
import DependentClasses.Solution.Unsolved

/-! Inclusion of types: every value of one type is a value of another. Functions are
included contravariantly in their arguments, and a class is included in every class that
asks for less. -/
namespace DependentClasses

/-- A property of a class, with its value if the class fulfils it. -/
structure Property where
  type : Value
  value : Option Value

namespace Property

/-- The fresh name that stands for a property. -/
def image (images : List (Name × Name)) (label : Name) : Verdict Name :=
  match images.lookup label with
  | some x => pure x
  | none => refuse (.internal ("no fresh name for property " ++ label.text))

/-- The context in which the unfulfilled ones of the properties are parameters. -/
def bindAll (images : List (Name × Name)) : Context → List (Name × Property) → Verdict Context
  | ctx, [] => pure ctx
  | ctx, (label, p) :: rest =>
    match p.value with
    | some _ => bindAll images ctx rest
    | none => do
      let x ← image images label
      bindAll images (ctx.bind x x p.type) rest

end Property

namespace Chain

/-- The properties of a class. An unfulfilled one is replaced by its image in what follows. -/
def properties : Nat → List (Name × Name) → Chain → Verdict (List (Name × Property))
  | 0, _, _ => (Eval.outOfFuel : Eval _)
  | _ + 1, _, .nil => pure []
  | n + 1, images, .declared label a rest => do
    let x ← Property.image images label
    let c ← rest.applyChain n (.variable a x)
    let more ← properties n images c
    pure ((label, ⟨a, none⟩) :: more)
  | n + 1, images, .fulfilled label a v rest => do
    let more ← properties n images rest
    pure ((label, ⟨a, some v⟩) :: more)

/-- The part of a class from the property `label` on, in a context that has a parameter for each
unfulfilled property before it. -/
def seek : Nat → Solution → Context → Name → Chain → Eval (Context × Chain)
  | 0, _, _, _, _ => Eval.outOfFuel
  | _ + 1, _, ctx, _, .nil => pure (ctx, .nil)
  | n + 1, s, ctx, label, .declared k a rest =>
    if k = label then pure (ctx, .declared k a rest)
    else do
      let (ctx, v) := s.witness ctx rest.x a
      let c ← rest.applyChain n v
      seek n s ctx label c
  | n + 1, s, ctx, label, .fulfilled k a v rest =>
    if k = label then pure (ctx, .fulfilled k a v rest) else seek n s ctx label rest

def places (among labels : List Name) : List Nat := labels.filterMap fun k => among.findIdx? (· = k)

def ascending : List Nat → Bool
  | i :: j :: rest => i < j && ascending (j :: rest)
  | _ => true

/-- The properties that both classes have stand in the same order in both. -/
def isOrdered (n : Nat) (sub super : Chain) : Eval Bool := do
  let among ← sub.labels n
  let labels ← super.labels n
  pure (ascending (places among labels))

end Chain

/-- Types of unrelated shapes have to be equal, if need be after solving pattern variables. -/
def includeEqual (n : Nat) (ctx : Context) (sub super : Value) : Solver Unit := do
  let l ← Solver.reify n ctx sub
  let r ← Solver.reify n ctx super
  if l.alphaEquivalent r then pure ()
  else do
    let s ← get
    if (s.unsolvedIn l).isEmpty && (s.unsolvedIn r).isEmpty then refuse (.typeMismatch l r)
    else unify n ctx .type sub super

/-- Compares two classes only if the narrower one has every property of the wider one. -/
def includeIfCovered (n : Nat) (sub super : Chain) (compare : Solver Unit) : Solver Unit := do
  let among ← sub.labels n
  let labels ← super.labels n
  let missing := labels.filter (· ∉ among)
  if missing.isEmpty then compare else refuse (.missingProperties missing)

/-- Compares the first property of the wider class, and `walk` what comes after it. The property
stands for its value in the narrower class, if that fulfils it. If it cannot be found there, `lost`
gives the answer. -/
def includeNext (lost : Name → Solver Unit) (n : Nat)
    (types : Context → Value → Value → Solver Unit) (walk : Context → Chain → Chain → Solver Unit)
    (ctx : Context) (sub super : Chain) :
    Solver Unit :=
  match super with
  | .nil => pure ()
  | .declared label a rest => do
    let (ctx, found) ← Solver.reading fun s => sub.seek n s ctx label
    match found with
    | .nil => lost label
    | .declared _ b subRest => do
      Solver.within (.property label) (types ctx b a)
      let (ctx, v) ← Solver.witness ctx subRest.x b
      let sub ← subRest.applyChain n v
      let super ← rest.applyChain n v
      walk ctx sub super
    | .fulfilled _ b v sub => do
      Solver.within (.property label) (types ctx b a)
      let x ← Solver.freshName ctx label
      let var ← Solver.create ctx x b
      Solver.within (.property label) (unify n ctx b var v)
      let super ← rest.applyChain n v
      walk ctx sub super
  | .fulfilled label a w rest => do
    let (ctx, found) ← Solver.reading fun s => sub.seek n s ctx label
    match found with
    | .nil => lost label
    | .declared _ _ _ => refuse (.unfixedProperty label)
    | .fulfilled _ b v sub => do
      Solver.within (.property label) do
        types ctx b a
        unify n ctx b w v
      walk ctx sub rest

mutual

/-- Every value of `sub` is a value of `super`. -/
def inclusion : Nat → Context → Value → Value → Solver Unit
  | 0, _, _, _ => Solver.outOfFuel
  | n + 1, ctx, sub, super => do
    let sub ← Solver.force n sub
    let super ← Solver.force n super
    tryCatch (includeForms n ctx sub super) fun f => do
      let l ← Solver.reify n ctx sub
      let r ← Solver.reify n ctx super
      throw (f.within (.inclusion l r))

/-- Inclusion of types whose heads are not solved pattern variables. -/
def includeForms : Nat → Context → Value → Value → Solver Unit
  | 0, _, _, _ => Solver.outOfFuel
  | n + 1, ctx, sub, super => do
    let s ← get
    if s.isPatternHeaded sub || s.isPatternHeaded super then unify n ctx .type sub super
    else
      match sub, super with
      | .pi p a b, .pi q c d =>
        if p = q then do
          inclusion n ctx c a
          let (ctx, v) ← Solver.witness ctx b.x a
          let b ← b.apply n v
          let d ← d.apply n v
          inclusion n ctx b d
        else includeEqual n ctx sub super
      | .sigma a b, .sigma c d => do
        inclusion n ctx a c
        let (ctx, v) ← Solver.witness ctx b.x a
        let b ← b.apply n v
        let d ← d.apply n v
        inclusion n ctx b d
      | .classOf c, .classOf d => do
        if ← c.isOrdered n d then includeOrdered n ctx c d else includeUnordered n ctx c d
      | .equal a l r, .equal b l' r' => do
        inclusion n ctx a b
        Solver.judging fun s => convert n s ctx b l l'
        Solver.judging fun s => convert n s ctx b r r'
      | _, _ => includeEqual n ctx sub super

/-- Inclusion of classes whose properties may stand in different orders. -/
def includeUnordered : Nat → Context → Chain → Chain → Solver Unit
  | 0, _, _, _ => Solver.outOfFuel
  | n + 1, ctx, sub, super => do
    let among ← sub.labels n
    let labels ← super.labels n
    let s ← get
    let images := Name.freshImages (s.usedNames ctx) (among ++ labels)
    set (s.reserve (images.map Prod.snd))
    let ps ← Solver.judging fun _ => sub.properties n images
    let qs ← Solver.judging fun _ => super.properties n images
    let ctx ← Solver.judging fun _ => Property.bindAll images ctx ps
    qs.forM fun (label, q) =>
      match ps.lookup label with
      | none => refuse (.missingProperty label)
      | some p => Solver.within (.property label) (includeProperty n ctx images label p q)

/-- The property `p` of a class is as good as the property `q` of another one. -/
def includeProperty : Nat → Context → List (Name × Name) → Name → Property → Property → Solver Unit
  | 0, _, _, _, _, _ => Solver.outOfFuel
  | n + 1, ctx, images, label, p, q => do
    inclusion n ctx p.type q.type
    match p.value, q.value with
    | some v, some w => unify n ctx q.type w v
    | some v, none => do
      let x ← Solver.judging fun _ => Property.image images label
      let var ← Solver.create ctx x p.type
      unify n ctx p.type var v
    | none, some _ => refuse (.unfixedProperty label)
    | none, none => pure ()

/-- Inclusion of classes whose common properties stand in the same order. -/
def includeOrdered : Nat → Context → Chain → Chain → Solver Unit
  | 0, _, _, _ => Solver.outOfFuel
  | n + 1, ctx, sub, super => includeIfCovered n sub super (includeInStep n ctx sub super)

/-- Walks along both classes at once. -/
def includeInStep : Nat → Context → Chain → Chain → Solver Unit
  | 0, _, _, _ => Solver.outOfFuel
  | n + 1, ctx, sub, super =>
    includeNext (fun label => refuse (.propertyNotFound label)) n (inclusion n) (includeInStep n)
      ctx sub super

end

end DependentClasses
