import DependentClasses.Inclusion

/-! Elaboration: expressions become terms. The type of an expression is inferred, or it is
checked against a type that is known; implicit arguments become pattern variables. -/
namespace DependentClasses

structure Inferred where
  term : Term
  type : Value

def firstRepeated (seen : List Name) : List Name → Option Name
  | [] => none
  | x :: xs => if x ∈ seen then some x else firstRepeated (x :: seen) xs

def checkDistinct (labels : List Name) : Solver Unit :=
  match firstRepeated [] labels with
  | some label => refuse (.duplicateProperty label)
  | none => pure ()

def expected {α : Type} (n : Nat) (ctx : Context) (former : Former) (a : Value) : Solver α := do
  let t ← Solver.reify n ctx a
  refuse (.expectedFormer former t)

/-- The context with a parameter written `label`, and the parameter's name. -/
def bindFresh (ctx : Context) (label : Name) (a : Value) : Solver (Context × Name) := do
  let x ← Solver.freshName ctx label
  pure (ctx.bind label x a, x)

/-- Applies a term to a new pattern variable for each of its leading implicit parameters. -/
def applyImplicits : Nat → Context → Inferred → Solver Inferred
  | 0, _, _ => Solver.outOfFuel
  | n + 1, ctx, i => do
    match ← Solver.force n i.type with
    | .pi .implicit a b => do
      let x ← Solver.freshName ctx b.x
      let v ← Solver.create ctx x a
      let b ← b.apply n v
      applyImplicits n ctx ⟨.app .implicit i.term (.var x), b⟩
    | _ => pure i

def Chain.ofFulfilled (fields : List (Name × Value × Value)) : Chain :=
  fields.foldr (fun (label, a, v) rest => .fulfilled label a v rest) .nil

mutual

/-- The term of an expression, with its type. -/
def infer : Nat → Context → Expr → Solver Inferred
  | 0, _, _ => Solver.outOfFuel
  | n + 1, ctx, e => Solver.locating e.span (inferForm n ctx e.form)

/-- The term of an expression that has to be of type `a`. -/
def check : Nat → Context → Expr → Value → Solver Term
  | 0, _, _, _ => Solver.outOfFuel
  | n + 1, ctx, e, a => Solver.locating e.span (checkForm n ctx e a)

def checkType : Nat → Context → Expr → Solver (Term × Value)
  | 0, _, _ => Solver.outOfFuel
  | n + 1, ctx, e => do
    let t ← check n ctx e .type
    let a ← Solver.evaluate n ctx t
    pure (t, a)

def inferForm : Nat → Context → Form → Solver Inferred
  | 0, _, _ => Solver.outOfFuel
  | n + 1, ctx, form =>
    match form with
    | .var label =>
      match ctx.find label with
      | some e => pure ⟨.var e.name, e.type⟩
      | none => refuse (.notInScope label)
    | .type => pure ⟨.type, .type⟩
    | .pi p label domain codomain => do
      let (x, a, b) ← inferBinder n ctx label domain codomain
      pure ⟨.pi p x a b, .type⟩
    | .fn p label domain body =>
      match domain with
      | some domain => inferFn n ctx p label domain body
      | none => refuse .cannotInferFunction
    | .app .explicit target arg => do
      let f ← infer n ctx target
      let f ← applyImplicits n ctx f
      match ← Solver.force n f.type with
      | .pi .explicit a b => do
        let arg ← check n ctx arg a
        let v ← Solver.evaluate n ctx arg
        let b ← b.apply n v
        pure ⟨.app .explicit f.term arg, b⟩
      | .type => do
        let v ← Solver.evaluate n ctx f.term
        match ← Solver.force n v with
        | .classOf c => do
          let c ← checkClassArg n ctx c arg
          let t ← Solver.reifyChain n ctx c
          pure ⟨t, .type⟩
        | _ => expected n ctx .function .type
      | a => expected n ctx .function a
    | .app .implicit target arg => do
      let f ← infer n ctx target
      match ← Solver.force n f.type with
      | .pi .implicit a b => do
        let arg ← check n ctx arg a
        let v ← Solver.evaluate n ctx arg
        let b ← b.apply n v
        pure ⟨.app .implicit f.term arg, b⟩
      | a => expected n ctx .implicitFunction a
    | .sigma label carType cdrType => do
      let (x, a, b) ← inferBinder n ctx label carType cdrType
      pure ⟨.sigma x a b, .type⟩
    | .cons _ _ => refuse .cannotInferPair
    | .car pair => do
      let p ← infer n ctx pair
      match ← Solver.force n p.type with
      | .sigma a _ => pure ⟨.car p.term, a⟩
      | a => expected n ctx .pair a
    | .cdr pair => do
      let p ← infer n ctx pair
      match ← Solver.force n p.type with
      | .sigma _ b => do
        let v ← Solver.evaluate n ctx p.term
        let v ← v.car
        let b ← b.apply n v
        pure ⟨.cdr p.term, b⟩
      | a => expected n ctx .pair a
    | .string => pure ⟨.string, .type⟩
    | .quote text => pure ⟨.quote text, .string⟩
    | .trivial => pure ⟨.trivial, .type⟩
    | .sole => pure ⟨.sole, .trivial⟩
    | .equal type left right => do
      let (t, a) ← checkType n ctx type
      let l ← check n ctx left a
      let r ← check n ctx right a
      pure ⟨.equal t l r, .type⟩
    | .same value => do
      let i ← infer n ctx value
      let v ← Solver.evaluate n ctx i.term
      pure ⟨.same i.term, .equal i.type v v⟩
    | .classOf members => do
      let t ← checkClass n ctx members
      pure ⟨t, .type⟩
    | .object fields => do
      checkDistinct (fields.map Prod.fst)
      let known ← fields.mapM fun (label, e) => do
        let i ← Solver.within (.property label) (infer n ctx e)
        let v ← Solver.evaluate n ctx i.term
        pure (label, i, v)
      pure ⟨.object (known.map fun (label, i, _) => (label, i.term)),
        .classOf (.ofFulfilled (known.map fun (label, i, v) => (label, i.type, v)))⟩
    | .dot target label => do
      let i ← infer n ctx target
      match ← Solver.force n i.type with
      | .classOf c => do
        let v ← Solver.evaluate n ctx i.term
        match ← c.typeOf n v label with
        | some a => pure ⟨.dot i.term label, a⟩
        | none => do
          let t ← Solver.reifyChain n ctx c
          refuse (.unknownProperty label t)
      | a => expected n ctx .classType a
    | .new target fields => do
      let c ← inferTarget n ctx target
      let t ← checkFields n ctx fields c
      pure ⟨t, .classOf c⟩
    | .newWith target args => do
      let c ← inferTarget n ctx target
      let t ← checkArgs n ctx args c
      pure ⟨t, .classOf c⟩
    | .the type value => do
      let (_, a) ← checkType n ctx type
      let t ← check n ctx value a
      pure ⟨t, a⟩
    | .letIn label type value body => do
      let (ctx, x, t, v) ← inferLet n ctx label type value
      let i ← infer n ctx body
      pure ⟨.letIn x t v i.term, i.type⟩

/-- A local definition: the context that has it, its name, its type and its term. -/
def inferLet : Nat → Context → Name → Option Expr → Expr → Solver (Context × Name × Term × Term)
  | 0, _, _, _, _ => Solver.outOfFuel
  | n + 1, ctx, label, type, value => do
    let (t, a, v) ← match type with
      | some type => do
        let (t, a) ← checkType n ctx type
        let v ← check n ctx value a
        pure (t, a, v)
      | none => do
        let i ← infer n ctx value
        let t ← Solver.reify n ctx i.type
        pure (t, i.type, i.term)
    let w ← Solver.evaluate n ctx v
    let x ← Solver.freshName ctx label
    pure (ctx.define label x a w, x, t, v)

/-- The parts of a type that binds a value: the name bound, its type, and the type it is bound
in. -/
def inferBinder : Nat → Context → Name → Expr → Expr → Solver (Name × Term × Term)
  | 0, _, _, _, _ => Solver.outOfFuel
  | n + 1, ctx, label, domain, codomain => do
    let (t, a) ← checkType n ctx domain
    let (ctx, x) ← bindFresh ctx label a
    let b ← check n ctx codomain .type
    pure (x, t, b)

def inferFn : Nat → Context → Plicity → Name → Expr → Expr → Solver Inferred
  | 0, _, _, _, _, _ => Solver.outOfFuel
  | n + 1, ctx, p, label, domain, body => do
    let (t, a) ← checkType n ctx domain
    let (inner, x) ← bindFresh ctx label a
    let i ← infer n inner body
    let b ← Solver.reify n inner i.type
    let f ← Solver.evaluate n ctx (.pi p x t b)
    pure ⟨.fn p x t i.term, f⟩

/-- Checks an expression against a type. The type may decide how the expression is read. -/
def checkForm : Nat → Context → Expr → Value → Solver Term
  | 0, _, _, _ => Solver.outOfFuel
  | n + 1, ctx, e, a => do
    let a ← Solver.force n a
    match e.form with
    | .fn .explicit label domain body =>
      match a with
      | .pi .explicit b c => checkFn n ctx .explicit label domain body b c
      | .pi .implicit b c => do
        let (inner, x) ← bindFresh ctx c.x b
        let c ← c.apply n (.variable b x)
        let body ← check n inner e c
        let b ← Solver.reify n ctx b
        pure (.fn .implicit x b body)
      | _ => checkInferred n ctx e a
    | .fn .implicit label domain body =>
      match a with
      | .pi .implicit b c => checkFn n ctx .implicit label domain body b c
      | _ => checkInferred n ctx e a
    | .cons car cdr =>
      match a with
      | .sigma b c => do
        let x ← check n ctx car b
        let v ← Solver.evaluate n ctx x
        let c ← c.apply n v
        let y ← check n ctx cdr c
        pure (.cons x y)
      | _ => checkInferred n ctx e a
    | .object fields =>
      match a with
      | .classOf c => checkFields n ctx fields c
      | _ => checkInferred n ctx e a
    | .classOf members =>
      match a with
      | .type => checkClass n ctx members
      | _ => checkInferred n ctx e a
    | .letIn label type value body => do
      let (ctx, x, t, v) ← inferLet n ctx label type value
      let b ← check n ctx body a
      pure (.letIn x t v b)
    | _ => checkInferred n ctx e a

/-- Infers a type that has to be included in `a`. -/
def checkInferred : Nat → Context → Expr → Value → Solver Term
  | 0, _, _, _ => Solver.outOfFuel
  | n + 1, ctx, e, a => do
    let i ← infer n ctx e
    let i ← match a with
      | .pi .implicit _ _ => pure i
      | _ => applyImplicits n ctx i
    inclusion n ctx i.type a
    pure i.term

/-- Checks a function against the type of functions from `a`. An annotation may ask for less than
`a`. -/
def checkFn : Nat → Context → Plicity → Name → Option Expr → Expr → Value → Closure → Solver Term
  | 0, _, _, _, _, _, _, _ => Solver.outOfFuel
  | n + 1, ctx, p, label, domain, body, a, b => do
    match domain with
    | some domain => do
      let (_, c) ← checkType n ctx domain
      inclusion n ctx a c
    | none => pure ()
    let (inner, x) ← bindFresh ctx label a
    let b ← b.apply n (.variable a x)
    let body ← check n inner body b
    let a ← Solver.reify n ctx a
    pure (.fn p x a body)

def inferTarget : Nat → Context → Expr → Solver Chain
  | 0, _, _ => Solver.outOfFuel
  | n + 1, ctx, target => do
    let (_, a) ← checkType n ctx target
    match ← Solver.force n a with
    | .classOf c => pure c
    | a => Solver.locating target.span (expected n ctx .classType a)

/-- An object of a class, its properties given by name. Properties that the class does not have are
kept. -/
def checkFields : Nat → Context → List (Name × Expr) → Chain → Solver Term
  | 0, _, _, _ => Solver.outOfFuel
  | n + 1, ctx, fields, c => do
    checkDistinct (fields.map Prod.fst)
    let known ← checkAlong n ctx fields c
    let extra ← (fields.filter fun (label, _) => label ∉ known.map Prod.fst).mapM
        fun (label, e) => do
      let i ← Solver.within (.property label) (infer n ctx e)
      pure (label, i.term)
    pure (.object (known ++ extra))

/-- The properties of a class in order: unfulfilled ones as given, fulfilled ones compared with what
is given or filled in. -/
def checkAlong : Nat → Context → List (Name × Expr) → Chain → Solver (List (Name × Term))
  | 0, _, _, _ => Solver.outOfFuel
  | n + 1, ctx, fields, c =>
    match c with
    | .nil => pure []
    | .declared label a rest =>
      match fields.lookup label with
      | none => refuse (.missingProperty label)
      | some e => do
        let t ← Solver.within (.property label) (check n ctx e a)
        let v ← Solver.evaluate n ctx t
        let c ← rest.applyChain n v
        let more ← checkAlong n ctx fields c
        pure ((label, t) :: more)
    | .fulfilled label a w rest => do
      let t ← match fields.lookup label with
        | some e => Solver.within (.property label) do
          let t ← check n ctx e a
          let v ← Solver.evaluate n ctx t
          Solver.judging fun s => convert n s ctx a w v
          pure t
        | none => Solver.reify n ctx w
      let more ← checkAlong n ctx fields rest
      pure ((label, t) :: more)

/-- An object of a class, its unfulfilled properties given in order. -/
def checkArgs : Nat → Context → List Expr → Chain → Solver Term
  | 0, _, _, _ => Solver.outOfFuel
  | n + 1, ctx, args, c => do
    let (known, unused) ← checkArgsAlong n ctx args c
    match unused with
    | arg :: _ => Solver.locating arg.span do
      let t ← Solver.reifyChain n ctx c
      refuse (.extraArgument t)
    | [] => pure (.object known)

/-- The properties of a class in order, and the arguments that are left over. -/
def checkArgsAlong : Nat → Context → List Expr → Chain → Solver (List (Name × Term) × List Expr)
  | 0, _, _, _ => Solver.outOfFuel
  | n + 1, ctx, args, c =>
    match c with
    | .nil => pure ([], args)
    | .declared label a rest =>
      match args with
      | [] => refuse (.missingProperty label)
      | arg :: args => do
        let t ← Solver.within (.property label) (check n ctx arg a)
        let v ← Solver.evaluate n ctx t
        let c ← rest.applyChain n v
        let (more, unused) ← checkArgsAlong n ctx args c
        pure ((label, t) :: more, unused)
    | .fulfilled label _ w rest => do
      let t ← Solver.reify n ctx w
      let (more, unused) ← checkArgsAlong n ctx args rest
      pure ((label, t) :: more, unused)

/-- The class with its first unfulfilled property fulfilled by an argument. -/
def checkClassArg : Nat → Context → Chain → Expr → Solver Chain
  | 0, _, _, _ => Solver.outOfFuel
  | n + 1, ctx, c, arg => do
    match ← fulfilNext n ctx c arg with
    | some c => pure c
    | none => Solver.locating arg.span do
      let t ← Solver.reifyChain n ctx c
      refuse (.extraArgument t)

def fulfilNext : Nat → Context → Chain → Expr → Solver (Option Chain)
  | 0, _, _, _ => Solver.outOfFuel
  | n + 1, ctx, c, arg =>
    match c with
    | .nil => pure none
    | .declared label a rest => do
      let t ← Solver.within (.property label) (check n ctx arg a)
      let v ← Solver.evaluate n ctx t
      let c ← rest.applyChain n v
      pure (some (.fulfilled label a v c))
    | .fulfilled label a v rest => do
      let rest ← fulfilNext n ctx rest arg
      pure (rest.map fun rest => .fulfilled label a v rest)

/-- A written class, whose labels have to be distinct. -/
def checkClass : Nat → Context → List Member → Solver Term
  | 0, _, _ => Solver.outOfFuel
  | n + 1, ctx, members => do
    checkDistinct (members.map Member.label)
    checkMembers n ctx members

/-- The class of the given properties, each in scope in those after it. -/
def checkMembers : Nat → Context → List Member → Solver Term
  | 0, _, _ => Solver.outOfFuel
  | n + 1, ctx, members =>
    match members with
    | [] => pure .emptyClass
    | .declared label type :: members => do
      let t ← Solver.within (.property label) (check n ctx type .type)
      let a ← Solver.evaluate n ctx t
      let (ctx, x) ← bindFresh ctx label a
      let rest ← checkMembers n ctx members
      pure (.declared label x t rest)
    | .fulfilled label type value :: members => do
      let (t, a, v) ← match type with
        | some type => do
          let t ← Solver.within (.property label) (check n ctx type .type)
          let a ← Solver.evaluate n ctx t
          let v ← Solver.within (.property label) (check n ctx value a)
          pure (t, a, v)
        | none => do
          let i ← Solver.within (.property label) (infer n ctx value)
          let t ← Solver.reify n ctx i.type
          pure (t, i.type, i.term)
      let w ← Solver.evaluate n ctx v
      let x ← Solver.freshName ctx label
      let rest ← checkMembers n (ctx.define label x a w) members
      pure (.fulfilled label x t v rest)

end

end DependentClasses
