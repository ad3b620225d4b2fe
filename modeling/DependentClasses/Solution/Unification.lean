import DependentClasses.Solution.Pattern

/-! Unification: two values are made equal at a type by solving pattern variables. -/
namespace DependentClasses

def Solver.cannotUnify {α : Type} (n : Nat) (ctx : Context) (l r : Value) : Solver α := do
  let l ← Solver.reify n ctx l
  let r ← Solver.reify n ctx r
  refuse (.unificationFailure l r)

def Solver.solvePattern (n : Nat) (ctx : Context) (spine : PatternSpine) (other : Value) :
    Solver Unit := do
  let s ← Solver.judging fun s => spine.solve n s ctx other
  set s

/-- The type of a function's result at the argument `v`. -/
def Value.resultType (n : Nat) (a v : Value) : Eval Value :=
  match a with
  | .pi _ _ b => b.apply n v
  | _ => pure .type

/-- The type of a stuck computation is a function type. -/
def Solver.isFunction (n : Nat) (a : Value) : Solver Bool := do
  match ← Solver.force n a with
  | .pi .explicit _ _ => pure true
  | _ => pure false

mutual

/-- Makes two values of type `a` equal. -/
def unify : Nat → Context → Value → Value → Value → Solver Unit
  | 0, _, _, _, _ => Solver.outOfFuel
  | n + 1, ctx, a, l, r => do
    let a ← Solver.force n a
    let l ← Solver.force n l
    let r ← Solver.force n r
    let s ← get
    match l.patternSpine s, r.patternSpine s with
    | some p, some q =>
      if ← p.same n s ctx q then pure () else Solver.solvePattern n ctx p r
    | some p, none => Solver.solvePattern n ctx p r
    | none, some q => Solver.solvePattern n ctx q l
    | none, none => unifyForms n ctx a l r

/-- Makes two values equal that have no pattern variable at their heads. -/
def unifyForms : Nat → Context → Value → Value → Value → Solver Unit
  | 0, _, _, _, _ => Solver.outOfFuel
  | n + 1, ctx, a, l, r =>
    match l, r with
    | .type, .type => pure ()
    | .string, .string => pure ()
    | .trivial, .trivial => pure ()
    | .sole, .sole => pure ()
    | .quote t, .quote u => if t = u then pure () else Solver.cannotUnify n ctx l r
    | .pi p c d, .pi q c' d' =>
      if p = q then unifyBinders n ctx c c' d d' else Solver.cannotUnify n ctx l r
    | .sigma c d, .sigma c' d' => unifyBinders n ctx c c' d d'
    | .fn p c f, .fn q _ g =>
      if p = q then do
        let (ctx, v) ← Solver.witness ctx f.x c
        let b ← a.resultType n v
        let f ← f.apply n v
        let g ← g.apply n v
        unify n ctx b f g
      else Solver.cannotUnify n ctx l r
    | .fn .explicit c f, .neutral d _ => do
      if ← Solver.isFunction n d then
        let (ctx, v) ← Solver.witness ctx f.x c
        let b ← a.resultType n v
        let f ← f.apply n v
        let g ← r.app n .explicit v
        unify n ctx b f g
      else Solver.cannotUnify n ctx l r
    | .neutral d _, .fn .explicit c g => do
      if ← Solver.isFunction n d then
        let (ctx, v) ← Solver.witness ctx g.x c
        let b ← a.resultType n v
        let f ← l.app n .explicit v
        let g ← g.apply n v
        unify n ctx b f g
      else Solver.cannotUnify n ctx l r
    | .cons x y, .cons x' y' =>
      match a with
      | .sigma c d => do
        unify n ctx c x x'
        let d ← d.apply n x
        unify n ctx d y y'
      | _ => Solver.cannotUnify n ctx l r
    | .equal c x y, .equal c' x' y' => do
      unify n ctx .type c c'
      unify n ctx c x x'
      unify n ctx c y y'
    | .same x, .same y =>
      match a with
      | .equal c _ _ => unify n ctx c x y
      | _ => Solver.cannotUnify n ctx l r
    | .classOf c, .classOf d => do
      if ← unifyChains n ctx c d then pure () else Solver.cannotUnify n ctx l r
    | .object fs, .object gs =>
      if fs.length = gs.length then
        fs.forM fun (label, x) => do
          match gs.lookup label with
          | none => Solver.cannotUnify n ctx l r
          | some y =>
            let b : Option Value ← match a with
              | .classOf c => (c.typeOf n l label : Eval (Option Value))
              | _ => pure none
            match b with
            | some b => unify n ctx b x y
            | none => do
              let t ← Solver.reify n ctx x
              let u ← Solver.reify n ctx y
              if t.alphaEquivalent u then pure () else Solver.cannotUnify n ctx l r
      else Solver.cannotUnify n ctx l r
    | .neutral _ p, .neutral _ q => do
      if ← unifyNeutrals n ctx p q then pure () else Solver.cannotUnify n ctx l r
    | _, _ => Solver.cannotUnify n ctx l r

def unifyBinders : Nat → Context → Value → Value → Closure → Closure → Solver Unit
  | 0, _, _, _, _, _ => Solver.outOfFuel
  | n + 1, ctx, c, c', d, d' => do
    unify n ctx .type c c'
    let (ctx, v) ← Solver.witness ctx d.x c
    let d ← d.apply n v
    let d' ← d'.apply n v
    unify n ctx .type d d'

/-- Makes two stuck computations equal. They cannot be if they do different things or are stuck on
different variables. -/
def unifyNeutrals : Nat → Context → Neutral → Neutral → Solver Bool
  | 0, _, _, _ => Solver.outOfFuel
  | n + 1, ctx, l, r =>
    match l, r with
    | .var x, .var y => pure (x = y)
    | .app p f a x, .app q g _ y =>
      if p = q then do
        if ← unifyNeutrals n ctx f g then
          unify n ctx a x y
          pure true
        else pure false
      else pure false
    | .car p, .car q => unifyNeutrals n ctx p q
    | .cdr p, .cdr q => unifyNeutrals n ctx p q
    | .dot p j, .dot q k => if j = k then unifyNeutrals n ctx p q else pure false
    | _, _ => pure false

/-- Makes two classes equal. They cannot be if their properties differ in label or in being
fulfilled. -/
def unifyChains : Nat → Context → Chain → Chain → Solver Bool
  | 0, _, _, _ => Solver.outOfFuel
  | n + 1, ctx, l, r =>
    match l, r with
    | .nil, .nil => pure true
    | .declared j a c, .declared k b d =>
      if j = k then do
        unify n ctx .type a b
        let (ctx, v) ← Solver.witness ctx c.x a
        let c ← c.applyChain n v
        let d ← d.applyChain n v
        unifyChains n ctx c d
      else pure false
    | .fulfilled j a x c, .fulfilled k b y d =>
      if j = k then do
        unify n ctx .type a b
        unify n ctx a x y
        unifyChains n ctx c d
      else pure false
    | _, _ => pure false

end

end DependentClasses
