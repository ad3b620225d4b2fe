import DependentClasses.Solution.Force

/-! Reading values back as terms in normal form. Solutions replace their pattern variables,
and every binder gets a name that nothing around it has. -/
namespace DependentClasses

mutual

/-- The normal form of a value whose binders avoid `used`. -/
def Value.reify : Nat → Solution → List Name → Value → Eval Term
  | 0, _, _, _ => Eval.outOfFuel
  | n + 1, s, used, v => do
    match ← v.force n s with
    | .neutral _ spine => spine.reify n s used
    | .type => pure .type
    | .pi p a b => do
      let x := b.x.fresh used
      let r ← b.apply n (.variable a x)
      let b ← r.reify n s (x :: used)
      let a ← a.reify n s used
      pure (.pi p x a b)
    | .fn p a b => do
      let x := b.x.fresh used
      let r ← b.apply n (.variable a x)
      let b ← r.reify n s (x :: used)
      let a ← a.reify n s used
      pure (.fn p x a b)
    | .sigma a b => do
      let x := b.x.fresh used
      let r ← b.apply n (.variable a x)
      let b ← r.reify n s (x :: used)
      let a ← a.reify n s used
      pure (.sigma x a b)
    | .cons a b => do
      let a ← a.reify n s used
      let b ← b.reify n s used
      pure (.cons a b)
    | .string => pure .string
    | .quote t => pure (.quote t)
    | .trivial => pure .trivial
    | .sole => pure .sole
    | .equal a l r => do
      let a ← a.reify n s used
      let l ← l.reify n s used
      let r ← r.reify n s used
      pure (.equal a l r)
    | .same a => do
      let a ← a.reify n s used
      pure (.same a)
    | .classOf c => c.reify n s used
    | .object fields => do
      let fields ← fields.mapM fun (label, a) => do
        let a ← a.reify n s used
        pure (label, a)
      pure (.object fields)

def Neutral.reify : Nat → Solution → List Name → Neutral → Eval Term
  | 0, _, _, _ => Eval.outOfFuel
  | n + 1, s, used, spine =>
    match spine with
    | .var x => pure (.var x)
    | .app p target _ arg => do
      let target ← target.reify n s used
      let arg ← arg.reify n s used
      pure (.app p target arg)
    | .car pair => do
      let pair ← pair.reify n s used
      pure (.car pair)
    | .cdr pair => do
      let pair ← pair.reify n s used
      pure (.cdr pair)
    | .dot target label => do
      let target ← target.reify n s used
      pure (.dot target label)

/-- The class of a chain of properties. Each is bound under its own label, if that is not used. -/
def Chain.reify : Nat → Solution → List Name → Chain → Eval Term
  | 0, _, _, _ => Eval.outOfFuel
  | n + 1, s, used, c =>
    match c with
    | .nil => pure .emptyClass
    | .declared label a rest => do
      let t ← a.reify n s used
      let x := label.fresh used
      let c ← rest.applyChain n (.variable a x)
      let rest ← c.reify n s (x :: used)
      pure (.declared label x t rest)
    | .fulfilled label a v rest => do
      let a ← a.reify n s used
      let v ← v.reify n s used
      let x := label.fresh used
      let rest ← rest.reify n s (x :: used)
      pure (.fulfilled label x a v rest)

end

namespace Solution

/-- The normal form of a value in a context. -/
def reify (n : Nat) (s : Solution) (ctx : Context) (v : Value) : Eval Term :=
  v.reify n s (s.usedNames ctx)

def reifyChain (n : Nat) (s : Solution) (ctx : Context) (c : Chain) : Eval Term :=
  c.reify n s (s.usedNames ctx)

end Solution

end DependentClasses
