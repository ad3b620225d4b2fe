import DependentClasses.Value.Basic
import DependentClasses.Value.Fault

/-! Evaluation of terms. The type of all types is itself a type, so evaluation need not
end; the first argument bounds its depth, and every call spends one unit of it. -/
namespace DependentClasses

def Value.car : Value → Eval Value
  | .cons a _ => pure a
  | .neutral (.sigma a _) s => pure (.neutral a (.car s))
  | .neutral _ _ => Eval.fault .notPairType
  | _ => Eval.fault .notPair

def Value.chain : Value → Eval Chain
  | .classOf c => pure c
  | _ => Eval.fault .brokenChain

mutual

/-- The value of a term. -/
def eval : Nat → Environment → Term → Eval Value
  | 0, _, _ => Eval.outOfFuel
  | n + 1, env, t =>
    match t with
    | .var x =>
      match env.lookup x with
      | some v => pure v
      | none => Eval.fault (.unboundVariable x)
    | .type => pure .type
    | .pi p x a b => do
      let a ← eval n env a
      pure (.pi p a ⟨env, x, b⟩)
    | .fn p x a b => do
      let a ← eval n env a
      pure (.fn p a ⟨env, x, b⟩)
    | .app p f a => do
      let f ← eval n env f
      let a ← eval n env a
      Value.app n p f a
    | .sigma x a b => do
      let a ← eval n env a
      pure (.sigma a ⟨env, x, b⟩)
    | .cons a b => do
      let a ← eval n env a
      let b ← eval n env b
      pure (.cons a b)
    | .car a => do
      let a ← eval n env a
      Value.car a
    | .cdr a => do
      let a ← eval n env a
      Value.cdr n a
    | .string => pure .string
    | .quote s => pure (.quote s)
    | .trivial => pure .trivial
    | .sole => pure .sole
    | .equal a l r => do
      let a ← eval n env a
      let l ← eval n env l
      let r ← eval n env r
      pure (.equal a l r)
    | .same a => do
      let a ← eval n env a
      pure (.same a)
    | .emptyClass | .declared .. | .fulfilled .. => do
      let c ← evalChain n env t
      pure (.classOf c)
    | .object fields => do
      let fields ← fields.mapM fun (label, a) => do
        let a ← eval n env a
        pure (label, a)
      pure (.object fields)
    | .dot a label => do
      let a ← eval n env a
      Value.dot n a label
    | .letIn x _ a b => do
      let a ← eval n env a
      eval n ((x, a) :: env) b

/-- The properties of a class that is written out. The rest after a fulfilled property is computed
at once. -/
def evalChain : Nat → Environment → Term → Eval Chain
  | 0, _, _ => Eval.outOfFuel
  | n + 1, env, t =>
    match t with
    | .emptyClass => pure .nil
    | .declared label x a rest => do
      let a ← eval n env a
      pure (.declared label a ⟨env, x, rest⟩)
    | .fulfilled label x a v rest => do
      let v ← eval n env v
      let a ← eval n env a
      let rest ← evalChain n ((x, v) :: env) rest
      pure (.fulfilled label a v rest)
    | _ => Eval.fault .brokenChain

/-- A function applied to an argument of its kind. -/
def Value.app : Nat → Plicity → Value → Value → Eval Value
  | 0, _, _, _ => Eval.outOfFuel
  | n + 1, p, f, v =>
    match f with
    | .fn q _ body => if p = q then eval n (body.bind v) body.body else Eval.fault (.notFunction p)
    | .neutral (.pi q a b) s =>
      if p = q then do
        let b ← eval n (b.bind v) b.body
        pure (.neutral b (.app p s a v))
      else Eval.fault (.notFunctionType p)
    | .neutral _ _ => Eval.fault (.notFunctionType p)
    | _ => Eval.fault (.notFunction p)

def Value.cdr : Nat → Value → Eval Value
  | 0, _ => Eval.outOfFuel
  | n + 1, v =>
    match v with
    | .cons _ b => pure b
    | .neutral (.sigma a b) s => do
      let b ← eval n (b.bind (.neutral a (.car s))) b.body
      pure (.neutral b (.cdr s))
    | .neutral _ _ => Eval.fault .notPairType
    | _ => Eval.fault .notPair

/-- A property of an object. One that the class fulfils is known whatever the object. -/
def Value.dot : Nat → Value → Name → Eval Value
  | 0, _, _ => Eval.outOfFuel
  | n + 1, v, label =>
    match v with
    | .object fields =>
      match fields.lookup label with
      | some a => pure a
      | none => Eval.fault (.missingField label)
    | .neutral (.classOf c) s => do
      match ← Chain.find n c v label with
      | some (_, some a) => pure a
      | some (a, none) => pure (.neutral a (.dot s label))
      | none => Eval.fault (.missingProperty label)
    | .neutral _ _ => Eval.fault .notClass
    | _ => Eval.fault .notObject

/-- The type of a property of `v`, an object of the class, and the value if the class fulfils it.
Unfulfilled properties on the way take their values from `v`. -/
def Chain.find : Nat → Chain → Value → Name → Eval (Option (Value × Option Value))
  | 0, _, _, _ => Eval.outOfFuel
  | n + 1, c, v, label =>
    match c with
    | .nil => pure none
    | .declared k a rest =>
      if k = label then pure (some (a, none))
      else do
        let w ← Value.dot n v k
        let r ← eval n (rest.bind w) rest.body
        let c ← r.chain
        Chain.find n c v label
    | .fulfilled k a w rest =>
      if k = label then pure (some (a, some w))
      else Chain.find n rest v label

end

namespace Closure

/-- The body, computed with `v` for the closure's name. -/
def apply (n : Nat) (c : Closure) (v : Value) : Eval Value := eval n (c.bind v) c.body

def applyChain (n : Nat) (c : Closure) (v : Value) : Eval Chain := do
  let r ← c.apply n v
  r.chain

end Closure

namespace Chain

/-- The type of a property of `v`, an object of the class. -/
def typeOf (n : Nat) (c : Chain) (v : Value) (label : Name) : Eval (Option Value) := do
  let found ← c.find n v label
  pure (found.map Prod.fst)

/-- The labels of a class in order. An unfulfilled property stands for itself in what follows. -/
def labels : Nat → Chain → Eval (List Name)
  | 0, _ => Eval.outOfFuel
  | _ + 1, .nil => pure []
  | n + 1, .declared label a rest => do
    let c ← rest.applyChain n (.variable a rest.x)
    let more ← labels n c
    pure (label :: more)
  | n + 1, .fulfilled label _ _ rest => do
    let more ← labels n rest
    pure (label :: more)

end Chain

end DependentClasses
