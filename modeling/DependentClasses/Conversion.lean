import DependentClasses.Solver
import DependentClasses.Term.Alpha

/-! Equality of values at a type. Types are equal if their normal forms are; other values
are compared as their type directs. -/
namespace DependentClasses

def convertType (n : Nat) (s : Solution) (ctx : Context) (l r : Value) : Verdict Unit := do
  let l ← s.reify n ctx l
  let r ← s.reify n ctx r
  if l.alphaEquivalent r then pure () else refuse (.typeMismatch l r)

mutual

def convert : Nat → Solution → Context → Value → Value → Value → Verdict Unit
  | 0, _, _, _, _, _ => (Eval.outOfFuel : Eval Unit)
  | n + 1, s, ctx, a, l, r => do
    let a ← a.force n s
    let l ← l.force n s
    let r ← r.force n s
    let unsupported : Verdict Unit := refuse (.conversionNotImplemented a.kind l.kind r.kind)
    match a with
    | .type => convertType n s ctx l r
    | _ =>
      match l, r with
      | .sole, .sole => pure ()
      | .quote t, .quote u => if t = u then pure () else refuse (.literalMismatch t u)
      | .neutral _ p, .neutral _ q => convertNeutral n s ctx p q
      | .cons x y, .cons x' y' =>
        match a with
        | .sigma c d => do
          convert n s ctx c x x'
          let d ← d.apply n x
          convert n s ctx d y y'
        | _ => unsupported
      | .fn p _ f, .fn q _ g =>
        match a with
        | .pi o c d =>
          if o = p ∧ o = q then do
            let (ctx, v) := s.witness ctx d.x c
            let d ← d.apply n v
            let f ← f.apply n v
            let g ← g.apply n v
            convert n s ctx d f g
          else unsupported
        | _ => unsupported
      | .same x, .same y =>
        match a with
        | .equal b _ _ => convert n s ctx b x y
        | _ => unsupported
      | .object fs, .object gs =>
        match a with
        | .classOf c =>
          if fs.length = gs.length then
            fs.forM fun (label, x) => do
              match gs.lookup label with
              | none => refuse (.missingProperty label)
              | some y =>
                match ← c.typeOf n l label with
                | none => refuse (.propertyNotFound label)
                | some b => convert n s ctx b x y
          else unsupported
        | _ => unsupported
      | _, _ => unsupported

/-- Stuck computations are equal if they are stuck on the same variable and do the same to it. -/
def convertNeutral : Nat → Solution → Context → Neutral → Neutral → Verdict Unit
  | 0, _, _, _, _ => (Eval.outOfFuel : Eval Unit)
  | n + 1, s, ctx, l, r =>
    let unsupported : Verdict Unit :=
      refuse (.conversionNotImplemented "TypedNeutral" l.kind r.kind)
    match l, r with
    | .var x, .var y => if x = y then pure () else refuse (.variableMismatch x y)
    | .app p f a x, .app q g _ y =>
      if p = q then do
        convertNeutral n s ctx f g
        convert n s ctx a x y
      else unsupported
    | .car p, .car q => convertNeutral n s ctx p q
    | .cdr p, .cdr q => convertNeutral n s ctx p q
    | .dot p j, .dot q k => if j = k then convertNeutral n s ctx p q else unsupported
    | _, _ => unsupported

end

end DependentClasses
