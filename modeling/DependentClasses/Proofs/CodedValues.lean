import DependentClasses.Proofs.Codes
import DependentClasses.Proofs.NormalForms
import DependentClasses.Proofs.Renaming

/-! The codes of terms and values. The names that a term or a value mentions are given codes, and a
definition or a fulfilled property is put in place of its name in what follows it. The code of a
value is that of the term that it was computed from, computed further. -/
namespace DependentClasses

open Code

abbrev Coding := Name → Code

namespace Coding

def under (η : Coding) (x : Name) : Coding := Function.update (fun y => (η y).shift) x (bound 0)

end Coding

mutual

def Term.code : Term → Coding → Code
  | .var x, η => η x
  | .type, _ => .atom .type
  | .pi p x a b, η => .tag (.pi p) (.join (a.code η) (.under (b.code (η.under x))))
  | .fn p x a b, η => .tag (.fn p) (.join (a.code η) (.under (b.code (η.under x))))
  | .app p f a, η => .app p (f.code η) (a.code η)
  | .sigma x a b, η => .tag .sigma (.join (a.code η) (.under (b.code (η.under x))))
  | .cons a b, η => .tag .cons (.join (a.code η) (b.code η))
  | .car a, η => .take .car (a.code η)
  | .cdr a, η => .take .cdr (a.code η)
  | .string, _ => .atom .string
  | .quote text, _ => .atom (.quote text)
  | .trivial, _ => .atom .trivial
  | .sole, _ => .atom .sole
  | .equal a l r, η => .tag .equal (.join (a.code η) (.join (l.code η) (r.code η)))
  | .same a, η => .tag .same (a.code η)
  | .emptyClass, _ => .atom .emptyClass
  | .declared k x a rest, η =>
    .tag (.declared k) (.join (a.code η) (.under (rest.code (η.under x))))
  | .fulfilled k x a v rest, η =>
    .tag (.fulfilled k)
      (.join (a.code η) (.join (v.code η) (rest.code (Function.update η x (v.code η)))))
  | .object fields, η => .tag .object (Term.codeOfFields fields η)
  | .dot a k, η => .take (.dot k) (a.code η)
  | .letIn x _ v b, η =>
    .app .explicit (.tag (.fn .explicit) (.join (.atom .type) (.under (b.code (η.under x)))))
      (v.code η)

def Term.codeOfFields : List (Name × Term) → Coding → Code
  | [], _ => .atom .noFields
  | (k, a) :: fields, η => .join (.tag (.field k) (a.code η)) (Term.codeOfFields fields η)

end

mutual

def Value.code : Value → Coding → Code
  | .neutral _ e, θ => e.code θ
  | .type, _ => .atom .type
  | .pi p a c, θ => .tag (.pi p) (.join (a.code θ) (c.code θ))
  | .fn p a c, θ => .tag (.fn p) (.join (a.code θ) (c.code θ))
  | .sigma a c, θ => .tag .sigma (.join (a.code θ) (c.code θ))
  | .cons a b, θ => .tag .cons (.join (a.code θ) (b.code θ))
  | .string, _ => .atom .string
  | .quote text, _ => .atom (.quote text)
  | .trivial, _ => .atom .trivial
  | .sole, _ => .atom .sole
  | .equal a l r, θ => .tag .equal (.join (a.code θ) (.join (l.code θ) (r.code θ)))
  | .same a, θ => .tag .same (a.code θ)
  | .classOf c, θ => c.code θ
  | .object fields, θ => .tag .object (Value.codeOfFields fields θ)

def Neutral.code : Neutral → Coding → Code
  | .var x, θ => θ x
  | .app p e _ v, θ => .app p (e.code θ) (v.code θ)
  | .car e, θ => .take .car (e.code θ)
  | .cdr e, θ => .take .cdr (e.code θ)
  | .dot e k, θ => .take (.dot k) (e.code θ)

def Chain.code : Chain → Coding → Code
  | .nil, _ => .atom .emptyClass
  | .declared k a c, θ => .tag (.declared k) (.join (a.code θ) (c.code θ))
  | .fulfilled k a v c, θ => .tag (.fulfilled k) (.join (a.code θ) (.join (v.code θ) (c.code θ)))

def Closure.code : Closure → Coding → Code
  | ⟨env, x, body⟩, θ => .under (body.code ((codeOfEntries env θ).under x))

/-- What an environment gives for names. A name that it lacks stands for itself. -/
def codeOfEntries : List (Name × Value) → Coding → Coding
  | [], _ => .free
  | (x, v) :: env, θ => Function.update (codeOfEntries env θ) x (v.code θ)

def Value.codeOfFields : List (Name × Value) → Coding → Code
  | [], _ => .atom .noFields
  | (k, a) :: fields, θ => .join (.tag (.field k) (a.code θ)) (Value.codeOfFields fields θ)

end

section Naming

/-- Names are given codes one at a time. -/
theorem comp_update_subst (η : Coding) (x : Name) (c : Code) (σ : Nat → Code) :
    (fun y => (Function.update η x c y).subst σ) =
      Function.update (fun y => (η y).subst σ) x (c.subst σ) :=
  Function.comp_update (subst σ) η x c

theorem Coding.under_subst (η : Coding) (x : Name) (σ : Nat → Code) :
    (fun y => (η.under x y).subst (lift σ)) = Coding.under (fun y => (η y).subst σ) x := by
  unfold Coding.under
  rw [comp_update_subst]
  simp only [shift_subst_lift]
  rfl

mutual

theorem Term.code_subst : (t : Term) → (η : Coding) → (σ : Nat → Code) →
    (t.code η).subst σ = t.code fun y => (η y).subst σ
  | .var x, η, σ => rfl
  | .type, _, _ | .string, _, _ | .quote _, _, _ | .trivial, _, _ | .sole, _, _
  | .emptyClass, _, _ => rfl
  | .pi _ x a b, η, σ | .fn _ x a b, η, σ | .sigma x a b, η, σ | .declared _ x a b, η, σ => by
    simp only [code, subst, code_subst a, code_subst b, Coding.under_subst]
  | .app _ a b, η, σ | .cons a b, η, σ => by simp only [code, subst, code_subst a, code_subst b]
  | .car a, η, σ | .cdr a, η, σ | .same a, η, σ | .dot a _, η, σ => by
    simp only [code, subst, code_subst a]
  | .equal a l r, η, σ => by simp only [code, subst, code_subst a, code_subst l, code_subst r]
  | .fulfilled _ x a v rest, η, σ => by
    simp only [code, subst, code_subst a, code_subst v, code_subst rest, comp_update_subst]
  | .object fields, η, σ => by simp only [code, subst, codeOfFields_subst fields]
  | .letIn x _ v b, η, σ => by
    simp only [code, subst, code_subst v, code_subst b, Coding.under_subst]

theorem Term.codeOfFields_subst : (fields : List (Name × Term)) → (η : Coding) → (σ : Nat → Code) →
    (codeOfFields fields η).subst σ = codeOfFields fields fun y => (η y).subst σ
  | [], _, _ => rfl
  | (_, a) :: fields, η, σ => by
    simp only [codeOfFields, subst, code_subst a, codeOfFields_subst fields]

end

mutual

theorem Value.code_subst : (v : Value) → (θ : Coding) → (σ : Nat → Code) →
    (v.code θ).subst σ = v.code fun y => (θ y).subst σ
  | .neutral _ e, θ, σ => by simp only [Value.code, Neutral.code_subst e]
  | .type, _, _ | .string, _, _ | .quote _, _, _ | .trivial, _, _ | .sole, _, _ => rfl
  | .pi _ a c, θ, σ | .fn _ a c, θ, σ | .sigma a c, θ, σ => by
    simp only [Value.code, subst, Value.code_subst a, Closure.code_subst c]
  | .cons a b, θ, σ => by simp only [Value.code, subst, Value.code_subst a, Value.code_subst b]
  | .equal a l r, θ, σ =>
    by simp only [Value.code, subst, Value.code_subst a, Value.code_subst l, Value.code_subst r]
  | .same a, θ, σ => by simp only [Value.code, subst, Value.code_subst a]
  | .classOf c, θ, σ => by simp only [Value.code, Chain.code_subst c]
  | .object fields, θ, σ => by simp only [Value.code, subst, Value.codeOfFields_subst fields]

theorem Neutral.code_subst : (e : Neutral) → (θ : Coding) → (σ : Nat → Code) →
    (e.code θ).subst σ = e.code fun y => (θ y).subst σ
  | .var x, θ, σ => rfl
  | .app _ e _ v, θ, σ =>
    by simp only [Neutral.code, subst, Neutral.code_subst e, Value.code_subst v]
  | .car e, θ, σ | .cdr e, θ, σ | .dot e _, θ, σ =>
    by simp only [Neutral.code, subst, Neutral.code_subst e]

theorem Chain.code_subst : (c : Chain) → (θ : Coding) → (σ : Nat → Code) →
    (c.code θ).subst σ = c.code fun y => (θ y).subst σ
  | .nil, _, _ => rfl
  | .declared _ a c, θ, σ => by
    simp only [Chain.code, subst, Value.code_subst a, Closure.code_subst c]
  | .fulfilled _ a v c, θ, σ => by
    simp only [Chain.code, subst, Value.code_subst a, Value.code_subst v, Chain.code_subst c]

theorem Closure.code_subst : (c : Closure) → (θ : Coding) → (σ : Nat → Code) →
    (c.code θ).subst σ = c.code fun y => (θ y).subst σ
  | ⟨env, x, body⟩, θ, σ => by
    simp only [Closure.code, subst, Term.code_subst, Coding.under_subst, codeOfEntries_subst env]

theorem codeOfEntries_subst : (env : List (Name × Value)) → (θ : Coding) → (σ : Nat → Code) →
    (fun y => (codeOfEntries env θ y).subst σ) = codeOfEntries env fun y => (θ y).subst σ
  | [], _, _ => rfl
  | (x, v) :: env, θ, σ => by
    simp only [codeOfEntries, comp_update_subst, codeOfEntries_subst env, Value.code_subst v]

theorem Value.codeOfFields_subst : (fields : List (Name × Value)) → (θ : Coding) →
    (σ : Nat → Code) → (Value.codeOfFields fields θ).subst σ = Value.codeOfFields fields
      fun y => (θ y).subst σ
  | [], _, _ => rfl
  | (_, a) :: fields, θ, σ => by
    simp only [Value.codeOfFields, subst, Value.code_subst a, Value.codeOfFields_subst fields]

end

end Naming

section Environments

theorem codeOfEntries_eq (env : Environment) (θ : Coding) (y : Name) :
    codeOfEntries env θ y = ((env.lookup y).map fun v => v.code θ).getD (free y) := by
  induction env with
  | nil => rfl
  | cons f env ih =>
    obtain ⟨x, w⟩ := f
    rw [codeOfEntries, Function.update_apply, lookup_cons_ite]
    split
    · rfl
    · exact ih

/-- A scope is opened by what the name of its binder stands for. -/
theorem Coding.inst_under (t : Term) (η : Coding) (x : Name) (a : Code) :
    (t.code (η.under x)).inst a = t.code (Function.update η x a) := by
  rw [inst, Term.code_subst, Coding.under, comp_update_subst]
  simp only [shift_subst_single]
  rfl

theorem Value.field_codeOfFields {fields : List (Name × Value)} {k : Name} {a : Value} (θ : Coding)
    (h : fields.lookup k = some a) : (codeOfFields fields θ).field k = some (a.code θ) := by
  induction fields with
  | nil => cases h
  | cons f fields ih =>
    obtain ⟨j, b⟩ := f
    rw [lookup_cons_ite] at h
    rw [codeOfFields, field]
    split at h
    · next heq =>
      cases h
      rw [if_pos heq]
    · next hne => rw [if_neg hne, ih h]

end Environments

/-- Classes fulfil only properties with a label in `F`. -/
def Part.FulfilledIn (F : Name → Prop) : Part → Prop
  | .fulfilled k _ => F k
  | _ => True

/-- A property that is known whatever the object has a label in `F`. -/
theorem Chain.fulfilled_of_find {F : Name → Prop} {n : Nat} {c : Chain} {v a w : Value} {k : Name}
    (h : c.find n v k = .ok (some (a, some w))) (hc : c.All (Part.FulfilledIn F))
    (hv : v.All (Part.FulfilledIn F)) : F k := by
  induction n generalizing c with
  | zero => simp [find] at h
  | succ n ih =>
    unfold find at h
    split at h
    · simp at h
    · obtain ⟨-, -, -, hrest⟩ := all_declared.1 hc
      split at h
      · simp at h
      · simp only [Eval.bind_eq_ok] at h
        obtain ⟨u, hu, r, hr, d, hd, h⟩ := h
        have hu := (AddsNoParts.all _ n).dot hu hv
        exact ih h (Value.chain_all hd ((AddsNoParts.all _ n).eval hr (hrest.bind hu)))
    · obtain ⟨hk, -, -, hrest⟩ := all_fulfilled.1 hc
      split at h
      · next heq => exact heq ▸ hk
      · exact ih h hrest

def Meanings.Avoid (F : Name → Prop) (D : Meanings) : Prop := ∀ x c, D.of x = some c → c.Avoids F

/-- Computation to the depth `n` computes codes, where only properties with a label in `F` are
fulfilled and only others are selected. -/
structure ComputesCodes (F : Name → Prop) (D : Meanings) (n : Nat) : Prop where
  eval {env : Environment} {t : Term} {v : Value} {θ : Coding} :
    eval n env t = .ok v → Environment.All (Part.FulfilledIn F) env t →
      (t.code (codeOfEntries env θ)).Avoids F → Reduces D (t.code (codeOfEntries env θ)) (v.code θ)
  chain {env : Environment} {t : Term} {c : Chain} {θ : Coding} :
    evalChain n env t = .ok c → Environment.All (Part.FulfilledIn F) env t →
      (t.code (codeOfEntries env θ)).Avoids F → Reduces D (t.code (codeOfEntries env θ)) (c.code θ)
  app {p : Plicity} {f a v : Value} {θ : Coding} : f.app n p a = .ok v →
    f.All (Part.FulfilledIn F) → a.All (Part.FulfilledIn F) → (f.code θ).Avoids F →
      (a.code θ).Avoids F → Reduces D (.app p (f.code θ) (a.code θ)) (v.code θ)

theorem Value.car_reduces {D : Meanings} {v w : Value} (h : v.car = .ok w) (θ : Coding) :
    Reduces D (.take .car (v.code θ)) (w.code θ) := by
  unfold Value.car at h
  split at h
  · rw [Eval.pure_eq_ok] at h
    subst h
    exact .pick rfl
  · rw [Eval.pure_eq_ok] at h
    subst h
    exact .refl _
  · simp at h
  · simp at h

theorem Value.cdr_reduces {D : Meanings} {n : Nat} {v w : Value}
    (h : v.cdr n = .ok w) (θ : Coding) :
    Reduces D (.take .cdr (v.code θ)) (w.code θ) := by
  cases n with
  | zero => simp [Value.cdr] at h
  | succ n =>
    unfold Value.cdr at h
    split at h
    · rw [Eval.pure_eq_ok] at h
      subst h
      exact .pick rfl
    · simp only [Eval.bind_eq_ok, Eval.pure_eq_ok] at h
      obtain ⟨b, -, rfl⟩ := h
      exact .refl _
    · simp at h
    · simp at h

theorem Value.dot_reduces {F : Name → Prop} {D : Meanings} {n : Nat} {v w : Value} {k : Name}
    (h : v.dot n k = .ok w) (hk : ¬ F k) (hv : v.All (Part.FulfilledIn F)) (θ : Coding) :
    Reduces D (.take (.dot k) (v.code θ)) (w.code θ) := by
  cases n with
  | zero => simp [Value.dot] at h
  | succ n =>
    unfold Value.dot at h
    split at h
    · split at h
      · next fields a ha =>
        rw [Eval.pure_eq_ok] at h
        subst h
        exact .pick (field_codeOfFields θ ha)
      · simp at h
    · simp only [Eval.bind_eq_ok] at h
      obtain ⟨found, hfound, h⟩ := h
      split at h
      · exact absurd (Chain.fulfilled_of_find hfound (all_classOf.1 (all_neutral.1 hv).1) hv) hk
      · rw [Eval.pure_eq_ok] at h
        subst h
        exact .refl _
      · simp at h
    · simp at h
    · simp at h

namespace ComputesCodes

variable {F : Name → Prop} {D : Meanings} {n : Nat} {env : Environment} {θ : Coding}

theorem app_succ (ih : ComputesCodes F D n) {p : Plicity} {f a v : Value}
    (h : f.app (n + 1) p a = .ok v) (hf : f.All (Part.FulfilledIn F))
    (ha : a.All (Part.FulfilledIn F)) (hfcode : (f.code θ).Avoids F)
    (hacode : (a.code θ).Avoids F) :
    Reduces D (.app p (f.code θ) (a.code θ)) (v.code θ) := by
  unfold Value.app at h
  split at h
  · next q b c =>
    split at h
    · next heq =>
      subst heq
      obtain ⟨kept, x, body⟩ := c
      have hbody : (body.code ((codeOfEntries kept θ).under x)).Avoids F := hfcode.2
      have hopened := hbody.inst hacode
      rw [Coding.inst_under] at hopened
      refine .trans ?_ (ih.eval h ((Value.all_fn.1 hf).2.bind ha) hopened)
      exact Coding.inst_under body _ x (a.code θ) ▸ .beta
    · simp at h
  · split at h
    · simp only [Eval.bind_eq_ok, Eval.pure_eq_ok] at h
      obtain ⟨b, -, rfl⟩ := h
      exact .refl _
    · simp at h
  · simp at h
  · simp at h

theorem fields (ih : ComputesCodes F D n) {fields : List (Name × Term)}
    {fs : List (Name × Value)} (h : (fields.mapM fun (label, a) => do
      let a ← DependentClasses.eval n env a
      pure (label, a)) = Except.ok fs)
    (he : ∀ f ∈ fields, Environment.All (Part.FulfilledIn F) env f.2)
    (hcode : (Term.codeOfFields fields (codeOfEntries env θ)).Avoids F) :
    Reduces D (Term.codeOfFields fields (codeOfEntries env θ)) (Value.codeOfFields fs θ) := by
  induction fields generalizing fs with
  | nil =>
    cases h
    exact .refl _
  | cons f fields ihf =>
    obtain ⟨k, a⟩ := f
    simp only [List.mapM_cons, Eval.bind_eq_ok, Eval.pure_eq_ok] at h
    obtain ⟨_, ⟨w, hw, rfl⟩, gs, hgs, rfl⟩ := h
    have hvalue := ih.eval hw (he (k, a) List.mem_cons_self) hcode.1
    exact .join (.tag _ hvalue) (ihf hgs (fun f hf => he f (List.mem_cons_of_mem _ hf)) hcode.2)

theorem eval_succ (ih : ComputesCodes F D n) (hD : D.Avoid F) {t : Term} {v : Value}
    (h : DependentClasses.eval (n + 1) env t = .ok v)
    (he : Environment.All (Part.FulfilledIn F) env t)
    (hcode : (t.code (codeOfEntries env θ)).Avoids F) :
    Reduces D (t.code (codeOfEntries env θ)) (v.code θ) := by
  unfold DependentClasses.eval at h
  cases t with
  | var x =>
    cases hx : env.lookup x with
    | none => simp [hx] at h
    | some w =>
      simp only [hx, Eval.pure_eq_ok] at h
      subst h
      rw [Term.code, codeOfEntries_eq, hx]
      exact .refl _
  | type | string | trivial | sole | quote s =>
    simp only [Eval.pure_eq_ok] at h
    subst h
    exact .refl _
  | pi p x a b =>
    simp only [Eval.bind_eq_ok, Eval.pure_eq_ok] at h
    obtain ⟨w, hw, rfl⟩ := h
    exact .tag _ (.join (ih.eval hw he.pi.1 hcode.1) (.refl _))
  | fn p x a b =>
    simp only [Eval.bind_eq_ok, Eval.pure_eq_ok] at h
    obtain ⟨w, hw, rfl⟩ := h
    exact .tag _ (.join (ih.eval hw he.fn.1 hcode.1) (.refl _))
  | app p f a =>
    simp only [Eval.bind_eq_ok] at h
    obtain ⟨g, hg, w, hw, h⟩ := h
    have hf := ih.eval hg he.app.1 hcode.1
    have ha := ih.eval hw he.app.2 hcode.2
    have hparts := AddsNoParts.all (Part.FulfilledIn F) n
    exact (hf.app p ha).trans (ih.app h (hparts.eval hg he.app.1) (hparts.eval hw he.app.2)
      (hf.avoids hD hcode.1) (ha.avoids hD hcode.2))
  | sigma x a b =>
    simp only [Eval.bind_eq_ok, Eval.pure_eq_ok] at h
    obtain ⟨w, hw, rfl⟩ := h
    exact .tag _ (.join (ih.eval hw he.sigma.1 hcode.1) (.refl _))
  | cons a b =>
    simp only [Eval.bind_eq_ok, Eval.pure_eq_ok] at h
    obtain ⟨w, hw, u, hu, rfl⟩ := h
    exact .tag _ (.join (ih.eval hw he.cons.1 hcode.1) (ih.eval hu he.cons.2 hcode.2))
  | car a =>
    simp only [Eval.bind_eq_ok] at h
    obtain ⟨w, hw, h⟩ := h
    exact (Reduces.take _ (ih.eval hw he.car hcode)).trans (Value.car_reduces h θ)
  | cdr a =>
    simp only [Eval.bind_eq_ok] at h
    obtain ⟨w, hw, h⟩ := h
    exact (Reduces.take _ (ih.eval hw he.cdr hcode)).trans (Value.cdr_reduces h θ)
  | equal a l r =>
    simp only [Eval.bind_eq_ok, Eval.pure_eq_ok] at h
    obtain ⟨w, hw, x, hx, y, hy, rfl⟩ := h
    obtain ⟨ha, hl, hr⟩ := he.equal
    exact .tag _ (.join (ih.eval hw ha hcode.1)
      (.join (ih.eval hx hl hcode.2.1) (ih.eval hy hr hcode.2.2)))
  | same a =>
    simp only [Eval.bind_eq_ok, Eval.pure_eq_ok] at h
    obtain ⟨w, hw, rfl⟩ := h
    exact .tag _ (ih.eval hw he.same hcode)
  | emptyClass | declared | fulfilled =>
    simp only [Eval.bind_eq_ok, Eval.pure_eq_ok] at h
    obtain ⟨c, hc, rfl⟩ := h
    exact ih.chain hc he hcode
  | object fields =>
    simp only [Eval.bind_eq_ok, Eval.pure_eq_ok] at h
    obtain ⟨fs, hfs, rfl⟩ := h
    exact .tag _ (ih.fields hfs he.object.2 hcode)
  | dot a k =>
    simp only [Eval.bind_eq_ok] at h
    obtain ⟨w, hw, h⟩ := h
    have htarget := (AddsNoParts.all (Part.FulfilledIn F) n).eval hw he.dot
    exact (Reduces.take _ (ih.eval hw he.dot hcode.2)).trans (Value.dot_reduces h hcode.1 htarget θ)
  | letIn x t a b =>
    simp only [Eval.bind_eq_ok] at h
    obtain ⟨w, hw, h⟩ := h
    obtain ⟨⟨-, hbody⟩, harg⟩ := hcode
    have ha := ih.eval hw he.letIn.1 harg
    have hw := (AddsNoParts.all (Part.FulfilledIn F) n).eval hw he.letIn.1
    have hopened := (show (b.code _).Avoids F from hbody).inst (ha.avoids hD harg)
    rw [Coding.inst_under] at hopened
    refine .trans (.app _ (.refl _) ha) (.trans .beta ?_)
    rw [Coding.inst_under]
    exact ih.eval h (he.letIn.2.bind hw) hopened

theorem chain_succ (ih : ComputesCodes F D n) (hD : D.Avoid F) {t : Term} {c : Chain}
    (h : evalChain (n + 1) env t = .ok c) (he : Environment.All (Part.FulfilledIn F) env t)
    (hcode : (t.code (codeOfEntries env θ)).Avoids F) :
    Reduces D (t.code (codeOfEntries env θ)) (c.code θ) := by
  unfold evalChain at h
  split at h
  · rw [Eval.pure_eq_ok] at h
    subst h
    exact .refl _
  · simp only [Eval.bind_eq_ok, Eval.pure_eq_ok] at h
    obtain ⟨a, ha, rfl⟩ := h
    exact .tag _ (.join (ih.eval ha he.declared.2.2.1 hcode.1) (.refl _))
  · next k x t u rest =>
    simp only [Eval.bind_eq_ok, Eval.pure_eq_ok] at h
    obtain ⟨v, hv, a, ha, d, hd, rfl⟩ := h
    obtain ⟨-, ht, hu, hrest⟩ := he.fulfilled
    obtain ⟨hcodeType, hcodeValue, hcodeRest⟩ := hcode
    have hvalue := ih.eval hv hu hcodeValue
    have hv := (AddsNoParts.all (Part.FulfilledIn F) n).eval hv hu
    -- what stands for the name in the rest is computed first
    have hstart :
        Reduces D (rest.code
        (Function.update (codeOfEntries env θ) x (u.code (codeOfEntries env θ))))
        (rest.code (codeOfEntries ((x, v) :: env) θ)) := by
      rw [codeOfEntries, ← Coding.inst_under, ← Coding.inst_under]
      exact hvalue.map fun _ _ h => Par.inst (.refl D _) h
    have hend := ih.chain hd (hrest.bind hv) (hstart.avoids hD hcodeRest)
    exact .tag _ (.join (ih.eval ha ht hcodeType) (.join hvalue (hstart.trans hend)))
  · simp at h

theorem all (hD : D.Avoid F) (n : Nat) : ComputesCodes F D n := by
  induction n with
  | zero =>
    constructor <;> intros <;> simp_all [DependentClasses.eval, evalChain, Value.app]
  | succ n ih => exact ⟨ih.eval_succ hD, ih.chain_succ hD, ih.app_succ⟩

end ComputesCodes

end DependentClasses
