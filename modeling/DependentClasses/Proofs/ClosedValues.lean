import DependentClasses.Proofs.Endings
import DependentClasses.Proofs.Reachability
import DependentClasses.Proofs.WellFormed

/-! Evaluation and scope. A computation reaches nothing that could not be reached from what it
starts from, so the only names that it can find missing are those that a closure keeps no value
for. Where every closure keeps a value for every name that its body asks for, no name is missing,
whichever closures are opened on the way. -/
namespace DependentClasses

/-- The fault is one that parts as `P` says can lead to. Only a name without a value and a class
that goes on with something else are parts. -/
def Fault.Within (P : Part → Prop) : Fault → Prop
  | .unboundVariable y => P (.missing y)
  | .brokenChain => ∃ t : Term, ¬ t.IsClass ∧ P (.rest t)
  | _ => True

section

variable {P : Part → Prop} {n : Nat}

theorem Value.car_within {v : Value} (hv : v.Every P) :
    v.car.Ends (Fault.Within P) (Value.Every P) := by
  unfold Value.car
  split
  · exact .pure (Value.every_cons.1 hv).1
  · obtain ⟨hsigma, hs⟩ := Value.every_neutral.1 hv
    exact .pure (Value.every_neutral.2 ⟨(Value.every_sigma.1 hsigma).1, Neutral.every_car.2 hs⟩)
  · exact .fault True.intro
  · exact .fault True.intro

/-- Computations to the depth `n` reach only parts as `P` says, and so do their faults. -/
structure EvaluatesWithin (P : Part → Prop) (n : Nat) : Prop where
  eval {env : Environment} {t : Term} : env.Every P → Environment.All P env t →
    (eval n env t).Ends (Fault.Within P) (Value.Every P)
  chain {env : Environment} {t : Term} : env.Every P → Environment.All P env t →
    t.IsClass ∨ P (.rest t) → (evalChain n env t).Ends (Fault.Within P) (Chain.Every P)
  app {p : Plicity} {f v : Value} : f.Every P → v.Every P →
    (f.app n p v).Ends (Fault.Within P) (Value.Every P)
  cdr {v : Value} : v.Every P → (v.cdr n).Ends (Fault.Within P) (Value.Every P)
  dot {v : Value} {label : Name} : v.Every P → (v.dot n label).Ends (Fault.Within P) (Value.Every P)
  find {c : Chain} {v : Value} {label : Name} : c.Every P → v.Every P →
    (c.find n v label).Ends (Fault.Within P) fun r => ∀ f ∈ r, f.1.Every P ∧ ∀ w ∈ f.2, w.Every P

namespace EvaluatesWithin

theorem apply (h : EvaluatesWithin P n) {c : Closure} {v : Value} (hc : c.Every P)
    (hv : v.Every P) :
    (c.apply n v).Ends (Fault.Within P) (Value.Every P) :=
  h.eval (hc.bind hv).1 (hc.bind hv).2

/-- What a class goes on with is found broken only if it is not written as a class. -/
theorem apply_rest (h : EvaluatesWithin P n) {c : Closure} {v : Value} (hrest : P (.rest c.body))
    (hc : c.Every P) (hv : v.Every P) :
    (c.apply n v).Ends (Fault.Within P) fun r => r.chain.Ends (Fault.Within P) (Chain.Every P) := by
  refine ((h.apply hc hv).and_of_ok fun r hr hclass => exists_chain_of_eval hclass hr).mono ?_
  rintro r ⟨hr, hclass⟩
  unfold Value.chain
  split
  · exact .pure (Value.every_classOf.1 hr)
  · next hne =>
    refine .fault ⟨c.body, fun hbody => ?_, hrest⟩
    obtain ⟨d, hd, -⟩ := hclass hbody
    exact hne d hd

theorem applyChain (h : EvaluatesWithin P n) {c : Closure} {v : Value} (hrest : P (.rest c.body))
    (hc : c.Every P) (hv : v.Every P) : (c.applyChain n v).Ends (Fault.Within P) (Chain.Every P) :=
  .bind (h.apply_rest hrest hc hv) fun _ hr => hr

theorem zero (P : Part → Prop) : EvaluatesWithin P 0 where
  eval _ _ := by rw [DependentClasses.eval]; exact .outOfFuel
  chain _ _ _ := by rw [evalChain]; exact .outOfFuel
  app _ _ := by rw [Value.app]; exact .outOfFuel
  cdr _ := by rw [Value.cdr]; exact .outOfFuel
  dot _ := by rw [Value.dot]; exact .outOfFuel
  find _ _ := by rw [Chain.find]; exact .outOfFuel

theorem eval_succ (ih : EvaluatesWithin P n) {env : Environment} {t : Term} (henv : env.Every P)
    (ht : Environment.All P env t) :
    (DependentClasses.eval (n + 1) env t).Ends (Fault.Within P) (Value.Every P) := by
  have hclass (hc : t.IsClass) : Eval.Ends (Fault.Within P)
      (do let c ← evalChain n env t; pure (Value.classOf c)) (Value.Every P) :=
    .bind (ih.chain henv ht (.inl hc)) fun c hc => .pure (Value.every_classOf.2 hc)
  unfold DependentClasses.eval
  cases t with
  | var x =>
    -- Only here is a name looked up, and only here can it be found missing.
    dsimp only
    cases hx : env.lookup x with
    | none => exact .fault (ht.missing x (by simp) hx)
    | some v => exact .pure (henv x v hx)
  | type => exact .pure Value.every_type
  | pi p x a b =>
    refine .bind (ih.eval henv ht.pi.1) fun a ha => .pure ?_
    exact Value.every_pi.2 ⟨ha, Closure.every_iff_all.2 ⟨henv, ht.pi.2⟩⟩
  | fn p x a b =>
    refine .bind (ih.eval henv ht.fn.1) fun a ha => .pure ?_
    exact Value.every_fn.2 ⟨ha, Closure.every_iff_all.2 ⟨henv, ht.fn.2⟩⟩
  | app p f a =>
    exact .bind (ih.eval henv ht.app.1) fun f hf =>
      .bind (ih.eval henv ht.app.2) fun a ha => ih.app hf ha
  | sigma x a b =>
    refine .bind (ih.eval henv ht.sigma.1) fun a ha => .pure ?_
    exact Value.every_sigma.2 ⟨ha, Closure.every_iff_all.2 ⟨henv, ht.sigma.2⟩⟩
  | cons a b =>
    refine .bind (ih.eval henv ht.cons.1) fun a ha => .bind (ih.eval henv ht.cons.2) fun b hb => ?_
    exact .pure (Value.every_cons.2 ⟨ha, hb⟩)
  | car a => exact .bind (ih.eval henv ht.car) fun a ha => Value.car_within ha
  | cdr a => exact .bind (ih.eval henv ht.cdr) fun a ha => ih.cdr ha
  | string => exact .pure Value.every_string
  | quote text => exact .pure (Value.every_quote text)
  | trivial => exact .pure Value.every_trivial
  | sole => exact .pure Value.every_sole
  | equal a l r =>
    obtain ⟨ha, hl, hr⟩ := ht.equal
    refine .bind (ih.eval henv ha) fun a ha => .bind (ih.eval henv hl) fun l hl => ?_
    exact .bind (ih.eval henv hr) fun r hr => .pure (Value.every_equal.2 ⟨ha, hl, hr⟩)
  | same a => exact .bind (ih.eval henv ht.same) fun a ha => .pure (Value.every_same.2 ha)
  | emptyClass | declared | fulfilled => exact hclass True.intro
  | object fields =>
    obtain ⟨hlabels, hfields⟩ := ht.object
    refine .bind ((Eval.Ends.mapM (S := fun g => g.2.Every P) fun f hf => ?_).and_of_ok fun _ =>
      Eval.mapM_fields) fun fs hfs => ?_
    · exact .bind (ih.eval henv (hfields f hf)) fun a ha => .pure ha
    · exact .pure (Value.every_object.2 ⟨hfs.2.1 ▸ hlabels, hfs.1⟩)
  | dot a k => exact .bind (ih.eval henv ht.dot) fun a ha => ih.dot ha
  | letIn x a v b =>
    -- A local definition is a closure that is opened at once.
    refine .bind (ih.eval henv ht.letIn.1) fun v hv => ?_
    obtain ⟨henv, hbody⟩ := (Closure.every_iff_all.2 ⟨henv, ht.letIn.2⟩).bind hv
    exact ih.eval henv hbody

theorem chain_succ (ih : EvaluatesWithin P n) {env : Environment} {t : Term} (henv : env.Every P)
    (ht : Environment.All P env t) (hclass : t.IsClass ∨ P (.rest t)) :
    (evalChain (n + 1) env t).Ends (Fault.Within P) (Chain.Every P) := by
  unfold evalChain
  cases t with
  | emptyClass => exact .pure Chain.every_nil
  | declared k x a b =>
    obtain ⟨hlabels, hrest, ha, hb⟩ := ht.declared
    refine .bind (ih.eval henv ha) fun a ha => .pure ?_
    exact Chain.every_declared.2 ⟨hlabels, hrest, ha, Closure.every_iff_all.2 ⟨henv, hb⟩⟩
  | fulfilled k x a v b =>
    obtain ⟨hlabels, ha, hv, hb⟩ := ht.fulfilled
    have hrest := (Term.all_fulfilled.1 ht.term).2.1
    refine .bind (ih.eval henv hv) fun v hv => .bind (ih.eval henv ha) fun a ha => ?_
    obtain ⟨henv, hbody⟩ := (Closure.every_iff_all.2 ⟨henv, hb⟩).bind hv
    refine .bind ((ih.chain henv hbody (.inr hrest)).and_of_ok fun c => evalChain_classLabels)
      fun c hc => .pure ?_
    exact Chain.every_fulfilled.2 ⟨hc.2 ▸ hlabels, ha, hv, hc.1⟩
  | _ => exact .fault (hclass.elim False.elim fun hrest => ⟨_, id, hrest⟩)

theorem app_succ (ih : EvaluatesWithin P n) {p : Plicity} {f v : Value} (hf : f.Every P)
    (hv : v.Every P) :
    (f.app (n + 1) p v).Ends (Fault.Within P) (Value.Every P) := by
  unfold Value.app
  split
  · split
    · exact ih.apply (Value.every_fn.1 hf).2 hv
    · exact .fault True.intro
  · split
    · obtain ⟨hpi, hs⟩ := Value.every_neutral.1 hf
      obtain ⟨ha, hb⟩ := Value.every_pi.1 hpi
      refine .bind (ih.apply hb hv) fun b hb => .pure ?_
      exact Value.every_neutral.2 ⟨hb, Neutral.every_app.2 ⟨hs, ha, hv⟩⟩
    · exact .fault True.intro
  · exact .fault True.intro
  · exact .fault True.intro

theorem cdr_succ (ih : EvaluatesWithin P n) {v : Value} (hv : v.Every P) :
    (v.cdr (n + 1)).Ends (Fault.Within P) (Value.Every P) := by
  unfold Value.cdr
  split
  · exact .pure (Value.every_cons.1 hv).2
  · obtain ⟨hsigma, hs⟩ := Value.every_neutral.1 hv
    obtain ⟨ha, hb⟩ := Value.every_sigma.1 hsigma
    refine .bind (ih.apply hb (Value.every_neutral.2 ⟨ha, Neutral.every_car.2 hs⟩))
      fun b hb => .pure ?_
    exact Value.every_neutral.2 ⟨hb, Neutral.every_cdr.2 hs⟩
  · exact .fault True.intro
  · exact .fault True.intro

theorem dot_succ (ih : EvaluatesWithin P n) {v : Value} {label : Name} (hv : v.Every P) :
    (v.dot (n + 1) label).Ends (Fault.Within P) (Value.Every P) := by
  unfold Value.dot
  split
  · split
    · next hl => exact .pure ((Value.every_object.1 hv).2 _ (mem_of_lookup hl))
    · exact .fault True.intro
  · obtain ⟨hclass, hs⟩ := Value.every_neutral.1 hv
    refine .bind (ih.find (Value.every_classOf.1 hclass) hv) fun r hr => ?_
    rcases r with _ | ⟨a, _ | w⟩
    · exact .fault True.intro
    · exact .pure (Value.every_neutral.2 ⟨(hr _ rfl).1, Neutral.every_dot.2 hs⟩)
    · exact .pure ((hr _ rfl).2 _ rfl)
  · exact .fault True.intro
  · exact .fault True.intro

theorem find_succ (ih : EvaluatesWithin P n) {c : Chain} {v : Value} {label : Name} (hc : c.Every P)
    (hv : v.Every P) :
    (c.find (n + 1) v label).Ends (Fault.Within P) fun r => ∀ f ∈ r, f.1.Every P ∧
      ∀ w ∈ f.2, w.Every P := by
  unfold Chain.find
  split
  · exact .pure (by simp)
  · next k a rest =>
    obtain ⟨-, hrest, ha, hd⟩ := Chain.every_declared.1 hc
    split
    · exact .pure (by simpa using ha)
    · -- The later properties depend on this one, so the object is asked for it on the way.
      refine .bind (ih.dot hv) fun w hw => ?_
      exact .bind (ih.apply_rest hrest hd hw) fun r hr => .bind hr fun d hd => ih.find hd hv
  · obtain ⟨-, ha, hw, hd⟩ := Chain.every_fulfilled.1 hc
    split
    · exact .pure (by simpa using ⟨ha, hw⟩)
    · exact ih.find hd hv

theorem all (P : Part → Prop) (n : Nat) : EvaluatesWithin P n := by
  induction n with
  | zero => exact zero P
  | succ n ih =>
    exact ⟨ih.eval_succ, ih.chain_succ, ih.app_succ, ih.cdr_succ, ih.dot_succ, ih.find_succ⟩

end EvaluatesWithin

theorem Chain.typeOf_within (n : Nat) {c : Chain} {v : Value} (hc : c.Every P) (hv : v.Every P)
    (label : Name) :
    (c.typeOf n v label).Ends (Fault.Within P) fun r => ∀ a ∈ r, a.Every P := by
  refine .bind ((EvaluatesWithin.all P n).find hc hv) fun found hfound => .pure fun a ha => ?_
  obtain ⟨f, hf, rfl⟩ := Option.map_eq_some_iff.1 ha
  exact (hfound f hf).1

/-- On the way along a class an unfulfilled property stands for itself. -/
theorem Chain.labels_within (n : Nat) (hname : ∀ x, P (.name x)) {c : Chain} (hc : c.Every P) :
    (c.labels n).Ends (Fault.Within P) fun _ => True := by
  induction n generalizing c with
  | zero => rw [labels]; exact .outOfFuel
  | succ n ih =>
    cases c with
    | nil => rw [labels]; exact .pure True.intro
    | declared k a rest =>
      obtain ⟨-, hrest, ha, hd⟩ := every_declared.1 hc
      rw [labels]
      refine .bind
        ((EvaluatesWithin.all P n).applyChain hrest hd
        (Value.every_variable.2 ⟨ha, hname _⟩)) fun c hc => ?_
      exact .bind (ih hc) fun more _ => .pure True.intro
    | fulfilled k a v rest =>
      rw [labels]
      exact .bind (ih (every_fulfilled.1 hc).2.2.2) fun more _ => .pure True.intro

end

/-- A closure has a value for every name that its body asks for. -/
def Closure.Covered (c : Closure) : Prop :=
  ∀ y ∈ c.body.freeNames, y ≠ c.x → (c.env.lookup y).isSome

/-- Every closure that can be reached has a value for every name that its body asks for. -/
def Item.Closed (i : Item) : Prop := ∀ c, i.Reaches (.closure c) → c.Covered

def Value.Closed (v : Value) : Prop := Item.Closed (.value v)

def Chain.Closed (c : Chain) : Prop := Item.Closed (.chain c)

def Closure.Closed (c : Closure) : Prop := Item.Closed (.closure c)

def Environment.Closed (env : Environment) : Prop := ∀ y w, env.lookup y = some w → w.Closed

/-- The fault is another one than that a name has no value. -/
def Fault.InScope (cause : Fault) : Prop := ∀ y, cause ≠ .unboundVariable y

def Part.Present (q : Part) : Prop := ∀ y, q ≠ .missing y

theorem Term.all_present (t : Term) : t.All Part.Present :=
  t.all_of_written (fun _ _ => nofun) (fun _ _ _ => nofun) (fun _ _ => nofun) fun _ _ => nofun

theorem Item.every_present_iff {i : Item} : i.Every Part.Present ↔ i.Closed := by
  constructor
  · intro h c hc y hy hne
    by_contra hnone
    exact h _ hc _ (.inr ⟨y, hy, hne, Option.not_isSome_iff_eq_none.1 hnone, rfl⟩) y rfl
  · rintro h j hj q hq y rfl
    match j, hj, hq with
    | .value (.object _), _, hq => cases hq
    | .spine (.var _), _, hq => cases hq
    | .chain (.declared ..), _, hq => rcases hq with hq | hq <;> cases hq
    | .chain (.fulfilled ..), _, hq => cases hq
    | .closure c, hj, .inl hq => exact c.body.all_present _ hq y rfl
    | .closure c, hj, .inr ⟨z, hz, hne, hnone, heq⟩ =>
      have hsome := h c hj z hz hne
      rw [hnone] at hsome
      cases hsome

theorem Fault.Within.inScope {cause : Fault} (h : cause.Within Part.Present) : cause.InScope := by
  rintro y rfl
  exact h y rfl

/-- With closed values all around, a computation never finds a name missing, and what it finds is
closed. -/
theorem Eval.Ends.inScope {α : Type} {x : Eval α} {Q R : α → Prop}
    (h : x.Ends (Fault.Within Part.Present) Q) (hQR : ∀ a, Q a → R a) : x.Ends Fault.InScope R :=
  h.imp (fun _ => Fault.Within.inScope) hQR

theorem Environment.Closed.every {env : Environment} (h : env.Closed) : env.Every Part.Present :=
  fun y w hw => Item.every_present_iff.2 (h y w hw)

theorem Environment.Closed.all {env : Environment} (h : env.Closed) {t : Term}
    (ht : ∀ y ∈ t.freeNames, (env.lookup y).isSome) : Environment.All Part.Present env t where
  term := t.all_present
  kept y _ w hw := (h.every y w hw).all
  missing y hy hnone := by
    have hsome := ht y hy
    rw [hnone] at hsome
    cases hsome

/-- Evaluation is scope-safe, at any depth: a term whose free names have closed values is computed
without finding a name missing, and its value is closed. So are the closures that are opened,
functions of both plicities that are applied, and what is taken from pairs, objects and classes. -/
theorem evaluation_is_scope_safe (n : Nat) :
    (∀ env t, Environment.Closed env → (∀ y ∈ t.freeNames, (env.lookup y).isSome) →
      (eval n env t).Ends Fault.InScope Value.Closed ∧
      (evalChain n env t).Ends Fault.InScope Chain.Closed) ∧
    (∀ c v, Closure.Closed c → Value.Closed v →
      (c.apply n v).Ends Fault.InScope Value.Closed ∧
      (c.applyChain n v).Ends Fault.InScope Chain.Closed) ∧
    (∀ p f v, Value.Closed f → Value.Closed v → (f.app n p v).Ends Fault.InScope Value.Closed) ∧
    (∀ v, Value.Closed v → v.car.Ends Fault.InScope Value.Closed ∧
      (v.cdr n).Ends Fault.InScope Value.Closed ∧
      ∀ label, (v.dot n label).Ends Fault.InScope Value.Closed) ∧
    ∀ c, Chain.Closed c → (c.labels n).Ends Fault.InScope (fun _ => True) ∧
      ∀ v label, Value.Closed v → (c.typeOf n v label).Ends Fault.InScope fun r =>
      ∀ a ∈ r, a.Closed := by
  have hall := EvaluatesWithin.all Part.Present n
  have hvalue (v : Value) (h : v.Every Part.Present) : v.Closed := Item.every_present_iff.1 h
  have hchain (c : Chain) (h : c.Every Part.Present) : c.Closed := Item.every_present_iff.1 h
  refine ⟨fun env t henv ht => ⟨?_, ?_⟩, fun c v hc hv => ⟨?_, ?_⟩, fun p f v hf hv => ?_,
    fun v hv => ⟨?_, ?_, fun label => ?_⟩, fun c hc => ⟨?_, fun v label hv => ?_⟩⟩
  · exact (hall.eval henv.every (henv.all ht)).inScope hvalue
  · exact (hall.chain henv.every (henv.all ht) (.inr nofun)).inScope hchain
  · exact (hall.apply (Item.every_present_iff.2 hc) (Item.every_present_iff.2 hv)).inScope hvalue
  · exact (hall.applyChain nofun (Item.every_present_iff.2 hc)
      (Item.every_present_iff.2 hv)).inScope hchain
  · exact (hall.app (Item.every_present_iff.2 hf) (Item.every_present_iff.2 hv)).inScope hvalue
  · exact (Value.car_within (Item.every_present_iff.2 hv)).inScope hvalue
  · exact (hall.cdr (Item.every_present_iff.2 hv)).inScope hvalue
  · exact (hall.dot (Item.every_present_iff.2 hv)).inScope hvalue
  · exact (Chain.labels_within n (fun _ _ => nofun) (Item.every_present_iff.2 hc)).inScope fun _ =>
      id
  · exact (Chain.typeOf_within n (Item.every_present_iff.2 hc)
      (Item.every_present_iff.2 hv) label).inScope fun r hr a ha => hvalue a (hr a ha)

namespace DependentProperty

def f : Name := ⟨"f", 0⟩
def k : Name := ⟨"k", 0⟩
def l : Name := ⟨"l", 0⟩
def o : Name := ⟨"o", 0⟩
def x : Name := ⟨"x", 0⟩

/-- An object that is not known, of a class whose second property has the first one for its type. -/
def object : Value :=
  .variable (.classOf (.declared k .type ⟨[], x, .declared l l (.var x) .emptyClass⟩)) o

def pairing : Value := .fn .explicit .type ⟨[(o, object)], x, .cons (.var x) (.var o)⟩

def env : Environment := [(f, pairing), (o, object)]

def paired : Term := .app .explicit (.var f) (.dot (.var o) l)

theorem object_every : object.Every Part.Present := by
  refine Value.every_variable.2 ⟨Value.every_classOf.2 (Chain.every_declared.2 ?_), nofun⟩
  refine ⟨nofun, nofun, Value.every_type, ?_⟩
  refine Closure.every_iff.2 ⟨nofun, Term.all_present _, fun y hy hne => (hne ?_).elim⟩
  exact List.mem_singleton.1
    ((by decide : (Term.declared l l (.var x) .emptyClass).freeNames = [x]) ▸ hy)

theorem env_closed : env.Closed := by
  have hobject : Environment.Every Part.Present [(o, object)] :=
    Environment.Every.cons nofun object_every o
  have hpairing : pairing.Every Part.Present := by
    refine Value.every_fn.2
      ⟨Value.every_type, Closure.every_iff.2 ⟨hobject, Term.all_present _, ?_⟩⟩
    intro y hy hne hnone
    have hmem : y ∈ [x, o] := (by decide : (Term.cons (.var x) (.var o)).freeNames = [x, o]) ▸ hy
    rcases List.mem_cons.1 hmem with rfl | hmem
    · exact (hne rfl).elim
    · cases List.mem_singleton.1 hmem
      cases hnone
  exact fun y w hw => Item.every_present_iff.1 (hobject.cons hpairing f y w hw)

end DependentProperty

open DependentProperty in
/-- A selection that opens the class of an unknown object, inside an application that opens a
closure. -/
theorem selection_in_application_closed :
    env.Closed ∧ (∀ y ∈ paired.freeNames, (env.lookup y).isSome) ∧
      ∃ v, eval 10 env paired = .ok v ∧ v.Closed := by
  have hnames : ∀ y ∈ paired.freeNames, (env.lookup y).isSome := by decide
  have hends := ((evaluation_is_scope_safe 10).1 env paired env_closed hnames).1
  have hok : (eval 10 env paired).isOk := by decide +kernel
  refine ⟨env_closed, hnames, ?_⟩
  cases hv : eval 10 env paired with
  | error h =>
    rw [hv] at hok
    cases hok
  | ok v =>
    rw [hv] at hends
    exact ⟨v, rfl, hends⟩

end DependentClasses
