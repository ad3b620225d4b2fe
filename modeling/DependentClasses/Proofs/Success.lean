import DependentClasses.Elaboration
import Mathlib.Tactic.Common

/-! Successful computations. A computation that succeeds is taken apart into the steps it is
made of: each step succeeds on what the steps before it left. -/
namespace DependentClasses

section

variable {α β ε : Type}

def gives (x : Except ε α) (test : α → Bool) : Bool :=
  match x with
  | .ok a => test a
  | .error _ => false

theorem exists_of_gives {x : Except ε α} {test : α → Bool} (h : gives x test) :
    ∃ a, x = .ok a ∧ test a := by
  cases x with
  | ok a => exact ⟨a, rfl, h⟩
  | error e => cases h

namespace Eval

@[simp] theorem pure_eq_ok {a b : α} : (pure a : Eval α) = .ok b ↔ b = a := by
  simp [pure, Except.pure, eq_comm]

@[simp] theorem bind_eq_ok {x : Eval α} {f : α → Eval β} {b : β} :
    (x >>= f) = .ok b ↔ ∃ a, x = .ok a ∧ f a = .ok b := by
  cases x <;> simp [bind, Except.bind]

@[simp] theorem map_eq_ok {x : Eval α} {f : α → β} {b : β} :
    (f <$> x) = .ok b ↔ ∃ a, x = .ok a ∧ b = f a := by
  cases x <;> simp [Functor.map, Except.map, eq_comm]

@[simp] theorem fault_eq_ok {c : Fault} {a : α} :
    (fault c : Eval α) = .ok a ↔ False := by simp [fault]

@[simp] theorem outOfFuel_eq_ok {a : α} : (outOfFuel : Eval α) = .ok a ↔ False := by
  simp [outOfFuel]

def result (x : Eval α) (default : α) : α :=
  match x with
  | .ok a => a
  | .error _ => default

theorem eq_ok_result {x : Eval α} (default : α) (h : x.toBool) : x = .ok (x.result default) := by
  cases x with
  | ok a => rfl
  | error e => cases h

theorem bind_congr {x : Eval α} {f g : α → Eval β} (h : ∀ a, x = .ok a → f a = g a) :
    x >>= f = x >>= g := by
  cases x with
  | error e => rfl
  | ok a => exact h a rfl

theorem mapM_congr {f g : α → Eval β} {xs : List α} (h : ∀ a ∈ xs, f a = g a) :
    xs.mapM f = xs.mapM g := by
  induction xs with
  | nil => simp
  | cons x xs ih =>
    rw [List.mapM_cons, List.mapM_cons, h x List.mem_cons_self,
      ih fun a ha => h a (List.mem_cons_of_mem x ha)]

/-- Fields are computed one by one, and keep their labels. -/
theorem mapM_fields {f : α → Eval β} {fields : List (Name × α)} {fs : List (Name × β)}
    (h : (fields.mapM fun (label, a) => do
      let a ← f a
      pure (label, a)) = .ok fs) :
    fs.map Prod.fst = fields.map Prod.fst ∧ ∀ g ∈ fs, ∃ x ∈ fields, g.1 = x.1 ∧
      f x.2 = .ok g.2 := by
  induction fields generalizing fs with
  | nil =>
    rw [List.mapM_nil, pure_eq_ok] at h
    simp [h]
  | cons x fields ih =>
    simp only [List.mapM_cons, bind_eq_ok, pure_eq_ok] at h
    obtain ⟨_, ⟨w, hw, rfl⟩, gs, hgs, rfl⟩ := h
    obtain ⟨hlabels, hvalues⟩ := ih hgs
    refine ⟨by simp [hlabels], fun g hg => ?_⟩
    rcases List.mem_cons.1 hg with rfl | hg
    · exact ⟨x, List.mem_cons_self, rfl, hw⟩
    · obtain ⟨y, hy, h⟩ := hvalues g hg
      exact ⟨y, List.mem_cons_of_mem _ hy, h⟩

end Eval

namespace Verdict

/-- A check succeeds with `a`. -/
def Yields (x : Verdict α) (a : α) : Prop := x.run = .ok (.ok a)

variable {x : Verdict α} {f : α → Verdict β} {a : α} {b : β}

theorem Yields.unique {c : α} (h : x.Yields a) (h' : x.Yields c) : a = c := by
  have heq := Eq.trans (Eq.symm h) h'
  cases heq
  rfl

@[simp] theorem yields_pure {c : α} : Yields (pure a) c ↔ c = a := by
  simp [Yields, pure, ExceptT.pure, ExceptT.mk, ExceptT.run, Except.pure, eq_comm]

@[simp] theorem yields_bind : Yields (x >>= f) b ↔ ∃ a, x.Yields a ∧ (f a).Yields b := by
  unfold Yields
  rw [ExceptT.run_bind]
  rcases x.run with h | e | a <;> simp [bind, Except.bind, pure, Except.pure]

@[simp] theorem yields_lift {e : Eval α} : Yields (liftM e) a ↔ e = .ok a := by
  unfold Yields
  change (ExceptT.run (ExceptT.lift e) = _) ↔ _
  rw [ExceptT.run_lift]
  cases e <;> simp [Functor.map, Except.map]

@[simp] theorem yields_outOfFuel : Yields (Eval.outOfFuel : Eval (Except Failure α)) a ↔ False :=
  Eval.outOfFuel_eq_ok

@[simp] theorem yields_refuse {c : Cause} : Yields (refuse c) a ↔ False := by
  simp [Yields, refuse, throw, throwThe, MonadExceptOf.throw, ExceptT.mk, ExceptT.run,
    pure, Except.pure]

end Verdict

namespace Solver

/-- A computation that starts with the solution `s` succeeds with `a` and leaves the solution
`s'`. -/
def Yields (x : Solver α) (s : Solution) (a : α) (s' : Solution) : Prop :=
  x.run.run s = .ok (.ok a, s')

def gives (x : Solver α) (s : Solution) (test : α → Solution → Bool) : Bool :=
  DependentClasses.gives (x.run.run s) fun r => DependentClasses.gives r.1 fun a => test a r.2

def succeeds (x : Solver α) (s : Solution) : Bool :=
  match x.run.run s with
  | .ok (.ok _, _) => true
  | _ => false

def refuses (x : Solver α) (s : Solution) : Bool :=
  match x.run.run s with
  | .ok (.error _, _) => true
  | _ => false

def final (x : Solver α) (s : Solution) : Solution :=
  match x.run.run s with
  | .ok (_, s') => s'
  | .error _ => s

variable {x : Solver α} {f : α → Solver β} {a : α} {b : β} {s s' : Solution}

theorem yields_final (h : x.succeeds s) : ∃ a, x.Yields s a (x.final s) := by
  unfold succeeds at h
  unfold Yields final
  split at h
  · next a t hrun => exact ⟨a, by simp [hrun]⟩
  · cases h

theorem exists_of_gives {test : α → Solution → Bool} (h : x.gives s test) :
    ∃ a s', x.Yields s a s' ∧ test a s' := by
  obtain ⟨r, hr, h⟩ := DependentClasses.exists_of_gives h
  obtain ⟨a, ha, h⟩ := DependentClasses.exists_of_gives h
  obtain ⟨_, s'⟩ := r
  dsimp only at ha
  subst ha
  exact ⟨a, s', hr, h⟩

theorem run_of_refuses (h : x.refuses s) : ∃ f s', x.run.run s = .ok (.error f, s') := by
  unfold refuses at h
  split at h
  · next f s' heq => exact ⟨f, s', heq⟩
  · cases h

@[simp] theorem yields_pure {c : α} : Yields (pure a) s c s' ↔ c = a ∧ s' = s := by
  constructor
  · intro h; cases h; exact ⟨rfl, rfl⟩
  · rintro ⟨rfl, rfl⟩; rfl

@[simp] theorem yields_bind :
    Yields (x >>= f) s b s' ↔ ∃ a s₁, x.Yields s a s₁ ∧ (f a).Yields s₁ b s' := by
  unfold Yields
  rw [ExceptT.run_bind, StateT.run_bind]
  constructor
  · intro h
    obtain ⟨⟨r, s₁⟩, hx, h⟩ := Eval.bind_eq_ok.1 h
    cases r with
    | error e => cases h
    | ok a => exact ⟨a, s₁, hx, h⟩
  · rintro ⟨a, s₁, hx, h⟩
    exact Eval.bind_eq_ok.2 ⟨(.ok a, s₁), hx, h⟩

@[simp] theorem yields_lift {e : Eval α} : Yields (liftM e) s a s' ↔ e = .ok a ∧ s' = s := by
  cases e with
  | error h =>
    simp only [reduceCtorEq, false_and, iff_false]
    exact fun h => by cases h
  | ok b =>
    constructor
    · intro h
      cases h
      exact ⟨rfl, rfl⟩
    · rintro ⟨h, rfl⟩
      cases h
      rfl

@[simp] theorem yields_get {t : Solution} : Yields get s t s' ↔ t = s ∧ s' = s := by
  constructor
  · intro h; cases h; exact ⟨rfl, rfl⟩
  · rintro ⟨rfl, rfl⟩; rfl

@[simp] theorem yields_set {t : Solution} {u : PUnit} : Yields (set t) s u s' ↔ s' = t := by
  constructor
  · intro h; cases h; rfl
  · rintro rfl; rfl

@[simp] theorem yields_modify {g : Solution → Solution} {u : PUnit} :
    Yields (modify g) s u s' ↔ s' = g s := by
  constructor
  · intro h; cases h; rfl
  · rintro rfl; rfl

@[simp] theorem yields_throw {e : Failure} : Yields (throw e) s a s' ↔ False := by
  simp only [iff_false]
  exact fun h => by cases h

@[simp] theorem yields_refuse {c : Cause} : Yields (refuse c) s a s' ↔ False := yields_throw

@[simp] theorem yields_outOfFuel : Yields outOfFuel s a s' ↔ False := by
  simp only [iff_false]
  exact fun h => by cases h

@[simp] theorem yields_reading {g : Solution → Eval α} :
    Yields (reading g) s a s' ↔ g s = .ok a ∧ s' = s := by
  unfold reading
  simp only [yields_bind, yields_get, yields_lift]
  constructor
  · rintro ⟨_, _, ⟨rfl, rfl⟩, h⟩; exact h
  · exact fun h => ⟨_, _, ⟨rfl, rfl⟩, h⟩

@[simp] theorem yields_judging {g : Solution → Verdict α} :
    Yields (judging g) s a s' ↔ (g s).Yields a ∧ s' = s := by
  unfold judging
  simp only [yields_bind, yields_get, yields_lift]
  constructor
  · rintro ⟨_, _, ⟨rfl, rfl⟩, r, _, ⟨hr, rfl⟩, h⟩
    cases r with
    | error e => simp at h
    | ok c => rw [yields_pure] at h; obtain ⟨rfl, rfl⟩ := h; exact ⟨hr, rfl⟩
  · rintro ⟨h, rfl⟩
    exact ⟨_, _, ⟨rfl, rfl⟩, _, _, ⟨h, rfl⟩, by simp⟩

theorem yields_adapt {g : Failure → Failure} :
    Yields (ExceptT.adapt g x) s a s' ↔ x.Yields s a s' := by
  unfold Yields ExceptT.adapt
  change ((Except.mapError g <$> x.run).run s = _) ↔ _
  rw [StateT.run_map]
  rcases x.run.run s with h | ⟨e | b, t⟩ <;> simp [Functor.map, Except.map, Except.mapError]

@[simp] theorem yields_within {fr : Frame} :
    Yields (within fr x) s a s' ↔ x.Yields s a s' := yields_adapt

@[simp] theorem yields_locating {span : Span} :
    Yields (locating span x) s a s' ↔ x.Yields s a s' := yields_adapt

/-- A handler that never succeeds changes nothing about success. -/
theorem yields_tryCatch {handler : Failure → Solver α}
    (hh : ∀ e s a s', ¬ (handler e).Yields s a s') :
    Yields (tryCatch x handler) s a s' ↔ x.Yields s a s' := by
  constructor
  · intro h
    obtain ⟨⟨r, t⟩, hx, h⟩ := Eval.bind_eq_ok.1 h
    cases r with
    | error e => exact absurd h (hh e t a s')
    | ok b => cases h; exact hx
  · intro hx
    exact Eval.bind_eq_ok.2 ⟨(.ok a, s'), hx, rfl⟩

@[simp] theorem yields_force {n : Nat} {v w : Value} :
    Yields (force n v) s w s' ↔ v.force n s = .ok w ∧ s' = s :=
  yields_reading

@[simp] theorem yields_reify {n : Nat} {ctx : Context} {v : Value} {t : Term} :
    Yields (reify n ctx v) s t s' ↔ s.reify n ctx v = .ok t ∧ s' = s := yields_reading

@[simp] theorem yields_reifyChain {n : Nat} {ctx : Context} {c : Chain} {t : Term} :
    Yields (reifyChain n ctx c) s t s' ↔ s.reifyChain n ctx c = .ok t ∧ s' = s := yields_reading

@[simp] theorem yields_evaluate {n : Nat} {ctx : Context} {t : Term} {v : Value} :
    Yields (evaluate n ctx t) s v s' ↔ eval n (s.environment ctx) t = .ok v ∧
      s' = s := yields_reading

@[simp] theorem yields_freshName {ctx : Context} {y z : Name} :
    Yields (freshName ctx y) s z s' ↔ z = s.freshName ctx y ∧ s' = s := by
  unfold freshName
  simp only [yields_bind, yields_get, yields_pure]
  constructor
  · rintro ⟨_, _, ⟨rfl, rfl⟩, h⟩; exact h
  · exact fun h => ⟨_, _, ⟨rfl, rfl⟩, h⟩

@[simp] theorem yields_create {ctx : Context} {y : Name} {c v : Value} :
    Yields (create ctx y c) s v s' ↔ v = .variable c y ∧ s' = s.create y c ctx.names := by
  unfold create
  simp only [yields_bind, yields_modify, yields_pure]
  constructor
  · rintro ⟨_, _, rfl, h⟩; exact h
  · exact fun h => ⟨.unit, _, rfl, h⟩

@[simp] theorem yields_witness {ctx : Context} {y : Name} {c : Value} {r : Context × Value} :
    Yields (Solver.witness ctx y c) s r s' ↔ r = s.witness ctx y c ∧ s' = s := by
  unfold witness
  simp only [yields_bind, yields_get, yields_pure]
  constructor
  · rintro ⟨_, _, ⟨rfl, rfl⟩, h⟩; exact h
  · exact fun h => ⟨_, _, ⟨rfl, rfl⟩, h⟩

@[simp] theorem yields_cannotUnify {n : Nat} {ctx : Context} {l r : Value} :
    Yields (cannotUnify n ctx l r) s a s' ↔ False := by
  unfold cannotUnify
  simp

theorem run_bind_of_yields (h : x.Yields s a s') : (x >>= f).run.run s = (f a).run.run s' := by
  rw [ExceptT.run_bind, StateT.run_bind, h]
  rfl

/-- What ends in an answer has been refused on the way, or has come through. -/
theorem run_bind_eq_ok {r : Except Failure β × Solution} (h : (x >>= f).run.run s = .ok r) :
    (∃ e s₁, x.run.run s = .ok (.error e, s₁) ∧ r = (.error e, s₁)) ∨ ∃ a s₁, x.Yields s a s₁ ∧
      (f a).run.run s₁ = .ok r := by
  rw [ExceptT.run_bind, StateT.run_bind] at h
  obtain ⟨r₁, hx, h⟩ := Eval.bind_eq_ok.1 h
  obtain ⟨r₁, s₁⟩ := r₁
  cases r₁ with
  | error e =>
    cases h
    exact .inl ⟨e, s₁, hx, rfl⟩
  | ok a => exact .inr ⟨a, s₁, hx, h⟩

/-- A computation that only looks at the solution goes on with the same solution. -/
theorem run_reading_bind (g : Solution → Eval α) (f : α → Solver β) (s : Solution) :
    (reading g >>= f).run.run s = (g s >>= fun a => (f a).run.run s) := by
  cases hg : g s with
  | ok a => exact run_bind_of_yields (yields_reading.2 ⟨hg, rfl⟩)
  | error halt =>
    rw [reading, bind_assoc, run_bind_of_yields (yields_get.2 ⟨rfl, rfl⟩), hg]
    rfl

theorem run_locating (span : Span) (x : Solver α) (s : Solution) : (locating span x).run.run s =
    (x.run.run s).map fun r => (r.1.mapError (Failure.locate span), r.2) := by
  change (Except.mapError (Failure.locate span) <$> x.run).run s = _
  rw [StateT.run_map]
  rfl

/-- What follows a computation matters only for what the computation can find. -/
theorem bind_congr_of_yields {g : α → Solver β} (h : ∀ s a s', x.Yields s a s' → f a = g a) :
    x >>= f = x >>= g := by
  refine ExceptT.ext (StateT.ext fun s => ?_)
  rw [ExceptT.run_bind, ExceptT.run_bind, StateT.run_bind, StateT.run_bind]
  cases hx : x.run.run s with
  | error halt => rfl
  | ok r =>
    obtain ⟨r, s'⟩ := r
    cases r with
    | error e => rfl
    | ok a =>
      change (f a).run.run s' = (g a).run.run s'
      rw [h s a s' hx]

theorem lift_bind_congr {e : Eval α} {g : α → Solver β} (h : ∀ a, e = .ok a → f a = g a) :
    (liftM e : Solver α) >>= f = liftM e >>= g :=
  bind_congr_of_yields fun _ a _ ha => h a (yields_lift.1 ha).1

theorem yields_mapM_cons {γ : Type} {g : γ → Solver α} {y : γ} {ys : List γ} {r : List α} :
    Yields ((y :: ys).mapM g) s r s' ↔
      ∃ b s₁ bs, (g y).Yields s b s₁ ∧ Yields (ys.mapM g) s₁ bs s' ∧ r = b :: bs := by
  simp only [List.mapM_cons, yields_bind, yields_pure]
  constructor
  · rintro ⟨b, s₁, hb, bs, s₂, hbs, rfl, rfl⟩; exact ⟨b, s₁, bs, hb, hbs, rfl⟩
  · rintro ⟨b, s₁, bs, hb, hbs, rfl⟩; exact ⟨b, s₁, hb, bs, s', hbs, rfl, rfl⟩

theorem yields_forM_cons {γ : Type} {g : γ → Solver PUnit} {y : γ} {ys : List γ} {u : PUnit} :
    Yields ((y :: ys).forM g) s u s' ↔ ∃ u₁ s₁, (g y).Yields s u₁ s₁ ∧
      Yields (ys.forM g) s₁ u s' := by
  exact yields_bind

end Solver

end

end DependentClasses
