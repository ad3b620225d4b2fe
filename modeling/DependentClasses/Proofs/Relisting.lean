import DependentClasses.Elaboration
import DependentClasses.Proofs.Binding

/-! Checks under another listing. What a check finds does not depend on the order in which names
are looked at. A refusal depends on it only where a solution would mention several names that it
may not mention: which of them is told is up to the order. -/
namespace DependentClasses

def Solution.relist (s : Solution) (l : Listing) : Solution := { s with listing := l }

section

variable {n : Nat} {s : Solution} {l : Listing} {ctx : Context}

theorem Neutral.resume_relist (e : Neutral) : e.resume n (s.relist l) = e.resume n s :=
  match e with
  | .var _ => rfl
  | .app _ f _ _ => by rw [resume, resume_relist f, resume]
  | .car p | .cdr p => by rw [resume, resume_relist p, resume]
  | .dot o _ => by rw [resume, resume_relist o, resume]

@[simp] theorem Value.force_relist (v : Value) : v.force n (s.relist l) = v.force n s := by
  induction n generalizing v with
  | zero => rfl
  | succ n ih => cases v <;> simp only [force, Neutral.resume_relist, ih]

theorem reify_relist (n : Nat) :
    (∀ used (v : Value), v.reify n (s.relist l) used = v.reify n s used) ∧
    (∀ used (e : Neutral), e.reify n (s.relist l) used = e.reify n s used) ∧
    ∀ used (c : Chain), c.reify n (s.relist l) used = c.reify n s used := by
  induction n with
  | zero => exact ⟨fun _ _ => rfl, fun _ _ => rfl, fun _ _ => rfl⟩
  | succ n ih =>
    obtain ⟨hvalue, hneutral, hchain⟩ := ih
    refine ⟨fun used v => ?_, fun used e => ?_, fun used c => ?_⟩
    · simp only [Value.reify, Value.force_relist, hvalue, hneutral, hchain]
    · cases e <;> simp only [Neutral.reify, hvalue, hneutral]
    · cases c <;> simp only [Chain.reify, hvalue, hchain]

@[simp] theorem Solution.reify_relist (v : Value) : (s.relist l).reify n ctx v = s.reify n ctx v :=
  (DependentClasses.reify_relist n).1 _ v

@[simp] theorem Solution.reifyChain_relist (c : Chain) :
    (s.relist l).reifyChain n ctx c = s.reifyChain n ctx c :=
  (DependentClasses.reify_relist n).2.2 _ c

theorem convertType_relist (a b : Value) :
    convertType n (s.relist l) ctx a b = convertType n s ctx a b := by
  simp only [convertType, Solution.reify_relist]

theorem Solution.witness_relist (x : Name) (a : Value) :
    (s.relist l).witness ctx x a = s.witness ctx x a := rfl

theorem convert_relist (n : Nat) :
    (∀ ctx a v w, convert n (s.relist l) ctx a v w = convert n s ctx a v w) ∧
    ∀ ctx e f, convertNeutral n (s.relist l) ctx e f = convertNeutral n s ctx e f := by
  induction n with
  | zero => exact ⟨fun _ _ _ _ => rfl, fun _ _ _ => rfl⟩
  | succ n ih =>
    obtain ⟨hvalue, hneutral⟩ := ih
    refine ⟨fun ctx a v w => ?_, fun ctx e f => ?_⟩
    · simp only [convert, Value.force_relist, convertType_relist, Solution.witness_relist,
        hvalue, hneutral]
    · unfold convertNeutral
      simp only [hvalue, hneutral]

theorem Chain.seek_relist (label : Name) (c : Chain) :
    c.seek n (s.relist l) ctx label = c.seek n s ctx label := by
  induction n generalizing ctx c with
  | zero => rfl
  | succ n ih => cases c <;> simp only [seek, Solution.witness_relist, ih]

theorem Neutral.patternSpine_relist (e : Neutral) :
    e.patternSpine (s.relist l) = e.patternSpine s :=
  match e with
  | .var _ | .car _ | .cdr _ | .dot _ _ => rfl
  | .app _ f _ _ => by rw [patternSpine, patternSpine_relist f, patternSpine]

theorem Value.patternSpine_relist (v : Value) : v.patternSpine (s.relist l) = v.patternSpine s := by
  cases v <;> first | rfl | exact Neutral.patternSpine_relist _

namespace PatternSpine

theorem sameArgs_relist (as bs : List Arg) :
    sameArgs n (s.relist l) ctx as bs = sameArgs n s ctx as bs := by
  induction as generalizing bs with
  | nil => cases bs <;> rfl
  | cons a as ih => cases bs <;> simp only [sameArgs, Solution.reify_relist, ih]

theorem same_relist (p q : PatternSpine) : p.same n (s.relist l) ctx q = p.same n s ctx q := by
  simp only [same, sameArgs_relist]

theorem parameters_relist (head : Name) (seen : List Name) (as : List Arg) :
    parameters n (s.relist l) ctx head seen as = parameters n s ctx head seen as := by
  induction as generalizing seen with
  | nil => rfl
  | cons a as ih =>
    have hpattern (x : Name) : (s.relist l).isPatternVariable x = s.isPatternVariable x := rfl
    simp only [parameters, Value.force_relist, hpattern, ih]

theorem abstracted_relist (body : Term) (as : List (Arg × Name)) :
    abstracted n (s.relist l) ctx as body = abstracted n s ctx as body := by
  induction as with
  | nil => rfl
  | cons a as ih => simp only [abstracted, Solution.reify_relist, ih]

end PatternSpine

end

/-- The pattern variable whose solution would mention a name that it may not mention. -/
def Cause.astray : Cause → Option Name
  | .occursCheck x | .scopeEscape x _ => some x
  | _ => none

/-- The same failure, but for the name that is told if a solution may not mention several. -/
structure Failure.Resembles (f g : Failure) : Prop where
  cause : f.cause = g.cause ∨ ∃ x, f.cause.astray = some x ∧ g.cause.astray = some x
  span : f.span = g.span
  trace : f.trace = g.trace

namespace Failure.Resembles

variable {f g : Failure}

theorem refl (f : Failure) : f.Resembles f := ⟨.inl rfl, rfl, rfl⟩

theorem locate (h : f.Resembles g) (span : Span) : (f.locate span).Resembles (g.locate span) :=
  ⟨h.cause, by simp only [Failure.locate, h.span], h.trace⟩

theorem within (h : f.Resembles g) (frame : Frame) : (f.within frame).Resembles (g.within frame) :=
  ⟨h.cause, h.span, by simp only [Failure.within, h.trace]⟩

end Failure.Resembles

/-- How two checks end: with related results, with failures that resemble each other, or not at
all. -/
inductive Verdict.Retold {α β : Type} (R : α → β → Prop) :
    Eval (Except Failure α) → Eval (Except Failure β) → Prop
  | found {a : α} {b : β} : R a b → Retold R (.ok (.ok a)) (.ok (.ok b))
  | refused {f g : Failure} : f.Resembles g → Retold R (.ok (.error f)) (.ok (.error g))
  | halted (h : Halt) : Retold R (.error h) (.error h)

namespace Verdict.Retold

variable {α β : Type}

theorem refl (x : Verdict α) : Retold Eq x.run x.run := by
  rcases x.run with h | f | a
  · exact .halted h
  · exact .refused (.refl f)
  · exact .found rfl

theorem bind {α' β' : Type} {R : α → α' → Prop} {S : β → β' → Prop} {x : Verdict α} {y : Verdict α'}
    {f : α → Verdict β} {g : α' → Verdict β'} (h : Retold R x.run y.run)
    (h' : ∀ a b, R a b → Retold S (f a).run (g b).run) : Retold S (x >>= f).run (y >>= g).run := by
  simp only [ExceptT.run_bind]
  generalize x.run = r at h ⊢
  generalize y.run = r' at h ⊢
  cases h with
  | found hab => exact h' _ _ hab
  | refused hf => exact .refused hf
  | halted e => exact .halted e

end Verdict.Retold

namespace Solver

variable {α β : Type}

/-- How a run ends, and how it ends if names are listed by `l` from the start. -/
inductive Retold (l : Listing) :
    Eval (Except Failure α × Solution) → Eval (Except Failure α × Solution) → Prop
  | found (a : α) (s : Solution) : Retold l (.ok (.ok a, s)) (.ok (.ok a, s.relist l))
  | refused {f g : Failure} (h : f.Resembles g) (s : Solution) :
      Retold l (.ok (.error f, s)) (.ok (.error g, s.relist l))
  | halted (h : Halt) : Retold l (.error h) (.error h)

/-- The order in which names are looked at does not matter but for which of them is told. -/
def Indifferent (x : Solver α) : Prop :=
  ∀ s l, Retold l (x.run.run s) (x.run.run (s.relist l))

namespace Indifferent

theorem pure (a : α) : Indifferent (Pure.pure a) := fun s _ => .found a s

theorem throw (f : Failure) : Indifferent (MonadExcept.throw f : Solver α) :=
  fun s _ => .refused (.refl f) s

theorem refuse (c : Cause) : Indifferent (DependentClasses.refuse c : Solver α) := throw _

theorem outOfFuel : Indifferent (Solver.outOfFuel : Solver α) := fun _ _ => .halted _

theorem bind {x : Solver α} {f : α → Solver β} (h : x.Indifferent) (h' : ∀ a, (f a).Indifferent) :
    (x >>= f).Indifferent := by
  intro s l
  simp only [ExceptT.run_bind, StateT.run_bind]
  generalize hx : x.run.run s = r
  generalize hx' : x.run.run (s.relist l) = r'
  have hr := hx ▸ hx' ▸ h s l
  cases hr with
  | found a s₁ => exact h' a s₁ l
  | refused hf s₁ => exact .refused hf s₁
  | halted e => exact .halted e

theorem lift (e : Eval α) : Indifferent (liftM e) := by
  intro s l
  cases e with
  | error e => exact .halted e
  | ok a => exact .found a s

theorem get {f : Solution → Solver α} (hf : ∀ s l, f (s.relist l) = f s)
    (h : ∀ s, (f s).Indifferent) :
    (MonadState.get >>= f).Indifferent := by
  intro s l
  change Retold l ((f s).run.run s) ((f (s.relist l)).run.run (s.relist l))
  rw [hf]
  exact h s s l

theorem reading {f : Solution → Eval α} (hf : ∀ s l, f (s.relist l) = f s) :
    Indifferent (Solver.reading f) :=
  get (fun s l => by rw [hf]) fun s => lift (f s)

theorem judging {f : Solution → Verdict α} (hf : ∀ s l, f (s.relist l) = f s) :
    Indifferent (Solver.judging f) := by
  refine get (fun s l => by rw [hf]) fun s => bind (lift _) fun r => ?_
  cases r with
  | error f => exact throw f
  | ok a => exact pure a

theorem modify {f : Solution → Solution} (hf : ∀ s l, f (s.relist l) = (f s).relist l) :
    Indifferent (modify f : Solver PUnit) := by
  intro s l
  have hrun : Retold l (.ok (.ok PUnit.unit, f s)) (.ok (.ok PUnit.unit, (f s).relist l)) :=
    .found _ _
  rw [← hf] at hrun
  exact hrun

theorem getSet {f : Solution → Solution} {g : Solution → Solver α}
    (hf : ∀ s l, f (s.relist l) = (f s).relist l) (hg : ∀ s l, g (s.relist l) = g s)
    (h : ∀ s, (g s).Indifferent) :
    Indifferent (do
      let s ← MonadState.get
      set (f s)
      g s) := by
  intro s l
  change Retold l ((g s).run.run (f s)) ((g (s.relist l)).run.run (f (s.relist l)))
  rw [hf, hg]
  exact h s (f s) l

theorem adapt {g : Failure → Failure}
    (hg : ∀ f f', f.Resembles f' → (g f).Resembles (g f')) {x : Solver α} (h : x.Indifferent) :
    Indifferent (ExceptT.adapt g x) := by
  intro s l
  change Retold l ((Except.mapError g <$> x.run).run s)
    ((Except.mapError g <$> x.run).run (s.relist l))
  rw [StateT.run_map, StateT.run_map]
  generalize hx : x.run.run s = r
  generalize hx' : x.run.run (s.relist l) = r'
  have hr := hx ▸ hx' ▸ h s l
  cases hr with
  | found a s₁ => exact .found a s₁
  | refused hf s₁ => exact .refused (hg _ _ hf) s₁
  | halted e => exact .halted e

theorem locating {x : Solver α} (h : x.Indifferent) (span : Span) :
    Indifferent (Solver.locating span x) :=
  adapt (fun _ _ hf => hf.locate span) h

theorem within {x : Solver α} (h : x.Indifferent) (frame : Frame) :
    Indifferent (Solver.within frame x) :=
  adapt (fun _ _ hf => hf.within frame) h

/-- A failure is told with both sides as they have become. -/
theorem describing {x : Solver α} (h : x.Indifferent) (n : Nat) (ctx : Context)
    (sub super : Value) :
    Indifferent (tryCatch x fun f => do
      let l ← Solver.reify n ctx sub
      let r ← Solver.reify n ctx super
      MonadExcept.throw (f.within (.inclusion l r))) := by
  intro s l
  generalize hx : x.run.run s = r
  generalize hx' : x.run.run (s.relist l) = r'
  have hr := hx ▸ hx' ▸ h s l
  refine (?_ : Retold l (x.run.run s >>= _) (x.run.run (s.relist l) >>= _))
  rw [hx, hx']
  cases hr with
  | found a s₁ => exact .found a s₁
  | halted e => exact .halted e
  | @refused f g hf s₁ =>
    let telling (f : Failure) : Solver α :=
      (Solver.reading fun s => s.reify n ctx sub) >>= fun t =>
        (Solver.reading fun s => s.reify n ctx super) >>= fun u =>
          MonadExcept.throw (f.within (.inclusion t u))
    -- both sides are read back in the same way, whichever name is told
    change Retold l ((telling f).run.run s₁) ((telling g).run.run (s₁.relist l))
    simp only [telling, run_reading_bind, Solution.reify_relist]
    cases s₁.reify n ctx sub with
    | error e => exact .halted e
    | ok t =>
      cases s₁.reify n ctx super with
      | error e => exact .halted e
      | ok u => exact .refused (hf.within _) s₁

theorem forM {γ : Type} {f : γ → Solver PUnit} (h : ∀ c, (f c).Indifferent) (xs : List γ) :
    Indifferent (xs.forM f) := by
  induction xs with
  | nil => exact pure _
  | cons c xs ih => exact bind (h c) fun _ => ih

theorem mapM {f : α → Solver β} (h : ∀ a, (f a).Indifferent) (xs : List α) :
    Indifferent (xs.mapM f) := by
  induction xs with
  | nil => exact pure _
  | cons a xs ih =>
    rw [List.mapM_cons]
    exact bind (h a) fun _ => bind ih fun _ => pure _

variable (n : Nat) (ctx : Context)

theorem force (v : Value) : Indifferent (Solver.force n v) := reading fun _ _ => v.force_relist

theorem reify (v : Value) : Indifferent (Solver.reify n ctx v) :=
  reading fun s _ => s.reify_relist v

theorem reifyChain (c : Chain) : Indifferent (Solver.reifyChain n ctx c) :=
  reading fun s _ => s.reifyChain_relist c

theorem evaluate (t : Term) : Indifferent (Solver.evaluate n ctx t) := reading fun _ _ => rfl

theorem freshName (x : Name) : Indifferent (Solver.freshName ctx x) :=
  get (fun _ _ => rfl) fun _ => pure _

theorem witness (x : Name) (a : Value) : Indifferent (Solver.witness ctx x a) :=
  get (fun _ _ => rfl) fun _ => pure _

theorem create (x : Name) (a : Value) : Indifferent (Solver.create ctx x a) :=
  bind (modify fun _ _ => rfl) fun _ => pure _

theorem cannotUnify (v w : Value) : Indifferent (Solver.cannotUnify n ctx v w : Solver α) :=
  bind (reify n ctx v) fun _ => bind (reify n ctx w) fun _ => refuse _

theorem isFunction (a : Value) : Indifferent (Solver.isFunction n a) := by
  refine bind (force n a) fun a => ?_
  split <;> exact pure _

end Indifferent

end Solver

namespace PatternSpine

variable {head : Name} {ps scope xs : List Name}

/-- A check of the scope that does not pass tells a name that may not be mentioned. -/
theorem checkScope_cases (s : Solution) (head : Name) (ps scope xs : List Name) :
    checkScope s head ps scope xs = pure () ∨
    ∃ c, c.astray = some head ∧ checkScope s head ps scope xs = refuse c := by
  induction xs with
  | nil => exact .inl rfl
  | cons x xs ih =>
    unfold checkScope
    split
    · exact .inr ⟨_, rfl, rfl⟩
    · split
      · exact .inr ⟨_, rfl, rfl⟩
      · exact ih

/-- Whichever of several names is told, the check of the scope passes or does not pass. -/
theorem checkScope_relist (s : Solution) (l l' : Listing) : Verdict.Retold Eq
    (checkScope s head ps scope (l.arrange xs)).run
    (checkScope (s.relist l') head ps scope (l'.arrange xs)).run := by
  have hiff : (checkScope s head ps scope (l.arrange xs)).Yields () ↔
      (checkScope (s.relist l') head ps scope (l'.arrange xs)).Yields () := by
    simp only [checkScope_iff, Listing.mem_arrange]
    rfl
  rcases checkScope_cases s head ps scope (l.arrange xs) with h | ⟨c, hc, h⟩ <;>
    rcases checkScope_cases (s.relist l') head ps scope (l'.arrange xs) with h' | ⟨d, hd, h'⟩
  · rw [h, h']
    exact .refl _
  · simp [h, h'] at hiff
  · simp [h, h'] at hiff
  · rw [h, h']
    exact .refused ⟨.inr ⟨head, hc, hd⟩, rfl, rfl⟩

theorem solve_relist (n : Nat) (s : Solution) (l : Listing) (ctx : Context)
    (p : PatternSpine) (v : Value) :
    Verdict.Retold (fun s₁ s₂ => s₂ = s₁.relist l) (p.solve n s ctx v).run
      (p.solve n (s.relist l) ctx v).run := by
  unfold solve
  simp only [parameters_relist, Solution.reify_relist, abstracted_relist]
  refine .bind (.refl _) ?_
  rintro xs _ rfl
  refine .bind (.refl _) ?_
  rintro body _ rfl
  have hfind : (s.relist l).find p.head = s.find p.head := rfl
  rw [hfind]
  rcases s.find p.head with _ | ⟨a, scope⟩ | ⟨a, w⟩
  · exact .refused (.refl _)
  · refine .bind (checkScope_relist s s.listing l) fun _ _ _ => ?_
    refine .bind (.refl _) ?_
    rintro t _ rfl
    refine .bind (.refl _) ?_
    rintro w _ rfl
    exact .found rfl
  · exact .refused (.refl _)

end PatternSpine

namespace Solver.Indifferent

theorem run_judging_bind {α β : Type} (g : Solution → Verdict α) (f : α → Solver β) (s : Solution) :
    (Solver.judging g >>= f).run.run s = ((g s).run >>= fun
      | .ok a => (f a).run.run s
      | .error e => Pure.pure (.error e, s)) := by
  have hrun : (Solver.judging g).run.run s = ((g s).run >>= fun r => Pure.pure (r, s)) := by
    change ((do
      match ← (liftM (g s).run : Solver (Except Failure α)) with
      | .ok a => Pure.pure a
      | .error e => MonadExcept.throw e : Solver α).run.run s) = _
    cases (g s).run with
    | error e => rfl
    | ok r => cases r <;> rfl
  rw [ExceptT.run_bind, StateT.run_bind, hrun, bind_assoc]
  congr 1
  funext r
  cases r <;> rfl

theorem solvePattern (n : Nat) (ctx : Context) (p : PatternSpine) (v : Value) :
    Indifferent (Solver.solvePattern n ctx p v) := by
  intro s l
  unfold Solver.solvePattern
  rw [run_judging_bind, run_judging_bind]
  have h := PatternSpine.solve_relist n s l ctx p v
  generalize (p.solve n s ctx v).run = r at h ⊢
  generalize (p.solve n (s.relist l) ctx v).run = r' at h ⊢
  cases h with
  | found h =>
    subst h
    exact .found _ _
  | refused hf => exact .refused hf s
  | halted e => exact .halted e

end Solver.Indifferent

open Solver (Indifferent)

structure UnifyIndifferent (n : Nat) : Prop where
  value (ctx : Context) (a l r : Value) : Indifferent (unify n ctx a l r)
  forms (ctx : Context) (a l r : Value) : Indifferent (unifyForms n ctx a l r)
  binders (ctx : Context) (a a' : Value) (b b' : Closure) :
    Indifferent (unifyBinders n ctx a a' b b')
  spines (ctx : Context) (l r : Neutral) : Indifferent (unifyNeutrals n ctx l r)
  chains (ctx : Context) (l r : Chain) : Indifferent (unifyChains n ctx l r)

namespace UnifyIndifferent

variable {n : Nat}

theorem value_succ (ih : UnifyIndifferent n) (ctx : Context) (a l r : Value) :
    Indifferent (unify (n + 1) ctx a l r) := by
  unfold unify
  refine .bind (.force n a) fun a => .bind (.force n l) fun l => .bind (.force n r) fun r => ?_
  refine .get (fun s o => ?_) fun s => ?_
  · simp only [Value.patternSpine_relist, PatternSpine.same_relist]
  · split
    · refine .bind (.lift _) fun same => ?_
      split
      · exact .pure _
      · exact .solvePattern n ctx _ r
    · exact .solvePattern n ctx _ r
    · exact .solvePattern n ctx _ l
    · exact ih.forms ctx a l r

theorem forms_succ (ih : UnifyIndifferent n) (ctx : Context) (a l r : Value) :
    Indifferent (unifyForms (n + 1) ctx a l r) := by
  have hcannot : Indifferent (Solver.cannotUnify n ctx l r : Solver Unit) := .cannotUnify n ctx l r
  unfold unifyForms
  split
  · exact .pure _
  · exact .pure _
  · exact .pure _
  · exact .pure _
  · split
    · exact .pure _
    · exact hcannot
  · split
    · exact ih.binders ctx _ _ _ _
    · exact hcannot
  · exact ih.binders ctx _ _ _ _
  · split
    · refine .bind (.witness ctx _ _) fun r => .bind (.lift _) fun b => ?_
      exact .bind (.lift _) fun f => .bind (.lift _) fun g => ih.value r.1 b f g
    · exact hcannot
  · refine .bind (.isFunction n _) fun isFunction => ?_
    split
    · refine .bind (.witness ctx _ _) fun r => .bind (.lift _) fun b => ?_
      exact .bind (.lift _) fun f => .bind (.lift _) fun g => ih.value r.1 b f g
    · exact hcannot
  · refine .bind (.isFunction n _) fun isFunction => ?_
    split
    · refine .bind (.witness ctx _ _) fun r => .bind (.lift _) fun b => ?_
      exact .bind (.lift _) fun f => .bind (.lift _) fun g => ih.value r.1 b f g
    · exact hcannot
  · split
    · exact .bind (ih.value ctx _ _ _) fun _ => .bind (.lift _) fun _ => ih.value ctx _ _ _
    · exact hcannot
  · exact .bind (ih.value ctx _ _ _) fun _ => .bind (ih.value ctx _ _ _) fun _ => ih.value ctx _ _ _
  · split
    · exact ih.value ctx _ _ _
    · exact hcannot
  · refine .bind (ih.chains ctx _ _) fun same => ?_
    split
    · exact .pure _
    · exact hcannot
  · next fs gs =>
    split
    · refine .forM (fun field => ?_) _
      obtain ⟨label, x⟩ := field
      dsimp only
      split
      · exact hcannot
      · next y _ =>
        have huntyped : Indifferent (do
            let t ← Solver.reify n ctx x
            let u ← Solver.reify n ctx y
            if t.alphaEquivalent u then pure ()
                else Solver.cannotUnify n ctx (.object fs) (.object gs)) := by
          refine .bind (.reify n ctx x) fun t => .bind (.reify n ctx y) fun u => ?_
          split
          · exact .pure _
          · exact hcannot
        split
        · refine .bind (.lift _) ?_
          rintro (_ | b)
          · exact huntyped
          · exact ih.value ctx b x y
        · refine .bind (.pure _) ?_
          rintro (_ | b)
          · exact huntyped
          · exact ih.value ctx b x y
    · exact hcannot
  · refine .bind (ih.spines ctx _ _) fun same => ?_
    split
    · exact .pure _
    · exact hcannot
  · exact hcannot

theorem binders_succ (ih : UnifyIndifferent n) (ctx : Context) (a a' : Value) (b b' : Closure) :
    Indifferent (unifyBinders (n + 1) ctx a a' b b') := by
  unfold unifyBinders
  refine .bind (ih.value ctx .type a a') fun _ => .bind (.witness ctx _ _) fun r => ?_
  exact .bind (.lift _) fun b => .bind (.lift _) fun b' => ih.value r.1 .type b b'

theorem spines_succ (ih : UnifyIndifferent n) (ctx : Context) (l r : Neutral) :
    Indifferent (unifyNeutrals (n + 1) ctx l r) := by
  unfold unifyNeutrals
  split
  · exact .pure _
  · split
    · refine .bind (ih.spines ctx _ _) fun same => ?_
      split
      · exact .bind (ih.value ctx _ _ _) fun _ => .pure _
      · exact .pure _
    · exact .pure _
  · exact ih.spines ctx _ _
  · exact ih.spines ctx _ _
  · split
    · exact ih.spines ctx _ _
    · exact .pure _
  · exact .pure _

theorem chains_succ (ih : UnifyIndifferent n) (ctx : Context) (l r : Chain) :
    Indifferent (unifyChains (n + 1) ctx l r) := by
  unfold unifyChains
  split
  · exact .pure _
  · split
    · refine .bind (ih.value ctx .type _ _) fun _ => .bind (.witness ctx _ _) fun r => ?_
      exact .bind (.lift _) fun c => .bind (.lift _) fun d => ih.chains r.1 c d
    · exact .pure _
  · split
    · exact .bind (ih.value ctx .type _ _) fun _ => .bind (ih.value ctx _ _ _) fun _ =>
        ih.chains ctx _ _
    · exact .pure _
  · exact .pure _

theorem all (n : Nat) : UnifyIndifferent n := by
  induction n with
  | zero => constructor <;> intros <;> exact .outOfFuel
  | succ n ih =>
    exact ⟨ih.value_succ, ih.forms_succ, ih.binders_succ, ih.spines_succ, ih.chains_succ⟩

end UnifyIndifferent

theorem includeEqual_indifferent (n : Nat) (ctx : Context) (sub super : Value) :
    Indifferent (includeEqual n ctx sub super) := by
  unfold includeEqual
  refine .bind (.reify n ctx sub) fun l => .bind (.reify n ctx super) fun r => ?_
  split
  · exact .pure _
  · refine .get (fun _ _ => rfl) fun s => ?_
    split
    · exact .refuse _
    · exact (UnifyIndifferent.all n).value ctx .type sub super

structure InclusionIndifferent (n : Nat) : Prop where
  types (ctx : Context) (sub super : Value) : Indifferent (inclusion n ctx sub super)
  forms (ctx : Context) (sub super : Value) : Indifferent (includeForms n ctx sub super)
  unordered (ctx : Context) (sub super : Chain) : Indifferent (includeUnordered n ctx sub super)
  property (ctx : Context) (images : List (Name × Name)) (label : Name) (p q : Property) :
    Indifferent (includeProperty n ctx images label p q)
  ordered (ctx : Context) (sub super : Chain) : Indifferent (includeOrdered n ctx sub super)
  inStep (ctx : Context) (sub super : Chain) : Indifferent (includeInStep n ctx sub super)

namespace InclusionIndifferent

variable {n : Nat}

theorem types_succ (ih : InclusionIndifferent n) (ctx : Context) (sub super : Value) :
    Indifferent (inclusion (n + 1) ctx sub super) := by
  unfold inclusion
  refine .bind (.force n sub) fun sub => .bind (.force n super) fun super => ?_
  exact .describing (ih.forms ctx sub super) n ctx sub super

theorem forms_succ (ih : InclusionIndifferent n) (ctx : Context) (sub super : Value) :
    Indifferent (includeForms (n + 1) ctx sub super) := by
  unfold includeForms
  refine .get (fun s o => ?_) fun s => ?_
  · have hheaded (v : Value) : (s.relist o).isPatternHeaded v = s.isPatternHeaded v := by
      cases v <;> rfl
    simp only [hheaded]
  split
  · exact (UnifyIndifferent.all n).value ctx .type sub super
  · split
    · split
      · refine .bind (ih.types ctx _ _) fun _ => .bind (.witness ctx _ _) fun r => ?_
        exact .bind (.lift _) fun b => .bind (.lift _) fun d => ih.types r.1 b d
      · exact includeEqual_indifferent n ctx _ _
    · refine .bind (ih.types ctx _ _) fun _ => .bind (.witness ctx _ _) fun r => ?_
      exact .bind (.lift _) fun b => .bind (.lift _) fun d => ih.types r.1 b d
    · refine .bind (.lift _) fun ordered => ?_
      split
      · exact ih.ordered ctx _ _
      · exact ih.unordered ctx _ _
    · refine .bind (ih.types ctx _ _) fun _ => ?_
      refine .bind (.judging fun _ _ => (convert_relist n).1 ctx _ _ _) fun _ => ?_
      exact .judging fun _ _ => (convert_relist n).1 ctx _ _ _
    · exact includeEqual_indifferent n ctx sub super

theorem unordered_succ (ih : InclusionIndifferent n) (ctx : Context) (sub super : Chain) :
    Indifferent (includeUnordered (n + 1) ctx sub super) := by
  unfold includeUnordered
  refine .bind (.lift _) fun among => .bind (.lift _) fun labels => ?_
  refine .getSet (fun _ _ => rfl) (fun _ _ => rfl) fun s => ?_
  refine .bind (.judging fun _ _ => rfl) fun ps => .bind (.judging fun _ _ => rfl) fun qs => ?_
  refine .bind (.judging fun _ _ => rfl) fun ctx => .forM (fun property => ?_) qs
  obtain ⟨label, q⟩ := property
  dsimp only
  split
  · exact .refuse _
  · exact .within (ih.property ctx _ label _ q) _

theorem property_succ (ih : InclusionIndifferent n) (ctx : Context)
    (images : List (Name × Name)) (label : Name) (p q : Property) :
    Indifferent (includeProperty (n + 1) ctx images label p q) := by
  unfold includeProperty
  refine .bind (ih.types ctx p.type q.type) fun _ => ?_
  split
  · exact (UnifyIndifferent.all n).value ctx _ _ _
  · refine .bind (.judging fun _ _ => rfl) fun x => .bind (.create ctx x _) fun var => ?_
    exact (UnifyIndifferent.all n).value ctx _ _ _
  · exact .refuse _
  · exact .pure _

theorem ordered_succ (ih : InclusionIndifferent n) (ctx : Context) (sub super : Chain) :
    Indifferent (includeOrdered (n + 1) ctx sub super) := by
  unfold includeOrdered includeIfCovered
  refine .bind (.lift _) fun among => .bind (.lift _) fun labels => ?_
  dsimp only
  split
  · exact ih.inStep ctx sub super
  · exact .refuse _

theorem inStep_succ (ih : InclusionIndifferent n) (ctx : Context) (sub super : Chain) :
    Indifferent (includeInStep (n + 1) ctx sub super) := by
  have hunify (ctx : Context) (b v w : Value) : Indifferent (unify n ctx b v w) :=
    (UnifyIndifferent.all n).value ctx b v w
  unfold includeInStep includeNext
  split
  · exact .pure _
  · refine .bind (.reading fun _ _ => sub.seek_relist _) ?_
    rintro ⟨ctx, found⟩
    cases found with
    | nil => exact .refuse _
    | declared _ b subRest =>
      refine .bind (.within (ih.types ctx b _) _) fun _ => .bind (.witness ctx _ _) fun r => ?_
      exact .bind (.lift _) fun sub => .bind (.lift _) fun super => ih.inStep r.1 sub super
    | fulfilled _ b v sub =>
      refine .bind (.within (ih.types ctx b _) _) fun _ => .bind (.freshName ctx _) fun x => ?_
      refine .bind (.create ctx x b) fun var => .bind (.within (hunify ctx b var v) _) fun _ => ?_
      exact .bind (.lift _) fun super => ih.inStep ctx sub super
  · refine .bind (.reading fun _ _ => sub.seek_relist _) ?_
    rintro ⟨ctx, found⟩
    cases found with
    | nil => exact .refuse _
    | declared => exact .refuse _
    | fulfilled _ b v sub =>
      refine .bind (.within (.bind (ih.types ctx b _) fun _ => hunify ctx b _ v) _) fun _ => ?_
      exact ih.inStep ctx sub _

theorem all (n : Nat) : InclusionIndifferent n := by
  induction n with
  | zero => constructor <;> intros <;> exact .outOfFuel
  | succ n ih =>
    exact ⟨ih.types_succ, ih.forms_succ, ih.unordered_succ, ih.property_succ,
      ih.ordered_succ, ih.inStep_succ⟩

end InclusionIndifferent

end DependentClasses
