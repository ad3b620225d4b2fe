import DependentClasses.Proofs.Fuel

/-! More fuel keeps an answer of the solver, be it a success or a refusal. -/
namespace DependentClasses

section

variable {α β : Type}

namespace Verdict

def Le (x y : Verdict α) : Prop := Eval.Le x.run y.run

namespace Le

theorem refl (x : Verdict α) : x.Le x := Eval.Le.refl _

theorem lift {e e' : Eval α} (h : e.Le e') : Le (liftM e) (liftM e') := Eval.Le.map h

theorem bind {x y : Verdict α} {f g : α → Verdict β} (h : x.Le y) (h' : ∀ a, (f a).Le (g a)) :
    (x >>= f).Le (y >>= g) :=
  Eval.Le.bind h fun
    | .ok a => h' a
    | .error _ => .refl _

theorem forM {γ : Type} {g g' : γ → Verdict PUnit} (h : ∀ c, (g c).Le (g' c)) (xs : List γ) :
    Le (xs.forM g) (xs.forM g') := by
  induction xs with
  | nil => exact refl _
  | cons c xs ih => exact bind (h c) fun _ => ih

end Le

end Verdict

namespace Solver

/-- Whatever the first computation decides, the second decides too, with the same solution. -/
def Le (x y : Solver α) : Prop := ∀ s, (x.run.run s).Le (y.run.run s)

namespace Le

theorem refl (x : Solver α) : x.Le x := fun _ => Eval.Le.refl _

theorem outOfFuel (x : Solver α) : Le Solver.outOfFuel x := fun _ _ h => by cases h

theorem bind {x y : Solver α} {f g : α → Solver β} (h : x.Le y) (h' : ∀ a, (f a).Le (g a)) :
    (x >>= f).Le (y >>= g) := by
  intro s
  rw [ExceptT.run_bind, ExceptT.run_bind, StateT.run_bind, StateT.run_bind]
  refine (h s).bind fun ⟨r, s'⟩ => ?_
  cases r with
  | error e => exact Eval.Le.refl _
  | ok a => exact h' a s'

theorem lift {e e' : Eval α} (h : e.Le e') : Le (liftM e) (liftM e') := by
  intro s r hr
  cases e with
  | error e => cases hr
  | ok a =>
    rw [h a rfl]
    exact hr

theorem reading {f g : Solution → Eval α} (h : ∀ s, (f s).Le (g s)) :
    Le (Solver.reading f) (Solver.reading g) :=
  bind (refl _) fun s => lift (h s)

theorem judging {f g : Solution → Verdict α} (h : ∀ s, (f s).Le (g s)) :
    Le (Solver.judging f) (Solver.judging g) :=
  bind (refl _) fun s => bind (lift (h s)) fun _ => refl _

theorem adapt {f : Failure → Failure} {x y : Solver α} (h : x.Le y) :
    Le (ExceptT.adapt f x) (ExceptT.adapt f y) := by
  intro s
  change Eval.Le ((Except.mapError f <$> x.run).run s) ((Except.mapError f <$> y.run).run s)
  rw [StateT.run_map, StateT.run_map]
  exact (h s).map

theorem within {x y : Solver α} (h : x.Le y) (frame : Frame) :
    Le (Solver.within frame x) (Solver.within frame y) :=
  adapt h

theorem tryCatch {x y : Solver α} {f g : Failure → Solver α} (h : x.Le y)
    (h' : ∀ e, (f e).Le (g e)) :
    Le (MonadExcept.tryCatch x f) (MonadExcept.tryCatch y g) := by
  intro s
  refine (h s).bind fun ⟨r, s'⟩ => ?_
  cases r with
  | error e => exact h' e s'
  | ok a => exact Eval.Le.refl _

theorem forM {γ : Type} {g g' : γ → Solver PUnit} (h : ∀ c, (g c).Le (g' c)) (xs : List γ) :
    Le (xs.forM g) (xs.forM g') := by
  induction xs with
  | nil => exact refl _
  | cons c xs ih => exact bind (h c) fun _ => ih

variable {n : Nat}

theorem force (v : Value) : Le (Solver.force n v) (Solver.force (n + 1) v) :=
  reading fun s => v.force_grows n s

theorem reify (ctx : Context) (v : Value) :
    Le (Solver.reify n ctx v) (Solver.reify (n + 1) ctx v) :=
  reading fun s => (ReifyGrows.all s n).value _ v

theorem apply (c : Closure) (v : Value) : Le (liftM (c.apply n v)) (liftM (c.apply (n + 1) v)) :=
  lift (c.apply_grows n v)

theorem applyChain (c : Closure) (v : Value) :
    Le (liftM (c.applyChain n v)) (liftM (c.applyChain (n + 1) v)) :=
  lift (c.applyChain_grows n v)

end Le

end Solver

end

section

variable {n : Nat} {s : Solution}

theorem Solution.reify_grows (n : Nat) (s : Solution) (ctx : Context) (v : Value) :
    (s.reify n ctx v).Le (s.reify (n + 1) ctx v) :=
  (ReifyGrows.all s n).value _ v

theorem Chain.typeOf_grows (n : Nat) (c : Chain) (v : Value) (label : Name) :
    (c.typeOf n v label).Le (c.typeOf (n + 1) v label) :=
  .bind ((EvalGrows.all n).find c v label) fun _ => .refl _

theorem Chain.labels_grows (n : Nat) (c : Chain) : (c.labels n).Le (c.labels (n + 1)) := by
  induction n generalizing c with
  | zero =>
    intro r h
    simp [labels] at h
  | succ n ih =>
    cases c with
    | nil => exact .refl _
    | declared label a rest =>
      rw [labels, labels]
      exact .bind (rest.applyChain_grows n _) fun c => .bind (ih c) fun _ => .refl _
    | fulfilled label a v rest =>
      rw [labels, labels]
      exact .bind (ih rest) fun _ => .refl _

theorem convertType_grows (n : Nat) (s : Solution) (ctx : Context) (l r : Value) :
    (convertType n s ctx l r).Le (convertType (n + 1) s ctx l r) :=
  .bind (.lift (s.reify_grows n ctx l)) fun _ =>
    .bind (.lift (s.reify_grows n ctx r)) fun _ => .refl _

structure ConvertGrows (s : Solution) (n : Nat) : Prop where
  value (ctx : Context) (a l r : Value) : (convert n s ctx a l r).Le (convert (n + 1) s ctx a l r)
  spine (ctx : Context) (l r : Neutral) : (convertNeutral n s ctx l r).Le
    (convertNeutral (n + 1) s ctx l r)

namespace ConvertGrows

theorem value_succ (ih : ConvertGrows s n) (ctx : Context) (a l r : Value) :
    (convert (n + 1) s ctx a l r).Le (convert (n + 2) s ctx a l r) := by
  unfold convert
  refine .bind (.lift (a.force_grows n s)) fun a => ?_
  refine .bind (.lift (l.force_grows n s)) fun l => .bind (.lift (r.force_grows n s)) fun r => ?_
  dsimp only
  split
  · exact convertType_grows n s ctx l r
  · split
    · exact .refl _
    · exact .refl _
    · exact ih.spine ctx _ _
    · split
      · exact .bind (ih.value ctx _ _ _) fun _ => .bind (.lift (Closure.apply_grows n _ _)) fun _ =>
          ih.value ctx _ _ _
      · exact .refl _
    · split
      · split
        · refine .bind (.lift (Closure.apply_grows n _ _)) fun _ => ?_
          refine .bind (.lift (Closure.apply_grows n _ _)) fun _ => ?_
          exact .bind (.lift (Closure.apply_grows n _ _)) fun _ => ih.value _ _ _ _
        · exact .refl _
      · exact .refl _
    · split
      · exact ih.value ctx _ _ _
      · exact .refl _
    · split
      · split
        · refine .forM (fun ⟨label, x⟩ => ?_) _
          dsimp only
          split
          · exact .refl _
          · refine .bind (.lift (Chain.typeOf_grows n _ _ label)) fun b => ?_
            cases b with
            | none => exact .refl _
            | some b => exact ih.value ctx b x _
        · exact .refl _
      · exact .refl _
    · exact .refl _

theorem spine_succ (ih : ConvertGrows s n) (ctx : Context) (l r : Neutral) :
    (convertNeutral (n + 1) s ctx l r).Le (convertNeutral (n + 2) s ctx l r) := by
  unfold convertNeutral
  dsimp only
  split
  · exact .refl _
  · split
    · exact .bind (ih.spine ctx _ _) fun _ => ih.value ctx _ _ _
    · exact .refl _
  · exact ih.spine ctx _ _
  · exact ih.spine ctx _ _
  · split
    · exact ih.spine ctx _ _
    · exact .refl _
  · exact .refl _

theorem all (s : Solution) (n : Nat) : ConvertGrows s n := by
  induction n with
  | zero =>
    constructor
    · intro ctx a l r e h; rw [convert] at h; cases h
    · intro ctx l r e h; rw [convertNeutral] at h; cases h
  | succ n ih => exact ⟨ih.value_succ, ih.spine_succ⟩

end ConvertGrows

namespace PatternSpine

theorem sameArgs_grows (n : Nat) (s : Solution) (ctx : Context) :
    ∀ as bs : List Arg, (sameArgs n s ctx as bs).Le (sameArgs (n + 1) s ctx as bs)
  | [], [] | [], _ :: _ | _ :: _, [] => .refl _
  | a :: as, b :: bs => by
    unfold sameArgs
    split
    · refine .bind (s.reify_grows n ctx _) fun l => .bind (s.reify_grows n ctx _) fun r => ?_
      split
      · exact sameArgs_grows n s ctx as bs
      · exact .refl _
    · exact .refl _

theorem same_grows (n : Nat) (s : Solution) (ctx : Context) (p q : PatternSpine) :
    (p.same n s ctx q).Le (p.same (n + 1) s ctx q) := by
  unfold same
  split
  · exact sameArgs_grows n s ctx _ _
  · exact .refl _

theorem parameters_grows (n : Nat) (s : Solution) (ctx : Context) (head : Name) :
    ∀ (seen : List Name) (as : List Arg),
      (parameters n s ctx head seen as).Le (parameters (n + 1) s ctx head seen as)
  | _, [] => .refl _
  | seen, a :: as => by
    unfold parameters
    refine .bind (.lift (a.value.force_grows n s)) fun v => ?_
    split
    · split
      · exact parameters_grows n s ctx head _ as
      · exact .refl _
    · exact .refl _

theorem abstracted_grows (n : Nat) (s : Solution) (ctx : Context) (body : Term) :
    ∀ as : List (Arg × Name), (abstracted n s ctx as body).Le (abstracted (n + 1) s ctx as body)
  | [] => .refl _
  | (a, _) :: as =>
    .bind (abstracted_grows n s ctx body as) fun _ =>
      .bind (s.reify_grows n ctx a.type) fun _ => .refl _

theorem solve_grows (n : Nat) (s : Solution) (ctx : Context) (p : PatternSpine) (v : Value) :
    (p.solve n s ctx v).Le (p.solve (n + 1) s ctx v) := by
  unfold solve
  refine .bind (parameters_grows n s ctx p.head [] p.args) fun xs => ?_
  refine .bind (.lift (s.reify_grows n ctx v)) fun body => ?_
  split
  · refine .bind (.refl _) fun _ => .bind (.lift (abstracted_grows n s ctx body _)) fun t => ?_
    exact .bind (.lift ((EvalGrows.all n).eval _ t)) fun _ => .refl _
  · exact .refl _

end PatternSpine

theorem Solver.cannotUnify_grows {α : Type} (n : Nat) (ctx : Context) (l r : Value) :
    (Solver.cannotUnify n ctx l r : Solver α).Le (Solver.cannotUnify (n + 1) ctx l r) :=
  .bind (.reify ctx l) fun _ => .bind (.reify ctx r) fun _ => .refl _

theorem Solver.solvePattern_grows (n : Nat) (ctx : Context) (p : PatternSpine) (v : Value) :
    (Solver.solvePattern n ctx p v).Le (Solver.solvePattern (n + 1) ctx p v) :=
  .bind (.judging fun s => p.solve_grows n s ctx v) fun _ => .refl _

theorem Solver.isFunction_grows (n : Nat) (a : Value) :
    (Solver.isFunction n a).Le (Solver.isFunction (n + 1) a) :=
  .bind (.force a) fun _ => .refl _

theorem Value.resultType_grows (n : Nat) (a v : Value) :
    (a.resultType n v).Le (a.resultType (n + 1) v) := by
  unfold resultType
  split
  · exact Closure.apply_grows n _ v
  · exact .refl _

structure UnifyGrows (n : Nat) : Prop where
  value (ctx : Context) (a l r : Value) : (unify n ctx a l r).Le (unify (n + 1) ctx a l r)
  forms (ctx : Context) (a l r : Value) : (unifyForms n ctx a l r).Le (unifyForms (n + 1) ctx a l r)
  binders (ctx : Context) (a a' : Value) (b b' : Closure) :
    (unifyBinders n ctx a a' b b').Le (unifyBinders (n + 1) ctx a a' b b')
  spines (ctx : Context) (l r : Neutral) : (unifyNeutrals n ctx l r).Le
    (unifyNeutrals (n + 1) ctx l r)
  chains (ctx : Context) (l r : Chain) : (unifyChains n ctx l r).Le (unifyChains (n + 1) ctx l r)

namespace UnifyGrows

theorem value_succ (ih : UnifyGrows n) (ctx : Context) (a l r : Value) :
    (unify (n + 1) ctx a l r).Le (unify (n + 2) ctx a l r) := by
  unfold unify
  refine .bind (.force a) fun a => .bind (.force l) fun l => .bind (.force r) fun r =>
    .bind (.refl _) fun s => ?_
  split
  · refine .bind (.lift (PatternSpine.same_grows n s ctx _ _)) fun same => ?_
    split
    · exact .refl _
    · exact Solver.solvePattern_grows n ctx _ r
  · exact Solver.solvePattern_grows n ctx _ r
  · exact Solver.solvePattern_grows n ctx _ l
  · exact ih.forms ctx a l r

theorem forms_succ (ih : UnifyGrows n) (ctx : Context) (a l r : Value) :
    (unifyForms (n + 1) ctx a l r).Le (unifyForms (n + 2) ctx a l r) := by
  have hcannot := Solver.cannotUnify_grows (α := Unit) n ctx l r
  unfold unifyForms
  split
  · exact .refl _
  · exact .refl _
  · exact .refl _
  · exact .refl _
  · split
    · exact .refl _
    · exact hcannot
  · split
    · exact ih.binders ctx _ _ _ _
    · exact hcannot
  · exact ih.binders ctx _ _ _ _
  · split
    · refine .bind (.refl _) fun ⟨ctx, v⟩ => .bind (.lift (a.resultType_grows n v)) fun b => ?_
      exact .bind (.apply _ v) fun f => .bind (.apply _ v) fun g => ih.value ctx b f g
    · exact hcannot
  · refine .bind (Solver.isFunction_grows n _) fun isFunction => ?_
    split
    · refine .bind (.refl _) fun ⟨ctx, v⟩ => .bind (.lift (a.resultType_grows n v)) fun b => ?_
      refine .bind (.apply _ v) fun f => .bind (.lift ((EvalGrows.all n).app _ _ v)) fun g =>
        ih.value ctx b f g
    · exact hcannot
  · refine .bind (Solver.isFunction_grows n _) fun isFunction => ?_
    split
    · refine .bind (.refl _) fun ⟨ctx, v⟩ => .bind (.lift (a.resultType_grows n v)) fun b => ?_
      refine .bind (.lift ((EvalGrows.all n).app _ _ v)) fun f => .bind (.apply _ v) fun g =>
        ih.value ctx b f g
    · exact hcannot
  · split
    · exact .bind (ih.value ctx _ _ _) fun _ => .bind (.apply _ _) fun _ => ih.value ctx _ _ _
    · exact hcannot
  · exact .bind (ih.value ctx _ _ _) fun _ => .bind (ih.value ctx _ _ _) fun _ => ih.value ctx _ _ _
  · split
    · exact ih.value ctx _ _ _
    · exact hcannot
  · refine .bind (ih.chains ctx _ _) fun same => ?_
    split
    · exact .refl _
    · exact hcannot
  · next fs gs =>
    split
    · refine .forM (fun ⟨label, x⟩ => ?_) _
      dsimp only
      split
      · exact hcannot
      · next y _ =>
        have huntyped : Solver.Le
            (do
              let t ← Solver.reify n ctx x
              let u ← Solver.reify n ctx y
              if t.alphaEquivalent u then pure ()
                else Solver.cannotUnify n ctx (.object fs) (.object gs))
            (do
              let t ← Solver.reify (n + 1) ctx x
              let u ← Solver.reify (n + 1) ctx y
              if t.alphaEquivalent u then pure ()
              else Solver.cannotUnify (n + 1) ctx (.object fs) (.object gs)) := by
          refine .bind (.reify ctx x) fun t => .bind (.reify ctx y) fun u => ?_
          split
          · exact .refl _
          · exact hcannot
        split
        · refine .bind (.lift (Chain.typeOf_grows n _ _ label)) ?_
          rintro (_ | b)
          · exact huntyped
          · exact ih.value ctx b x y
        · refine .bind (.refl _) ?_
          rintro (_ | b)
          · exact huntyped
          · exact ih.value ctx b x y
    · exact hcannot
  · refine .bind (ih.spines ctx _ _) fun same => ?_
    split
    · exact .refl _
    · exact hcannot
  · exact hcannot

theorem binders_succ (ih : UnifyGrows n) (ctx : Context) (a a' : Value) (b b' : Closure) :
    (unifyBinders (n + 1) ctx a a' b b').Le (unifyBinders (n + 2) ctx a a' b b') := by
  unfold unifyBinders
  refine .bind (ih.value ctx .type a a') fun _ => .bind (.refl _) fun ⟨ctx, v⟩ => ?_
  exact .bind (.apply b v) fun b => .bind (.apply b' v) fun b' => ih.value ctx .type b b'

theorem spines_succ (ih : UnifyGrows n) (ctx : Context) (l r : Neutral) :
    (unifyNeutrals (n + 1) ctx l r).Le (unifyNeutrals (n + 2) ctx l r) := by
  unfold unifyNeutrals
  split
  · exact .refl _
  · split
    · refine .bind (ih.spines ctx _ _) fun same => ?_
      split
      · exact .bind (ih.value ctx _ _ _) fun _ => .refl _
      · exact .refl _
    · exact .refl _
  · exact ih.spines ctx _ _
  · exact ih.spines ctx _ _
  · split
    · exact ih.spines ctx _ _
    · exact .refl _
  · exact .refl _

theorem chains_succ (ih : UnifyGrows n) (ctx : Context) (l r : Chain) :
    (unifyChains (n + 1) ctx l r).Le (unifyChains (n + 2) ctx l r) := by
  unfold unifyChains
  split
  · exact .refl _
  · split
    · refine .bind (ih.value ctx .type _ _) fun _ => .bind (.refl _) fun ⟨ctx, v⟩ => ?_
      exact .bind (.applyChain _ v) fun c => .bind (.applyChain _ v) fun d => ih.chains ctx c d
    · exact .refl _
  · split
    · exact .bind (ih.value ctx .type _ _) fun _ => .bind (ih.value ctx _ _ _) fun _ =>
        ih.chains ctx _ _
    · exact .refl _
  · exact .refl _

theorem all (n : Nat) : UnifyGrows n := by
  induction n with
  | zero =>
    constructor <;> intros
    · rw [unify]; exact .outOfFuel _
    · rw [unifyForms]; exact .outOfFuel _
    · rw [unifyBinders]; exact .outOfFuel _
    · rw [unifyNeutrals]; exact .outOfFuel _
    · rw [unifyChains]; exact .outOfFuel _
  | succ n ih =>
    exact ⟨ih.value_succ, ih.forms_succ, ih.binders_succ, ih.spines_succ, ih.chains_succ⟩

end UnifyGrows

namespace Chain

theorem properties_grows (n : Nat) (images : List (Name × Name)) (c : Chain) :
    (c.properties n images).Le (c.properties (n + 1) images) := by
  induction n generalizing c with
  | zero =>
    intro r h
    rw [properties] at h
    cases h
  | succ n ih =>
    cases c with
    | nil => exact .refl _
    | declared label a rest =>
      rw [properties, properties]
      refine .bind (.refl _) fun x => .bind (.lift (rest.applyChain_grows n _)) fun c => ?_
      exact .bind (ih c) fun _ => .refl _
    | fulfilled label a v rest =>
      rw [properties, properties]
      exact .bind (ih rest) fun _ => .refl _

theorem seek_grows (n : Nat) (s : Solution) (ctx : Context) (label : Name) (c : Chain) :
    (c.seek n s ctx label).Le (c.seek (n + 1) s ctx label) := by
  induction n generalizing ctx c with
  | zero =>
    intro r h
    simp [seek] at h
  | succ n ih =>
    cases c with
    | nil => exact .refl _
    | declared k a rest =>
      rw [seek, seek]
      split
      · exact .refl _
      · exact .bind (rest.applyChain_grows n _) fun c => ih _ c
    | fulfilled k a v rest =>
      rw [seek, seek]
      split
      · exact .refl _
      · exact ih ctx rest

theorem isOrdered_grows (n : Nat) (c d : Chain) : (c.isOrdered n d).Le (c.isOrdered (n + 1) d) :=
  .bind (c.labels_grows n) fun _ => .bind (d.labels_grows n) fun _ => .refl _

end Chain

theorem includeEqual_grows (n : Nat) (ctx : Context) (sub super : Value) :
    (includeEqual n ctx sub super).Le (includeEqual (n + 1) ctx sub super) := by
  unfold includeEqual
  refine .bind (.reify ctx sub) fun l => .bind (.reify ctx super) fun r => ?_
  split
  · exact .refl _
  · refine .bind (.refl _) fun s => ?_
    split
    · exact .refl _
    · exact (UnifyGrows.all n).value ctx .type sub super

structure InclusionGrows (n : Nat) : Prop where
  types (ctx : Context) (sub super : Value) : (inclusion n ctx sub super).Le
    (inclusion (n + 1) ctx sub super)
  forms (ctx : Context) (sub super : Value) : (includeForms n ctx sub super).Le
    (includeForms (n + 1) ctx sub super)
  unordered (ctx : Context) (sub super : Chain) :
    (includeUnordered n ctx sub super).Le (includeUnordered (n + 1) ctx sub super)
  property (ctx : Context) (images : List (Name × Name)) (label : Name) (p q : Property) :
    (includeProperty n ctx images label p q).Le (includeProperty (n + 1) ctx images label p q)
  ordered (ctx : Context) (sub super : Chain) :
    (includeOrdered n ctx sub super).Le (includeOrdered (n + 1) ctx sub super)
  inStep (ctx : Context) (sub super : Chain) :
    (includeInStep n ctx sub super).Le (includeInStep (n + 1) ctx sub super)

namespace InclusionGrows

theorem types_succ (ih : InclusionGrows n) (ctx : Context) (sub super : Value) :
    (inclusion (n + 1) ctx sub super).Le (inclusion (n + 2) ctx sub super) := by
  unfold inclusion
  refine .bind (.force sub) fun sub => .bind (.force super) fun super =>
    .tryCatch (ih.forms ctx sub super) fun f => ?_
  exact .bind (.reify ctx sub) fun _ => .bind (.reify ctx super) fun _ => .refl _

theorem forms_succ (ih : InclusionGrows n) (ctx : Context) (sub super : Value) :
    (includeForms (n + 1) ctx sub super).Le (includeForms (n + 2) ctx sub super) := by
  unfold includeForms
  refine .bind (.refl _) fun s => ?_
  split
  · exact (UnifyGrows.all n).value ctx .type sub super
  · split
    · split
      · refine .bind (ih.types ctx _ _) fun _ => .bind (.refl _) fun ⟨ctx, v⟩ => ?_
        exact .bind (.apply _ v) fun b => .bind (.apply _ v) fun d => ih.types ctx b d
      · exact includeEqual_grows n ctx _ _
    · refine .bind (ih.types ctx _ _) fun _ => .bind (.refl _) fun ⟨ctx, v⟩ => ?_
      exact .bind (.apply _ v) fun b => .bind (.apply _ v) fun d => ih.types ctx b d
    · refine .bind (.lift (Chain.isOrdered_grows n _ _)) fun ordered => ?_
      split
      · exact ih.ordered ctx _ _
      · exact ih.unordered ctx _ _
    · refine .bind (ih.types ctx _ _) fun _ => ?_
      refine .bind (.judging fun s => (ConvertGrows.all s n).value ctx _ _ _) fun _ => ?_
      exact .judging fun s => (ConvertGrows.all s n).value ctx _ _ _
    · exact includeEqual_grows n ctx sub super

theorem unordered_succ (ih : InclusionGrows n) (ctx : Context) (sub super : Chain) :
    (includeUnordered (n + 1) ctx sub super).Le (includeUnordered (n + 2) ctx sub super) := by
  unfold includeUnordered
  refine .bind (.lift (sub.labels_grows n)) fun among =>
    .bind (.lift (super.labels_grows n)) fun labels => ?_
  refine .bind (.refl _) fun s => .bind (.refl _) fun _ => ?_
  refine .bind (.judging fun _ => sub.properties_grows n _) fun ps => ?_
  refine .bind (.judging fun _ => super.properties_grows n _) fun qs =>
    .bind (.refl _) fun ctx => ?_
  refine .forM (fun ⟨label, q⟩ => ?_) qs
  dsimp only
  split
  · exact .refl _
  · exact .within (ih.property ctx _ label _ q) _

theorem property_succ (ih : InclusionGrows n) (ctx : Context)
    (images : List (Name × Name)) (label : Name) (p q : Property) :
    (includeProperty (n + 1) ctx images label p q).Le
      (includeProperty (n + 2) ctx images label p q) := by
  unfold includeProperty
  refine .bind (ih.types ctx p.type q.type) fun _ => ?_
  split
  · exact (UnifyGrows.all n).value ctx _ _ _
  · exact .bind (.refl _) fun _ => .bind (.refl _) fun _ => (UnifyGrows.all n).value ctx _ _ _
  · exact .refl _
  · exact .refl _

theorem ordered_succ (ih : InclusionGrows n) (ctx : Context) (sub super : Chain) :
    (includeOrdered (n + 1) ctx sub super).Le (includeOrdered (n + 2) ctx sub super) := by
  unfold includeOrdered includeIfCovered
  refine .bind (.lift (sub.labels_grows n)) fun among =>
    .bind (.lift (super.labels_grows n)) fun labels => ?_
  dsimp only
  split
  · exact ih.inStep ctx sub super
  · exact .refl _

theorem inStep_succ (ih : InclusionGrows n) (ctx : Context) (sub super : Chain) :
    (includeInStep (n + 1) ctx sub super).Le (includeInStep (n + 2) ctx sub super) := by
  unfold includeInStep includeNext
  split
  · exact .refl _
  · refine .bind (.reading fun s => sub.seek_grows n s ctx _) ?_
    rintro ⟨ctx, found⟩
    cases found with
    | nil => exact .refl _
    | declared _ b subRest =>
      refine .bind (.within (ih.types ctx b _) _) fun _ => .bind (.refl _) ?_
      rintro ⟨ctx, v⟩
      exact .bind (.applyChain subRest v) fun sub => .bind (.applyChain _ v) fun super =>
        ih.inStep ctx sub super
    | fulfilled _ b v sub =>
      refine .bind (.within (ih.types ctx b _) _) fun _ => .bind (.refl _) fun x =>
        .bind (.refl _) fun var => ?_
      refine .bind (.within ((UnifyGrows.all n).value ctx b var v) _) fun _ => ?_
      exact .bind (.applyChain _ v) fun super => ih.inStep ctx sub super
  · refine .bind (.reading fun s => sub.seek_grows n s ctx _) ?_
    rintro ⟨ctx, found⟩
    cases found with
    | nil => exact .refl _
    | declared => exact .refl _
    | fulfilled _ b v sub =>
      refine .bind
        (.within (.bind (ih.types ctx b _) fun _ => (UnifyGrows.all n).value ctx b _ v) _) fun _ =>
        ?_
      exact ih.inStep ctx sub _

theorem all (n : Nat) : InclusionGrows n := by
  induction n with
  | zero =>
    constructor <;> intros
    · rw [inclusion]; exact .outOfFuel _
    · rw [includeForms]; exact .outOfFuel _
    · rw [includeUnordered]; exact .outOfFuel _
    · rw [includeProperty]; exact .outOfFuel _
    · rw [includeOrdered]; exact .outOfFuel _
    · rw [includeInStep]; exact .outOfFuel _
  | succ n ih =>
    exact ⟨ih.types_succ, ih.forms_succ, ih.unordered_succ, ih.property_succ,
      ih.ordered_succ, ih.inStep_succ⟩

end InclusionGrows

/-- What is refused with some amount of fuel succeeds with none. -/
theorem Solver.not_yields_of_refuses {α : Type} {x : Nat → Solver α}
    (hx : ∀ n, (x n).Le (x (n + 1))) {n : Nat} {s : Solution} (h : (x n).refuses s) (m : Nat)
    (a : α) (s' : Solution) : ¬ (x m).Yields s a s' := by
  intro hyields
  obtain ⟨f, s₁, hrefused⟩ := Solver.run_of_refuses h
  cases Eval.eq_of_ok (fun n => hx n s) hrefused hyields

/-- Inclusion has one answer, whatever depth it is allowed. -/
theorem inclusion_unique {n m : Nat} {ctx : Context} {sub super : Value} {s : Solution}
    {r r' : Except Failure Unit × Solution} (hr : (inclusion n ctx sub super).run.run s = .ok r)
    (hr' : (inclusion m ctx sub super).run.run s = .ok r') : r = r' :=
  Eval.eq_of_ok (fun n => (InclusionGrows.all n).types ctx sub super s) hr hr'

end

end DependentClasses
