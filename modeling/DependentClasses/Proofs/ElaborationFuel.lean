import DependentClasses.Elaboration
import DependentClasses.Proofs.SolverFuel

/-! More fuel keeps what elaboration finds, be it a term or a refusal. -/
namespace DependentClasses

namespace Solver.Le

variable {α β : Type} {n : Nat}

theorem locating {x y : Solver α} (h : x.Le y) (span : Span) :
    Le (Solver.locating span x) (Solver.locating span y) :=
  adapt h

theorem evaluate (ctx : Context) (t : Term) :
    Le (Solver.evaluate n ctx t) (Solver.evaluate (n + 1) ctx t) :=
  reading fun _ => (EvalGrows.all n).eval _ t

theorem reifyChain (ctx : Context) (c : Chain) :
    Le (Solver.reifyChain n ctx c) (Solver.reifyChain (n + 1) ctx c) :=
  reading fun s => (ReifyGrows.all s n).chain _ c

theorem expected (ctx : Context) (former : Former) (a : Value) :
    Le (DependentClasses.expected n ctx former a : Solver α)
      (DependentClasses.expected (n + 1) ctx former a) :=
  bind (.reify ctx a) fun _ => .refl _

theorem mapM {g g' : α → Solver β} (h : ∀ a, (g a).Le (g' a)) (xs : List α) :
    Le (xs.mapM g) (xs.mapM g') := by
  induction xs with
  | nil => exact .refl _
  | cons a xs ih =>
    rw [List.mapM_cons, List.mapM_cons]
    exact bind (h a) fun _ => bind ih fun _ => .refl _

end Solver.Le

theorem applyImplicits_grows (n : Nat) (ctx : Context) (i : Inferred) :
    (applyImplicits n ctx i).Le (applyImplicits (n + 1) ctx i) := by
  induction n generalizing i with
  | zero => exact .outOfFuel _
  | succ n ih =>
    unfold applyImplicits
    refine .bind (.force i.type) fun a => ?_
    split
    · exact .bind (.refl _) fun _ => .bind (.refl _) fun _ => .bind (.apply _ _) fun _ => ih _
    · exact .refl _

structure ElaborationGrows (n : Nat) : Prop where
  infer (ctx : Context) (e : Expr) : (infer n ctx e).Le (infer (n + 1) ctx e)
  check (ctx : Context) (e : Expr) (a : Value) : (check n ctx e a).Le (check (n + 1) ctx e a)
  checkType (ctx : Context) (e : Expr) : (checkType n ctx e).Le (checkType (n + 1) ctx e)
  inferForm (ctx : Context) (form : Form) : (inferForm n ctx form).Le (inferForm (n + 1) ctx form)
  inferLet (ctx : Context) (label : Name) (type : Option Expr) (value : Expr) :
    (inferLet n ctx label type value).Le (inferLet (n + 1) ctx label type value)
  inferBinder (ctx : Context) (label : Name) (domain codomain : Expr) :
    (inferBinder n ctx label domain codomain).Le (inferBinder (n + 1) ctx label domain codomain)
  inferFn (ctx : Context) (p : Plicity) (label : Name) (domain body : Expr) :
    (inferFn n ctx p label domain body).Le (inferFn (n + 1) ctx p label domain body)
  checkForm (ctx : Context) (e : Expr) (a : Value) : (checkForm n ctx e a).Le
    (checkForm (n + 1) ctx e a)
  checkInferred (ctx : Context) (e : Expr) (a : Value) : (checkInferred n ctx e a).Le
    (checkInferred (n + 1) ctx e a)
  checkFn (ctx : Context) (p : Plicity) (label : Name) (domain : Option Expr) (body : Expr)
    (a : Value) (b : Closure) :
    (checkFn n ctx p label domain body a b).Le (checkFn (n + 1) ctx p label domain body a b)
  inferTarget (ctx : Context) (target : Expr) : (inferTarget n ctx target).Le
    (inferTarget (n + 1) ctx target)
  checkFields (ctx : Context) (fields : List (Name × Expr)) (c : Chain) :
    (checkFields n ctx fields c).Le (checkFields (n + 1) ctx fields c)
  checkAlong (ctx : Context) (fields : List (Name × Expr)) (c : Chain) :
    (checkAlong n ctx fields c).Le (checkAlong (n + 1) ctx fields c)
  checkArgs (ctx : Context) (args : List Expr) (c : Chain) : (checkArgs n ctx args c).Le
    (checkArgs (n + 1) ctx args c)
  checkArgsAlong (ctx : Context) (args : List Expr) (c : Chain) :
    (checkArgsAlong n ctx args c).Le (checkArgsAlong (n + 1) ctx args c)
  checkClassArg (ctx : Context) (c : Chain) (arg : Expr) : (checkClassArg n ctx c arg).Le
    (checkClassArg (n + 1) ctx c arg)
  fulfilNext (ctx : Context) (c : Chain) (arg : Expr) : (fulfilNext n ctx c arg).Le
    (fulfilNext (n + 1) ctx c arg)
  checkClass (ctx : Context) (members : List Member) : (checkClass n ctx members).Le
    (checkClass (n + 1) ctx members)
  checkMembers (ctx : Context) (members : List Member) : (checkMembers n ctx members).Le
    (checkMembers (n + 1) ctx members)

namespace ElaborationGrows

variable {n : Nat}

theorem infer_succ (ih : ElaborationGrows n) (ctx : Context) (e : Expr) :
    (DependentClasses.infer (n + 1) ctx e).Le (DependentClasses.infer (n + 2) ctx e) := by
  rw [DependentClasses.infer, DependentClasses.infer]
  exact .locating (ih.inferForm ctx e.form) _

theorem check_succ (ih : ElaborationGrows n) (ctx : Context) (e : Expr) (a : Value) :
    (DependentClasses.check (n + 1) ctx e a).Le (DependentClasses.check (n + 2) ctx e a) := by
  rw [DependentClasses.check, DependentClasses.check]
  exact .locating (ih.checkForm ctx e a) _

theorem checkType_succ (ih : ElaborationGrows n) (ctx : Context) (e : Expr) :
    (DependentClasses.checkType (n + 1) ctx e).Le (DependentClasses.checkType (n + 2) ctx e) := by
  rw [DependentClasses.checkType, DependentClasses.checkType]
  exact .bind (ih.check ctx e _) fun t => .bind (.evaluate ctx t) fun _ => .refl _

/-- A function is applied to an argument of its domain. -/
theorem applied (ih : ElaborationGrows n) (ctx : Context) (p : Plicity) (f : Term) (arg : Expr)
    (a : Value) (b : Closure) :
    Solver.Le
      (do
        let arg ← DependentClasses.check n ctx arg a
        let v ← Solver.evaluate n ctx arg
        let b ← b.apply n v
        pure (⟨.app p f arg, b⟩ : Inferred))
      (do
        let arg ← DependentClasses.check (n + 1) ctx arg a
        let v ← Solver.evaluate (n + 1) ctx arg
        let b ← b.apply (n + 1) v
        pure ⟨.app p f arg, b⟩) :=
  .bind (ih.check ctx arg a) fun t => .bind (.evaluate ctx t) fun v =>
    .bind (.apply b v) fun _ => .refl _

theorem inferForm_succ (ih : ElaborationGrows n) (ctx : Context) (form : Form) :
    (DependentClasses.inferForm (n + 1) ctx form).Le
      (DependentClasses.inferForm (n + 2) ctx form) := by
  unfold DependentClasses.inferForm
  cases form with
  | var | type | cons | string | quote | trivial | sole => exact .refl _
  | pi p label domain codomain =>
    exact .bind (ih.inferBinder ctx label domain codomain) fun _ => .refl _
  | sigma label carType cdrType =>
    exact .bind (ih.inferBinder ctx label carType cdrType) fun _ => .refl _
  | fn p label domain body =>
    cases domain with
    | none => exact .refl _
    | some domain => exact ih.inferFn ctx p label domain body
  | app p target arg =>
    cases p with
    | explicit =>
      refine .bind (ih.infer ctx target) fun f => .bind (applyImplicits_grows n ctx f) fun f =>
        .bind (.force f.type) fun a => ?_
      split
      · exact ih.applied ctx _ _ arg _ _
      · refine .bind (.evaluate ctx f.term) fun v => .bind (.force v) fun v => ?_
        split
        · exact .bind (ih.checkClassArg ctx _ arg) fun c =>
            .bind (.reifyChain ctx c) fun _ => .refl _
        · exact .expected ctx _ _
      · exact .expected ctx _ _
    | implicit =>
      refine .bind (ih.infer ctx target) fun f => .bind (.force f.type) fun a => ?_
      split
      · exact ih.applied ctx _ _ arg _ _
      · exact .expected ctx _ _
  | car pair =>
    refine .bind (ih.infer ctx pair) fun p => .bind (.force p.type) fun a => ?_
    split
    · exact .refl _
    · exact .expected ctx _ _
  | cdr pair =>
    refine .bind (ih.infer ctx pair) fun p => .bind (.force p.type) fun a => ?_
    split
    · exact .bind (.evaluate ctx p.term) fun v => .bind (.refl _) fun _ =>
        .bind (.apply _ _) fun _ => .refl _
    · exact .expected ctx _ _
  | equal type left right =>
    refine .bind (ih.checkType ctx type) fun t => ?_
    exact .bind (ih.check ctx left _) fun _ => .bind (ih.check ctx right _) fun _ => .refl _
  | same value =>
    exact .bind (ih.infer ctx value) fun i => .bind (.evaluate ctx i.term) fun _ => .refl _
  | classOf members => exact .bind (ih.checkClass ctx members) fun _ => .refl _
  | object fields =>
    refine .bind (.refl _) fun _ => .bind (.mapM (fun f => ?_) fields) fun _ => .refl _
    exact .bind (.within (ih.infer ctx f.2) _) fun i =>
      .bind (.evaluate ctx i.term) fun _ => .refl _
  | dot target label =>
    refine .bind (ih.infer ctx target) fun i => .bind (.force i.type) fun a => ?_
    split
    · refine .bind (.evaluate ctx i.term) fun v =>
        .bind (.lift (Chain.typeOf_grows n _ v label)) fun b => ?_
      cases b with
      | none => exact .bind (.reifyChain ctx _) fun _ => .refl _
      | some => exact .refl _
    · exact .expected ctx _ _
  | new target fields =>
    exact .bind (ih.inferTarget ctx target) fun c =>
      .bind (ih.checkFields ctx fields c) fun _ => .refl _
  | newWith target args =>
    exact .bind (ih.inferTarget ctx target) fun c =>
      .bind (ih.checkArgs ctx args c) fun _ => .refl _
  | the type value =>
    exact .bind (ih.checkType ctx type) fun t => .bind (ih.check ctx value _) fun _ => .refl _
  | letIn label type value body =>
    exact .bind (ih.inferLet ctx label type value) fun d =>
      .bind (ih.infer d.1 body) fun _ => .refl _

theorem inferLet_succ (ih : ElaborationGrows n) (ctx : Context) (label : Name) (type : Option Expr)
    (value : Expr) :
    (DependentClasses.inferLet (n + 1) ctx label type value).Le
      (DependentClasses.inferLet (n + 2) ctx label type value) := by
  unfold DependentClasses.inferLet
  cases type with
  | none =>
    refine .bind (ih.infer ctx value) fun i => .bind (.reify ctx i.type) fun _ => ?_
    exact .bind (.refl _) fun d => .bind (.evaluate ctx d.2.2) fun _ => .refl _
  | some type =>
    refine .bind (ih.checkType ctx type) fun t => .bind (ih.check ctx value _) fun _ => ?_
    exact .bind (.refl _) fun d => .bind (.evaluate ctx d.2.2) fun _ => .refl _

theorem inferBinder_succ (ih : ElaborationGrows n) (ctx : Context) (label : Name)
    (domain codomain : Expr) :
    (DependentClasses.inferBinder (n + 1) ctx label domain codomain).Le
      (DependentClasses.inferBinder (n + 2) ctx label domain codomain) := by
  unfold DependentClasses.inferBinder
  refine .bind (ih.checkType ctx domain) fun t => .bind (.refl _) fun inner => ?_
  exact .bind (ih.check inner.1 codomain _) fun _ => .refl _

theorem inferFn_succ (ih : ElaborationGrows n) (ctx : Context) (p : Plicity) (label : Name)
    (domain body : Expr) :
    (DependentClasses.inferFn (n + 1) ctx p label domain body).Le
      (DependentClasses.inferFn (n + 2) ctx p label domain body) := by
  unfold DependentClasses.inferFn
  refine .bind (ih.checkType ctx domain) fun t => .bind (.refl _) fun inner =>
    .bind (ih.infer inner.1 body) fun i => ?_
  exact .bind (.reify inner.1 i.type) fun _ => .bind (.evaluate ctx _) fun _ => .refl _

theorem checkForm_succ (ih : ElaborationGrows n) (ctx : Context) (e : Expr) (a : Value) :
    (DependentClasses.checkForm (n + 1) ctx e a).Le
      (DependentClasses.checkForm (n + 2) ctx e a) := by
  unfold DependentClasses.checkForm
  refine .bind (.force a) fun a => ?_
  split
  · split
    · exact ih.checkFn ctx _ _ _ _ _ _
    · refine .bind (.refl _) fun inner => .bind (.apply _ _) fun c =>
        .bind (ih.check inner.1 e c) fun _ => ?_
      exact .bind (.reify ctx _) fun _ => .refl _
    · exact ih.checkInferred ctx e _
  · split
    · exact ih.checkFn ctx _ _ _ _ _ _
    · exact ih.checkInferred ctx e _
  · split
    · refine .bind (ih.check ctx _ _) fun x => .bind (.evaluate ctx x) fun v =>
        .bind (.apply _ v) fun c => ?_
      exact .bind (ih.check ctx _ c) fun _ => .refl _
    · exact ih.checkInferred ctx e _
  · split
    · exact ih.checkFields ctx _ _
    · exact ih.checkInferred ctx e _
  · split
    · exact ih.checkClass ctx _
    · exact ih.checkInferred ctx e _
  · exact .bind (ih.inferLet ctx _ _ _) fun d => .bind (ih.check d.1 _ a) fun _ => .refl _
  · exact ih.checkInferred ctx e a

theorem checkInferred_succ (ih : ElaborationGrows n) (ctx : Context) (e : Expr) (a : Value) :
    (DependentClasses.checkInferred (n + 1) ctx e a).Le
      (DependentClasses.checkInferred (n + 2) ctx e a) := by
  unfold DependentClasses.checkInferred
  refine .bind (ih.infer ctx e) fun i => ?_
  split
  · exact .bind (.refl _) fun i =>
      .bind ((InclusionGrows.all n).types ctx i.type _) fun _ => .refl _
  · exact .bind (applyImplicits_grows n ctx i) fun i =>
      .bind ((InclusionGrows.all n).types ctx _ _) fun _ => .refl _

theorem checkFn_succ (ih : ElaborationGrows n) (ctx : Context) (p : Plicity) (label : Name)
    (domain : Option Expr) (body : Expr) (a : Value) (b : Closure) :
    (DependentClasses.checkFn (n + 1) ctx p label domain body a b).Le
      (DependentClasses.checkFn (n + 2) ctx p label domain body a b) := by
  have hbody : Solver.Le
      (do
        let r ← bindFresh ctx label a
        let b ← b.apply n (.variable a r.2)
        let body ← DependentClasses.check n r.1 body b
        let a ← Solver.reify n ctx a
        pure (Term.fn p r.2 a body))
      (do
        let r ← bindFresh ctx label a
        let b ← b.apply (n + 1) (.variable a r.2)
        let body ← DependentClasses.check (n + 1) r.1 body b
        let a ← Solver.reify (n + 1) ctx a
        pure (Term.fn p r.2 a body)) := by
    refine .bind (.refl _) fun r => .bind (.apply b _) fun b =>
      .bind (ih.check r.1 body b) fun _ => ?_
    exact .bind (.reify ctx a) fun _ => .refl _
  unfold DependentClasses.checkFn
  cases domain with
  | none => exact hbody
  | some domain =>
    exact .bind (ih.checkType ctx domain) fun _ =>
      .bind ((InclusionGrows.all n).types ctx a _) fun _ => hbody

theorem inferTarget_succ (ih : ElaborationGrows n) (ctx : Context) (target : Expr) :
    (DependentClasses.inferTarget (n + 1) ctx target).Le
      (DependentClasses.inferTarget (n + 2) ctx target) := by
  unfold DependentClasses.inferTarget
  refine .bind (ih.checkType ctx target) fun t => .bind (.force t.2) fun a => ?_
  split
  · exact .refl _
  · exact .locating (.expected ctx _ _) _

theorem checkFields_succ (ih : ElaborationGrows n) (ctx : Context)
    (fields : List (Name × Expr)) (c : Chain) :
    (DependentClasses.checkFields (n + 1) ctx fields c).Le
      (DependentClasses.checkFields (n + 2) ctx fields c) := by
  unfold DependentClasses.checkFields
  refine .bind (.refl _) fun _ => .bind (ih.checkAlong ctx fields c) fun known =>
    .bind (.mapM (fun f => ?_) _) fun _ => .refl _
  exact .bind (.within (ih.infer ctx f.2) _) fun _ => .refl _

theorem checkAlong_succ (ih : ElaborationGrows n) (ctx : Context)
    (fields : List (Name × Expr)) (c : Chain) :
    (DependentClasses.checkAlong (n + 1) ctx fields c).Le
      (DependentClasses.checkAlong (n + 2) ctx fields c) := by
  unfold DependentClasses.checkAlong
  cases c with
  | nil => exact .refl _
  | declared label a rest =>
    dsimp only
    cases fields.lookup label with
    | none => exact .refl _
    | some e =>
      refine .bind (.within (ih.check ctx e a) _) fun t => .bind (.evaluate ctx t) fun v =>
        .bind (.applyChain rest v) fun c => ?_
      exact .bind (ih.checkAlong ctx fields c) fun _ => .refl _
  | fulfilled label a w rest =>
    dsimp only
    cases fields.lookup label with
    | none =>
      exact .bind (.reify ctx w) fun _ => .bind (ih.checkAlong ctx fields rest) fun _ => .refl _
    | some e =>
      refine .bind
          (.within (.bind (ih.check ctx e a) fun t => .bind (.evaluate ctx t) fun v => ?_)
          _) fun _ =>
        .bind (ih.checkAlong ctx fields rest) fun _ => .refl _
      exact .bind (.judging fun s => (ConvertGrows.all s n).value ctx a w v) fun _ => .refl _

theorem checkArgs_succ (ih : ElaborationGrows n) (ctx : Context) (args : List Expr) (c : Chain) :
    (DependentClasses.checkArgs (n + 1) ctx args c).Le
      (DependentClasses.checkArgs (n + 2) ctx args c) := by
  unfold DependentClasses.checkArgs
  refine .bind (ih.checkArgsAlong ctx args c) fun r => ?_
  obtain ⟨known, unused⟩ := r
  cases unused with
  | nil => exact .refl _
  | cons arg args => exact .locating (.bind (.reifyChain ctx c) fun _ => .refl _) _

theorem checkArgsAlong_succ (ih : ElaborationGrows n) (ctx : Context)
    (args : List Expr) (c : Chain) :
    (DependentClasses.checkArgsAlong (n + 1) ctx args c).Le
      (DependentClasses.checkArgsAlong (n + 2) ctx args c) := by
  unfold DependentClasses.checkArgsAlong
  cases c with
  | nil => exact .refl _
  | declared label a rest =>
    cases args with
    | nil => exact .refl _
    | cons arg args =>
      refine .bind (.within (ih.check ctx arg a) _) fun t => .bind (.evaluate ctx t) fun v =>
        .bind (.applyChain rest v) fun c => ?_
      exact .bind (ih.checkArgsAlong ctx args c) fun _ => .refl _
  | fulfilled label a w rest =>
    exact .bind (.reify ctx w) fun _ => .bind (ih.checkArgsAlong ctx args rest) fun _ => .refl _

theorem checkClassArg_succ (ih : ElaborationGrows n) (ctx : Context) (c : Chain) (arg : Expr) :
    (DependentClasses.checkClassArg (n + 1) ctx c arg).Le
      (DependentClasses.checkClassArg (n + 2) ctx c arg) := by
  unfold DependentClasses.checkClassArg
  refine .bind (ih.fulfilNext ctx c arg) fun r => ?_
  cases r with
  | none => exact .locating (.bind (.reifyChain ctx c) fun _ => .refl _) _
  | some d => exact .refl _

theorem fulfilNext_succ (ih : ElaborationGrows n) (ctx : Context) (c : Chain) (arg : Expr) :
    (DependentClasses.fulfilNext (n + 1) ctx c arg).Le
      (DependentClasses.fulfilNext (n + 2) ctx c arg) := by
  unfold DependentClasses.fulfilNext
  cases c with
  | nil => exact .refl _
  | declared label a rest =>
    refine .bind (.within (ih.check ctx arg a) _) fun t => .bind (.evaluate ctx t) fun v => ?_
    exact .bind (.applyChain rest v) fun _ => .refl _
  | fulfilled label a v rest => exact .bind (ih.fulfilNext ctx rest arg) fun _ => .refl _

theorem checkClass_succ (ih : ElaborationGrows n) (ctx : Context) (members : List Member) :
    (DependentClasses.checkClass (n + 1) ctx members).Le
      (DependentClasses.checkClass (n + 2) ctx members) := by
  unfold DependentClasses.checkClass
  exact .bind (.refl _) fun _ => ih.checkMembers ctx members

theorem checkMembers_succ (ih : ElaborationGrows n) (ctx : Context) (members : List Member) :
    (DependentClasses.checkMembers (n + 1) ctx members).Le
      (DependentClasses.checkMembers (n + 2) ctx members) := by
  unfold DependentClasses.checkMembers
  cases members with
  | nil => exact .refl _
  | cons m members =>
    cases m with
    | declared label type =>
      refine .bind (.within (ih.check ctx type _) _) fun t => .bind (.evaluate ctx t) fun a =>
        .bind (.refl _) fun inner => ?_
      exact .bind (ih.checkMembers inner.1 members) fun _ => .refl _
    | fulfilled label type value =>
      cases type with
      | none =>
        refine .bind (.within (ih.infer ctx value) _) fun i => .bind (.reify ctx i.type) fun _ =>
          .bind (.refl _) fun d => ?_
        exact .bind (.evaluate ctx d.2.2) fun w => .bind (.refl _) fun x =>
          .bind (ih.checkMembers _ members) fun _ => .refl _
      | some type =>
        refine .bind (.within (ih.check ctx type _) _) fun t => .bind (.evaluate ctx t) fun a => ?_
        refine .bind (.within (ih.check ctx value a) _) fun v => .bind (.refl _) fun d => ?_
        exact .bind (.evaluate ctx d.2.2) fun w => .bind (.refl _) fun x =>
          .bind (ih.checkMembers _ members) fun _ => .refl _

theorem all (n : Nat) : ElaborationGrows n := by
  induction n with
  | zero => constructor <;> intros <;> exact .outOfFuel _
  | succ n ih =>
    exact ⟨ih.infer_succ, ih.check_succ, ih.checkType_succ, ih.inferForm_succ, ih.inferLet_succ,
      ih.inferBinder_succ,
      ih.inferFn_succ, ih.checkForm_succ, ih.checkInferred_succ, ih.checkFn_succ,
        ih.inferTarget_succ, ih.checkFields_succ,
      ih.checkAlong_succ, ih.checkArgs_succ, ih.checkArgsAlong_succ, ih.checkClassArg_succ,
        ih.fulfilNext_succ,
      ih.checkClass_succ, ih.checkMembers_succ⟩

end ElaborationGrows

end DependentClasses
