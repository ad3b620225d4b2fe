import DependentClasses.Proofs.Relisting

/-! Elaboration under another listing. It finds the same terms, and is refused for the same reason
but for the name that is told. -/
namespace DependentClasses

open Solver (Indifferent)

namespace Solver.Indifferent

theorem expected {α : Type} (n : Nat) (ctx : Context) (former : Former) (a : Value) :
    Indifferent (DependentClasses.expected n ctx former a : Solver α) :=
  bind (.reify n ctx a) fun _ => .refuse _

theorem checkDistinct (labels : List Name) :
    Indifferent (DependentClasses.checkDistinct labels) := by
  unfold DependentClasses.checkDistinct
  split
  · exact .refuse _
  · exact .pure _

theorem bindFresh (ctx : Context) (label : Name) (a : Value) :
    Indifferent (DependentClasses.bindFresh ctx label a) :=
  bind (.freshName ctx label) fun _ => .pure _

theorem applyImplicits (n : Nat) (ctx : Context) (i : Inferred) :
    Indifferent (DependentClasses.applyImplicits n ctx i) := by
  induction n generalizing i with
  | zero => exact .outOfFuel
  | succ n ih =>
    unfold DependentClasses.applyImplicits
    refine .bind (.force n i.type) fun a => ?_
    split
    · refine .bind (.freshName ctx _) fun x => .bind (.create ctx x _) fun v => ?_
      exact .bind (.lift _) fun _ => ih _
    · exact .pure _

end Solver.Indifferent

structure ElaborationIndifferent (n : Nat) : Prop where
  infer (ctx : Context) (e : Expr) : Indifferent (infer n ctx e)
  check (ctx : Context) (e : Expr) (a : Value) : Indifferent (check n ctx e a)
  checkType (ctx : Context) (e : Expr) : Indifferent (checkType n ctx e)
  inferForm (ctx : Context) (form : Form) : Indifferent (inferForm n ctx form)
  inferLet (ctx : Context) (label : Name) (type : Option Expr) (value : Expr) :
    Indifferent (inferLet n ctx label type value)
  inferBinder (ctx : Context) (label : Name) (domain codomain : Expr) :
    Indifferent (inferBinder n ctx label domain codomain)
  inferFn (ctx : Context) (p : Plicity) (label : Name) (domain body : Expr) :
    Indifferent (inferFn n ctx p label domain body)
  checkForm (ctx : Context) (e : Expr) (a : Value) : Indifferent (checkForm n ctx e a)
  checkInferred (ctx : Context) (e : Expr) (a : Value) : Indifferent (checkInferred n ctx e a)
  checkFn (ctx : Context) (p : Plicity) (label : Name) (domain : Option Expr) (body : Expr)
    (a : Value) (b : Closure) : Indifferent (checkFn n ctx p label domain body a b)
  inferTarget (ctx : Context) (target : Expr) : Indifferent (inferTarget n ctx target)
  checkFields (ctx : Context) (fields : List (Name × Expr)) (c : Chain) :
    Indifferent (checkFields n ctx fields c)
  checkAlong (ctx : Context) (fields : List (Name × Expr)) (c : Chain) :
    Indifferent (checkAlong n ctx fields c)
  checkArgs (ctx : Context) (args : List Expr) (c : Chain) : Indifferent (checkArgs n ctx args c)
  checkArgsAlong (ctx : Context) (args : List Expr) (c : Chain) :
    Indifferent (checkArgsAlong n ctx args c)
  checkClassArg (ctx : Context) (c : Chain) (arg : Expr) : Indifferent (checkClassArg n ctx c arg)
  fulfilNext (ctx : Context) (c : Chain) (arg : Expr) : Indifferent (fulfilNext n ctx c arg)
  checkClass (ctx : Context) (members : List Member) : Indifferent (checkClass n ctx members)
  checkMembers (ctx : Context) (members : List Member) : Indifferent (checkMembers n ctx members)

namespace ElaborationIndifferent

variable {n : Nat} (ih : ElaborationIndifferent n) (ctx : Context)

include ih

theorem infer_succ (e : Expr) : Indifferent (DependentClasses.infer (n + 1) ctx e) := by
  rw [DependentClasses.infer]
  exact .locating (ih.inferForm ctx e.form) _

theorem check_succ (e : Expr) (a : Value) :
    Indifferent (DependentClasses.check (n + 1) ctx e a) := by
  rw [DependentClasses.check]
  exact .locating (ih.checkForm ctx e a) _

theorem checkType_succ (e : Expr) : Indifferent (DependentClasses.checkType (n + 1) ctx e) := by
  rw [DependentClasses.checkType]
  exact .bind (ih.check ctx e _) fun t => .bind (.evaluate n ctx t) fun _ => .pure _

/-- A function is applied to an argument of its domain. -/
theorem applied (p : Plicity) (f : Term) (arg : Expr) (a : Value) (b : Closure) :
    Indifferent (do
      let arg ← DependentClasses.check n ctx arg a
      let v ← Solver.evaluate n ctx arg
      let b ← b.apply n v
      pure (⟨.app p f arg, b⟩ : Inferred)) :=
  .bind (ih.check ctx arg a) fun t => .bind (.evaluate n ctx t) fun _ =>
    .bind (.lift _) fun _ => .pure _

theorem inferForm_succ (form : Form) :
    Indifferent (DependentClasses.inferForm (n + 1) ctx form) := by
  unfold DependentClasses.inferForm
  cases form with
  | type | string | quote | trivial | sole => exact .pure _
  | cons => exact .refuse _
  | var label =>
    dsimp only
    cases ctx.find label with
    | none => exact .refuse _
    | some e => exact .pure _
  | pi p label domain codomain =>
    exact .bind (ih.inferBinder ctx label domain codomain) fun _ => .pure _
  | sigma label carType cdrType =>
    exact .bind (ih.inferBinder ctx label carType cdrType) fun _ => .pure _
  | fn p label domain body =>
    cases domain with
    | none => exact .refuse _
    | some domain => exact ih.inferFn ctx p label domain body
  | app p target arg =>
    cases p with
    | explicit =>
      refine .bind (ih.infer ctx target) fun f => .bind (.applyImplicits n ctx f) fun f => ?_
      refine .bind (.force n f.type) fun a => ?_
      split
      · exact ih.applied ctx _ _ arg _ _
      · refine .bind (.evaluate n ctx f.term) fun v => .bind (.force n v) fun v => ?_
        split
        · exact .bind (ih.checkClassArg ctx _ arg) fun c =>
            .bind (.reifyChain n ctx c) fun _ => .pure _
        · exact .expected n ctx _ _
      · exact .expected n ctx _ _
    | implicit =>
      refine .bind (ih.infer ctx target) fun f => .bind (.force n f.type) fun a => ?_
      split
      · exact ih.applied ctx _ _ arg _ _
      · exact .expected n ctx _ _
  | car pair =>
    refine .bind (ih.infer ctx pair) fun p => .bind (.force n p.type) fun a => ?_
    split
    · exact .pure _
    · exact .expected n ctx _ _
  | cdr pair =>
    refine .bind (ih.infer ctx pair) fun p => .bind (.force n p.type) fun a => ?_
    split
    · refine .bind (.evaluate n ctx p.term) fun v => ?_
      exact .bind (.lift _) fun _ => .bind (.lift _) fun _ => .pure _
    · exact .expected n ctx _ _
  | equal type left right =>
    refine .bind (ih.checkType ctx type) fun t => ?_
    exact .bind (ih.check ctx left _) fun _ => .bind (ih.check ctx right _) fun _ => .pure _
  | same value =>
    exact .bind (ih.infer ctx value) fun i => .bind (.evaluate n ctx i.term) fun _ => .pure _
  | classOf members => exact .bind (ih.checkClass ctx members) fun _ => .pure _
  | object fields =>
    refine .bind (.checkDistinct _) fun _ => .bind (.mapM (fun f => ?_) fields) fun _ => .pure _
    exact .bind (.within (ih.infer ctx f.2) _) fun i =>
      .bind (.evaluate n ctx i.term) fun _ => .pure _
  | dot target label =>
    refine .bind (ih.infer ctx target) fun i => .bind (.force n i.type) fun a => ?_
    split
    · refine .bind (.evaluate n ctx i.term) fun v => .bind (.lift _) fun b => ?_
      cases b with
      | none => exact .bind (.reifyChain n ctx _) fun _ => .refuse _
      | some => exact .pure _
    · exact .expected n ctx _ _
  | new target fields =>
    exact .bind (ih.inferTarget ctx target) fun c =>
      .bind (ih.checkFields ctx fields c) fun _ => .pure _
  | newWith target args =>
    exact .bind (ih.inferTarget ctx target) fun c =>
      .bind (ih.checkArgs ctx args c) fun _ => .pure _
  | the type value =>
    exact .bind (ih.checkType ctx type) fun _ => .bind (ih.check ctx value _) fun _ => .pure _
  | letIn label type value body =>
    exact .bind (ih.inferLet ctx label type value) fun d =>
      .bind (ih.infer d.1 body) fun _ => .pure _

theorem inferLet_succ (label : Name) (type : Option Expr) (value : Expr) :
    Indifferent (DependentClasses.inferLet (n + 1) ctx label type value) := by
  unfold DependentClasses.inferLet
  have hdefined (d : Term × Value × Term) : Indifferent (do
      let w ← Solver.evaluate n ctx d.2.2
      let x ← Solver.freshName ctx label
      pure (ctx.define label x d.2.1 w, x, d.1, d.2.2)) :=
    .bind (.evaluate n ctx _) fun _ => .bind (.freshName ctx label) fun _ => .pure _
  cases type with
  | none =>
    refine .bind (ih.infer ctx value) fun i => .bind (.reify n ctx i.type) fun _ => ?_
    exact .bind (.pure _) hdefined
  | some type =>
    refine .bind (ih.checkType ctx type) fun _ => .bind (ih.check ctx value _) fun _ => ?_
    exact .bind (.pure _) hdefined

theorem inferBinder_succ (label : Name) (domain codomain : Expr) :
    Indifferent (DependentClasses.inferBinder (n + 1) ctx label domain codomain) := by
  unfold DependentClasses.inferBinder
  refine .bind (ih.checkType ctx domain) fun t => .bind (.bindFresh ctx label _) fun inner => ?_
  exact .bind (ih.check inner.1 codomain _) fun _ => .pure _

theorem inferFn_succ (p : Plicity) (label : Name) (domain body : Expr) :
    Indifferent (DependentClasses.inferFn (n + 1) ctx p label domain body) := by
  unfold DependentClasses.inferFn
  refine .bind (ih.checkType ctx domain) fun t => .bind (.bindFresh ctx label _) fun inner => ?_
  refine .bind (ih.infer inner.1 body) fun i => .bind (.reify n inner.1 i.type) fun _ => ?_
  exact .bind (.evaluate n ctx _) fun _ => .pure _

theorem checkForm_succ (e : Expr) (a : Value) :
    Indifferent (DependentClasses.checkForm (n + 1) ctx e a) := by
  unfold DependentClasses.checkForm
  refine .bind (.force n a) fun a => ?_
  split
  · split
    · exact ih.checkFn ctx _ _ _ _ _ _
    · refine .bind (.bindFresh ctx _ _) fun inner => .bind (.lift _) fun c => ?_
      exact .bind (ih.check inner.1 e c) fun _ => .bind (.reify n ctx _) fun _ => .pure _
    · exact ih.checkInferred ctx e _
  · split
    · exact ih.checkFn ctx _ _ _ _ _ _
    · exact ih.checkInferred ctx e _
  · split
    · refine .bind (ih.check ctx _ _) fun x => .bind (.evaluate n ctx x) fun v =>
        .bind (.lift _) fun c => ?_
      exact .bind (ih.check ctx _ c) fun _ => .pure _
    · exact ih.checkInferred ctx e _
  · split
    · exact ih.checkFields ctx _ _
    · exact ih.checkInferred ctx e _
  · split
    · exact ih.checkClass ctx _
    · exact ih.checkInferred ctx e _
  · exact .bind (ih.inferLet ctx _ _ _) fun d => .bind (ih.check d.1 _ a) fun _ => .pure _
  · exact ih.checkInferred ctx e a

theorem checkInferred_succ (e : Expr) (a : Value) :
    Indifferent (DependentClasses.checkInferred (n + 1) ctx e a) := by
  have hincluded (i : Inferred) : Indifferent (do
      inclusion n ctx i.type a
      pure i.term) :=
    .bind ((InclusionIndifferent.all n).types ctx i.type a) fun _ => .pure _
  unfold DependentClasses.checkInferred
  refine .bind (ih.infer ctx e) fun i => ?_
  split
  · exact .bind (.pure _) hincluded
  · exact .bind (.applyImplicits n ctx i) hincluded

theorem checkFn_succ (p : Plicity) (label : Name) (domain : Option Expr) (body : Expr) (a : Value)
    (b : Closure) : Indifferent (DependentClasses.checkFn (n + 1) ctx p label domain body a b) := by
  have hbody : Indifferent (do
      let r ← bindFresh ctx label a
      let b ← b.apply n (.variable a r.2)
      let body ← DependentClasses.check n r.1 body b
      let a ← Solver.reify n ctx a
      pure (Term.fn p r.2 a body)) := by
    refine .bind (.bindFresh ctx label a) fun r => .bind (.lift _) fun b => ?_
    exact .bind (ih.check r.1 body b) fun _ => .bind (.reify n ctx a) fun _ => .pure _
  unfold DependentClasses.checkFn
  cases domain with
  | none => exact hbody
  | some domain =>
    refine .bind (ih.checkType ctx domain) fun _ => ?_
    exact .bind ((InclusionIndifferent.all n).types ctx a _) fun _ => hbody

theorem inferTarget_succ (target : Expr) :
    Indifferent (DependentClasses.inferTarget (n + 1) ctx target) := by
  unfold DependentClasses.inferTarget
  refine .bind (ih.checkType ctx target) fun t => .bind (.force n t.2) fun a => ?_
  split
  · exact .pure _
  · exact .locating (.expected n ctx _ _) _

theorem checkFields_succ (fields : List (Name × Expr)) (c : Chain) :
    Indifferent (DependentClasses.checkFields (n + 1) ctx fields c) := by
  unfold DependentClasses.checkFields
  refine .bind (.checkDistinct _) fun _ => .bind (ih.checkAlong ctx fields c) fun known => ?_
  refine .bind (.mapM (fun f => ?_) _) fun _ => .pure _
  exact .bind (.within (ih.infer ctx f.2) _) fun _ => .pure _

theorem checkAlong_succ (fields : List (Name × Expr)) (c : Chain) :
    Indifferent (DependentClasses.checkAlong (n + 1) ctx fields c) := by
  unfold DependentClasses.checkAlong
  cases c with
  | nil => exact .pure _
  | declared label a rest =>
    dsimp only
    cases fields.lookup label with
    | none => exact .refuse _
    | some e =>
      refine .bind (.within (ih.check ctx e a) _) fun t => .bind (.evaluate n ctx t) fun v => ?_
      exact .bind (.lift _) fun c => .bind (ih.checkAlong ctx fields c) fun _ => .pure _
  | fulfilled label a w rest =>
    dsimp only
    cases fields.lookup label with
    | none =>
      exact .bind (.reify n ctx w) fun _ => .bind (ih.checkAlong ctx fields rest) fun _ => .pure _
    | some e =>
      refine .bind
          (.within (.bind (ih.check ctx e a) fun t => .bind (.evaluate n ctx t) fun v => ?_)
          _) fun _ =>
        .bind (ih.checkAlong ctx fields rest) fun _ => .pure _
      exact .bind (.judging fun _ _ => (convert_relist n).1 ctx a w v) fun _ => .pure _

theorem checkArgs_succ (args : List Expr) (c : Chain) :
    Indifferent (DependentClasses.checkArgs (n + 1) ctx args c) := by
  unfold DependentClasses.checkArgs
  refine .bind (ih.checkArgsAlong ctx args c) fun r => ?_
  obtain ⟨known, unused⟩ := r
  cases unused with
  | nil => exact .pure _
  | cons arg args => exact .locating (.bind (.reifyChain n ctx c) fun _ => .refuse _) _

theorem checkArgsAlong_succ (args : List Expr) (c : Chain) :
    Indifferent (DependentClasses.checkArgsAlong (n + 1) ctx args c) := by
  unfold DependentClasses.checkArgsAlong
  cases c with
  | nil => exact .pure _
  | declared label a rest =>
    cases args with
    | nil => exact .refuse _
    | cons arg args =>
      refine .bind (.within (ih.check ctx arg a) _) fun t => .bind (.evaluate n ctx t) fun v => ?_
      exact .bind (.lift _) fun c => .bind (ih.checkArgsAlong ctx args c) fun _ => .pure _
  | fulfilled label a w rest =>
    exact .bind (.reify n ctx w) fun _ => .bind (ih.checkArgsAlong ctx args rest) fun _ => .pure _

theorem checkClassArg_succ (c : Chain) (arg : Expr) :
    Indifferent (DependentClasses.checkClassArg (n + 1) ctx c arg) := by
  unfold DependentClasses.checkClassArg
  refine .bind (ih.fulfilNext ctx c arg) fun r => ?_
  cases r with
  | none => exact .locating (.bind (.reifyChain n ctx c) fun _ => .refuse _) _
  | some d => exact .pure _

theorem fulfilNext_succ (c : Chain) (arg : Expr) :
    Indifferent (DependentClasses.fulfilNext (n + 1) ctx c arg) := by
  unfold DependentClasses.fulfilNext
  cases c with
  | nil => exact .pure _
  | declared label a rest =>
    refine .bind (.within (ih.check ctx arg a) _) fun t => .bind (.evaluate n ctx t) fun v => ?_
    exact .bind (.lift _) fun _ => .pure _
  | fulfilled label a v rest => exact .bind (ih.fulfilNext ctx rest arg) fun _ => .pure _

theorem checkClass_succ (members : List Member) :
    Indifferent (DependentClasses.checkClass (n + 1) ctx members) := by
  unfold DependentClasses.checkClass
  exact .bind (.checkDistinct _) fun _ => ih.checkMembers ctx members

theorem checkMembers_succ (members : List Member) :
    Indifferent (DependentClasses.checkMembers (n + 1) ctx members) := by
  unfold DependentClasses.checkMembers
  cases members with
  | nil => exact .pure _
  | cons m members =>
    cases m with
    | declared label type =>
      refine .bind (.within (ih.check ctx type _) _) fun t => .bind (.evaluate n ctx t) fun a => ?_
      refine .bind (.bindFresh ctx label a) fun inner => ?_
      exact .bind (ih.checkMembers inner.1 members) fun _ => .pure _
    | fulfilled label type value =>
      have hrest (d : Term × Value × Term) : Indifferent (do
          let w ← Solver.evaluate n ctx d.2.2
          let x ← Solver.freshName ctx label
          let rest ← DependentClasses.checkMembers n (ctx.define label x d.2.1 w) members
          pure (Term.fulfilled label x d.1 d.2.2 rest)) := by
        refine .bind (.evaluate n ctx _) fun w => .bind (.freshName ctx label) fun x => ?_
        exact .bind (ih.checkMembers _ members) fun _ => .pure _
      cases type with
      | none =>
        refine .bind (.within (ih.infer ctx value) _) fun i =>
          .bind (.reify n ctx i.type) fun _ => ?_
        exact .bind (.pure _) hrest
      | some type =>
        refine .bind (.within (ih.check ctx type _) _) fun t =>
          .bind (.evaluate n ctx t) fun a => ?_
        exact .bind (.within (ih.check ctx value a) _) fun v => .bind (.pure _) hrest

omit ih

theorem all (n : Nat) : ElaborationIndifferent n := by
  induction n with
  | zero => constructor <;> intros <;> exact .outOfFuel
  | succ n ih =>
    exact ⟨ih.infer_succ, ih.check_succ, ih.checkType_succ, ih.inferForm_succ, ih.inferLet_succ,
      ih.inferBinder_succ, ih.inferFn_succ, ih.checkForm_succ, ih.checkInferred_succ,
      ih.checkFn_succ,
      ih.inferTarget_succ, ih.checkFields_succ, ih.checkAlong_succ, ih.checkArgs_succ,
      ih.checkArgsAlong_succ, ih.checkClassArg_succ, ih.fulfilNext_succ, ih.checkClass_succ,
      ih.checkMembers_succ⟩

end ElaborationIndifferent

end DependentClasses
