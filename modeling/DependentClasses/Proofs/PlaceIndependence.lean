import DependentClasses.Proofs.Spans
import DependentClasses.Proofs.Success

/-! Elaboration does not look at places. Moved to another place of a source, an expression is
elaborated as before: with the same term and the same solution, or with a failure that is told in
another place. -/
namespace DependentClasses

namespace Solver

variable {α β : Type}

/-- What a computation does, but for what it says when it fails. -/
def outline (x : Solver α) (s : Solution) : Eval (Option α × Solution) := do
  let (r, s) ← x.run.run s
  pure (r.toOption, s)

def Agrees (x y : Solver α) : Prop := ∀ s, x.outline s = y.outline s

theorem outline_bind (x : Solver α) (k : α → Solver β) (s : Solution) :
    (x >>= k).outline s = (x.outline s >>= fun r =>
      match r.1 with
      | some a => (k a).outline r.2
      | none => pure (none, r.2)) := by
  unfold outline
  rw [ExceptT.run_bind, StateT.run_bind]
  cases x.run.run s with
  | error h => rfl
  | ok r =>
    obtain ⟨_ | a, s'⟩ := r
    · rfl
    · rfl

theorem outline_adapt (f : Failure → Failure) (x : Solver α) (s : Solution) :
    outline (ExceptT.adapt f x) s = x.outline s := by
  unfold outline
  change ((Except.mapError f <$> x.run).run s >>= _) = _
  rw [StateT.run_map]
  cases x.run.run s with
  | error h => rfl
  | ok r =>
    obtain ⟨_ | a, s'⟩ := r
    · rfl
    · rfl

namespace Agrees

variable {x y z : Solver α}

theorem refl (x : Solver α) : x.Agrees x := fun _ => rfl

theorem trans (h : x.Agrees y) (h' : y.Agrees z) : x.Agrees z := fun s => (h s).trans (h' s)

theorem bind {k k' : α → Solver β} (h : x.Agrees y) (hk : ∀ a, (k a).Agrees (k' a)) :
    (x >>= k).Agrees (y >>= k') := by
  intro s
  rw [outline_bind, outline_bind, h s]
  refine Eval.bind_congr fun r _ => ?_
  obtain ⟨_ | a, s'⟩ := r
  · rfl
  · exact hk a s'

theorem locating (h : x.Agrees y) (span span' : Span) :
    (Solver.locating span x).Agrees (Solver.locating span' y) :=
  fun s => (outline_adapt _ x s).trans ((h s).trans (outline_adapt _ y s).symm)

theorem within (h : x.Agrees y) (frame : Frame) :
    (Solver.within frame x).Agrees (Solver.within frame y) :=
  fun s => (outline_adapt _ x s).trans ((h s).trans (outline_adapt _ y s).symm)

theorem refuse (c c' : Cause) :
    Agrees (DependentClasses.refuse c : Solver α) (DependentClasses.refuse c') := fun _ => rfl

theorem mapM {γ δ : Type} {g : γ → Solver α} {g' : δ → Solver α} {m : γ → δ}
    (h : ∀ c, (g' (m c)).Agrees (g c)) (cs : List γ) :
    Agrees ((cs.map m).mapM g') (cs.mapM g) := by
  induction cs with
  | nil => exact refl _
  | cons c cs ih =>
    rw [List.map_cons, List.mapM_cons, List.mapM_cons]
    exact bind (h c) fun _ => bind ih fun _ => refl _

end Agrees

end Solver

section
variable {f : Nat → Nat} {fields : List (Name × Expr)}

theorem map_fst_moved : (moved f fields).map Prod.fst = fields.map Prod.fst := by
  simp only [moved, List.map_map]
  rfl

theorem lookup_moved (label : Name) :
    (moved f fields).lookup label = (fields.lookup label).map (moved f) := by
  induction fields with
  | nil => rfl
  | cons p fields ih =>
    obtain ⟨k, e⟩ := p
    simp only [moved_cons, moved_pair, moved_name, List.lookup_cons]
    split
    · rfl
    · exact ih

theorem filter_moved (known : List Name) :
    (moved f fields).filter (fun (label, _) => label ∉ known) = moved f
      (fields.filter fun (label, _) => label ∉ known) :=
  List.filter_map

theorem map_label_moved (members : List Member) :
    (moved f members).map Member.label = members.map Member.label := by
  simp only [moved, List.map_map]
  exact List.map_congr_left fun m _ => label_moved f m

end

structure ElaboratesAlike (f : Nat → Nat) (n : Nat) : Prop where
  infer (ctx : Context) (e : Expr) : (infer n ctx (moved f e)).Agrees (infer n ctx e)
  check (ctx : Context) (e : Expr) (a : Value) : (check n ctx (moved f e) a).Agrees
    (check n ctx e a)
  checkType (ctx : Context) (e : Expr) : (checkType n ctx (moved f e)).Agrees (checkType n ctx e)
  inferForm (ctx : Context) (form : Form) : (inferForm n ctx (moved f form)).Agrees
    (inferForm n ctx form)
  inferLet (ctx : Context) (label : Name) (type : Option Expr) (value : Expr) :
    (inferLet n ctx label (moved f type) (moved f value)).Agrees (inferLet n ctx label type value)
  inferBinder (ctx : Context) (label : Name) (domain codomain : Expr) :
    (inferBinder n ctx label (moved f domain) (moved f codomain)).Agrees
    (inferBinder n ctx label domain codomain)
  inferFn (ctx : Context) (p : Plicity) (label : Name) (domain body : Expr) :
    (inferFn n ctx p label (moved f domain) (moved f body)).Agrees
    (inferFn n ctx p label domain body)
  checkForm (ctx : Context) (e : Expr) (a : Value) : (checkForm n ctx (moved f e) a).Agrees
    (checkForm n ctx e a)
  checkInferred (ctx : Context) (e : Expr) (a : Value) : (checkInferred n ctx (moved f e) a).Agrees
    (checkInferred n ctx e a)
  checkFn (ctx : Context) (p : Plicity) (label : Name) (domain : Option Expr) (body : Expr)
    (a : Value) (b : Closure) :
    (checkFn n ctx p label (moved f domain) (moved f body) a b).Agrees
      (checkFn n ctx p label domain body a b)
  inferTarget (ctx : Context) (target : Expr) : (inferTarget n ctx (moved f target)).Agrees
    (inferTarget n ctx target)
  checkFields (ctx : Context) (fields : List (Name × Expr)) (c : Chain) :
    (checkFields n ctx (moved f fields) c).Agrees (checkFields n ctx fields c)
  checkAlong (ctx : Context) (fields : List (Name × Expr)) (c : Chain) :
    (checkAlong n ctx (moved f fields) c).Agrees (checkAlong n ctx fields c)
  checkArgs (ctx : Context) (args : List Expr) (c : Chain) :
    (checkArgs n ctx (moved f args) c).Agrees (checkArgs n ctx args c)
  checkArgsAlong (ctx : Context) (args : List Expr) (c : Chain) :
    (checkArgsAlong n ctx (moved f args) c).Agrees
    (checkArgsAlong n ctx args c >>= fun r => pure (r.1, moved f r.2))
  checkClassArg (ctx : Context) (c : Chain) (arg : Expr) :
    (checkClassArg n ctx c (moved f arg)).Agrees (checkClassArg n ctx c arg)
  fulfilNext (ctx : Context) (c : Chain) (arg : Expr) : (fulfilNext n ctx c (moved f arg)).Agrees
    (fulfilNext n ctx c arg)
  checkClass (ctx : Context) (members : List Member) :
    (checkClass n ctx (moved f members)).Agrees (checkClass n ctx members)
  checkMembers (ctx : Context) (members : List Member) :
    (checkMembers n ctx (moved f members)).Agrees (checkMembers n ctx members)

namespace ElaboratesAlike

open Solver (Agrees)

variable {f : Nat → Nat} {n : Nat}

theorem infer_succ (ih : ElaboratesAlike f n) (ctx : Context) (e : Expr) :
    (DependentClasses.infer (n + 1) ctx (moved f e)).Agrees
      (DependentClasses.infer (n + 1) ctx e) := by
  obtain ⟨span, form⟩ := e
  unfold DependentClasses.infer
  exact .locating (ih.inferForm ctx form) _ _

theorem check_succ (ih : ElaboratesAlike f n) (ctx : Context) (e : Expr) (a : Value) :
    (DependentClasses.check (n + 1) ctx (moved f e) a).Agrees
      (DependentClasses.check (n + 1) ctx e a) := by
  unfold DependentClasses.check
  exact .locating (ih.checkForm ctx e a) _ _

theorem checkType_succ (ih : ElaboratesAlike f n) (ctx : Context) (e : Expr) :
    (DependentClasses.checkType (n + 1) ctx (moved f e)).Agrees
      (DependentClasses.checkType (n + 1) ctx e) := by
  unfold DependentClasses.checkType
  exact .bind (ih.check ctx e .type) fun _ => .refl _

theorem inferForm_succ (ih : ElaboratesAlike f n) (ctx : Context) (form : Form) :
    (DependentClasses.inferForm (n + 1) ctx (moved f form)).Agrees
      (DependentClasses.inferForm (n + 1) ctx form) := by
  unfold DependentClasses.inferForm
  cases form with
  | var | type | cons | string | quote | trivial | sole => exact .refl _
  | pi p label domain codomain =>
    exact .bind (ih.inferBinder ctx label domain codomain) fun _ => .refl _
  | fn p label domain body =>
    rw [moved_fn]
    cases domain with
    | none => exact .refl _
    | some domain => exact ih.inferFn ctx p label domain body
  | app p target arg =>
    cases p with
    | explicit =>
      refine .bind (ih.infer ctx target) fun g => .bind (.refl _) fun g =>
        .bind (.refl _) fun a => ?_
      split
      · exact .bind (ih.check ctx arg _) fun _ => .refl _
      · refine .bind (.refl _) fun v => .bind (.refl _) fun v => ?_
        split
        · exact .bind (ih.checkClassArg ctx _ arg) fun _ => .refl _
        · exact .refl _
      · exact .refl _
    | implicit =>
      refine .bind (ih.infer ctx target) fun g => .bind (.refl _) fun a => ?_
      split
      · exact .bind (ih.check ctx arg _) fun _ => .refl _
      · exact .refl _
  | sigma label carType cdrType =>
    exact .bind (ih.inferBinder ctx label carType cdrType) fun _ => .refl _
  | car pair => exact .bind (ih.infer ctx pair) fun _ => .refl _
  | cdr pair => exact .bind (ih.infer ctx pair) fun _ => .refl _
  | equal type left right =>
    exact .bind (ih.checkType ctx type) fun _ => .bind (ih.check ctx left _) fun _ =>
      .bind (ih.check ctx right _) fun _ => .refl _
  | same value => exact .bind (ih.infer ctx value) fun _ => .refl _
  | classOf members =>
    rw [moved_classOf]
    exact .bind (ih.checkClass ctx members) fun _ => .refl _
  | object fields =>
    rw [moved_object]
    simp only [map_fst_moved]
    refine .bind (.refl _) fun _ => .bind (.mapM ?_ fields) fun _ => .refl _
    rintro ⟨label, e⟩
    exact .bind (.within (ih.infer ctx e) _) fun _ => .refl _
  | dot target label => exact .bind (ih.infer ctx target) fun _ => .refl _
  | new target fields =>
    rw [moved_new]
    exact .bind (ih.inferTarget ctx target) fun c =>
      .bind (ih.checkFields ctx fields c) fun _ => .refl _
  | newWith target args =>
    rw [moved_newWith]
    exact .bind (ih.inferTarget ctx target) fun c =>
      .bind (ih.checkArgs ctx args c) fun _ => .refl _
  | the type value =>
    exact .bind (ih.checkType ctx type) fun _ => .bind (ih.check ctx value _) fun _ => .refl _
  | letIn label type value body =>
    rw [moved_letIn]
    refine .bind (ih.inferLet ctx label type value) fun ⟨ctx, x, t, v⟩ => ?_
    exact .bind (ih.infer ctx body) fun _ => .refl _

theorem inferLet_succ (ih : ElaboratesAlike f n) (ctx : Context) (label : Name) (type : Option Expr)
    (value : Expr) :
    (DependentClasses.inferLet (n + 1) ctx label (moved f type) (moved f value)).Agrees
      (DependentClasses.inferLet (n + 1) ctx label type value) := by
  unfold DependentClasses.inferLet
  cases type with
  | some type =>
    exact .bind (ih.checkType ctx type) fun _ => .bind (ih.check ctx value _) fun _ => .refl _
  | none => exact .bind (ih.infer ctx value) fun _ => .refl _

theorem inferBinder_succ (ih : ElaboratesAlike f n) (ctx : Context) (label : Name)
    (domain codomain : Expr) :
    (DependentClasses.inferBinder (n + 1) ctx label (moved f domain) (moved f codomain)).Agrees
      (DependentClasses.inferBinder (n + 1) ctx label domain codomain) := by
  unfold DependentClasses.inferBinder
  exact .bind (ih.checkType ctx domain) fun _ => .bind (.refl _) fun _ =>
    .bind (ih.check _ codomain .type) fun _ => .refl _

theorem inferFn_succ (ih : ElaboratesAlike f n) (ctx : Context) (p : Plicity) (label : Name)
    (domain body : Expr) :
    (DependentClasses.inferFn (n + 1) ctx p label (moved f domain) (moved f body)).Agrees
      (DependentClasses.inferFn (n + 1) ctx p label domain body) := by
  unfold DependentClasses.inferFn
  exact .bind (ih.checkType ctx domain) fun _ => .bind (.refl _) fun _ =>
    .bind (ih.infer _ body) fun _ => .refl _

theorem checkForm_succ (ih : ElaboratesAlike f n) (ctx : Context) (e : Expr) (a : Value) :
    (DependentClasses.checkForm (n + 1) ctx (moved f e) a).Agrees
      (DependentClasses.checkForm (n + 1) ctx e a) := by
  unfold DependentClasses.checkForm
  refine .bind (.refl _) fun a => ?_
  have hinferred := ih.checkInferred ctx e a
  obtain ⟨span, form⟩ := e
  rw [moved_expr] at hinferred ⊢
  cases form with
  | fn p label domain body =>
    rw [moved_fn] at hinferred ⊢
    cases p with
    | explicit =>
      dsimp only
      split
      · exact ih.checkFn ctx .explicit label domain body _ _
      · refine .bind (.refl _) fun ⟨inner, x⟩ => .bind (.refl _) fun c => ?_
        have hcheck := ih.check inner ⟨span, .fn .explicit label domain body⟩ c
        rw [moved_expr, moved_fn] at hcheck
        exact .bind hcheck fun _ => .refl _
      · exact hinferred
    | implicit =>
      dsimp only
      split
      · exact ih.checkFn ctx .implicit label domain body _ _
      · exact hinferred
  | cons car cdr =>
    dsimp only [moved, Form.moved]
    split
    · exact .bind (ih.check ctx car _) fun _ => .bind (.refl _) fun _ => .bind (.refl _) fun _ =>
        .bind (ih.check ctx cdr _) fun _ => .refl _
    · exact hinferred
  | object fields =>
    rw [moved_object] at hinferred ⊢
    dsimp only
    split
    · exact ih.checkFields ctx fields _
    · exact hinferred
  | classOf members =>
    rw [moved_classOf] at hinferred ⊢
    dsimp only
    split
    · exact ih.checkClass ctx members
    · exact hinferred
  | letIn label type value body =>
    rw [moved_letIn]
    refine .bind (ih.inferLet ctx label type value) fun ⟨inner, x, t, v⟩ => ?_
    exact .bind (ih.check inner body a) fun _ => .refl _
  | _ => exact hinferred

theorem checkInferred_succ (ih : ElaboratesAlike f n) (ctx : Context) (e : Expr) (a : Value) :
    (DependentClasses.checkInferred (n + 1) ctx (moved f e) a).Agrees
      (DependentClasses.checkInferred (n + 1) ctx e a) := by
  unfold DependentClasses.checkInferred
  exact .bind (ih.infer ctx e) fun _ => .refl _

theorem checkFn_succ (ih : ElaboratesAlike f n) (ctx : Context) (p : Plicity) (label : Name)
    (domain : Option Expr) (body : Expr) (a : Value) (b : Closure) :
      (DependentClasses.checkFn (n + 1) ctx p label (moved f domain) (moved f body) a b).Agrees
      (DependentClasses.checkFn (n + 1) ctx p label domain body a b) := by
  unfold DependentClasses.checkFn
  cases domain with
  | some domain =>
    exact .bind (ih.checkType ctx domain) fun _ => .bind (.refl _) fun _ => .bind (.refl _) fun _ =>
        .bind (.refl _) fun _ =>
      .bind (ih.check _ body _) fun _ => .refl _
  | none =>
    exact .bind (.refl _) fun _ => .bind (.refl _) fun _ =>
      .bind (ih.check _ body _) fun _ => .refl _

theorem inferTarget_succ (ih : ElaboratesAlike f n) (ctx : Context) (target : Expr) :
    (DependentClasses.inferTarget (n + 1) ctx (moved f target)).Agrees
      (DependentClasses.inferTarget (n + 1) ctx target) := by
  unfold DependentClasses.inferTarget
  refine .bind (ih.checkType ctx target) fun _ => .bind (.refl _) fun a => ?_
  split
  · exact .refl _
  · exact .locating (.refl _) _ _

theorem checkFields_succ (ih : ElaboratesAlike f n) (ctx : Context)
    (fields : List (Name × Expr)) (c : Chain) :
    (DependentClasses.checkFields (n + 1) ctx (moved f fields) c).Agrees
      (DependentClasses.checkFields (n + 1) ctx fields c) := by
  unfold DependentClasses.checkFields
  simp only [map_fst_moved]
  refine .bind (.refl _) fun _ => .bind (ih.checkAlong ctx fields c) fun known => ?_
  rw [filter_moved]
  refine .bind (.mapM ?_ _) fun _ => .refl _
  rintro ⟨label, e⟩
  exact .bind (.within (ih.infer ctx e) _) fun _ => .refl _

theorem checkAlong_succ (ih : ElaboratesAlike f n) (ctx : Context)
    (fields : List (Name × Expr)) (c : Chain) :
    (DependentClasses.checkAlong (n + 1) ctx (moved f fields) c).Agrees
      (DependentClasses.checkAlong (n + 1) ctx fields c) := by
  unfold DependentClasses.checkAlong
  simp only [lookup_moved]
  cases c with
  | nil => exact .refl _
  | declared label a rest =>
    dsimp only
    cases fields.lookup label with
    | none => exact .refl _
    | some e =>
      refine .bind (.within (ih.check ctx e a) _) fun _ => .bind (.refl _) fun _ =>
        .bind (.refl _) fun c => ?_
      exact .bind (ih.checkAlong ctx fields c) fun _ => .refl _
  | fulfilled label a w rest =>
    dsimp only
    cases fields.lookup label with
    | none => exact .bind (.refl _) fun _ => .bind (ih.checkAlong ctx fields rest) fun _ => .refl _
    | some e =>
      exact .bind (.within (.bind (ih.check ctx e a) fun _ => .refl _) _) fun _ =>
        .bind (ih.checkAlong ctx fields rest) fun _ => .refl _

theorem checkArgs_succ (ih : ElaboratesAlike f n) (ctx : Context) (args : List Expr) (c : Chain) :
    (DependentClasses.checkArgs (n + 1) ctx (moved f args) c).Agrees
      (DependentClasses.checkArgs (n + 1) ctx args c) := by
  unfold DependentClasses.checkArgs
  refine .trans (.bind (ih.checkArgsAlong ctx args c) fun _ => .refl _) ?_
  rw [bind_assoc]
  refine .bind (.refl _) fun ⟨known, unused⟩ => ?_
  cases unused with
  | nil => exact .refl _
  | cons arg unused => exact .locating (.refl _) _ _

theorem checkArgsAlong_succ (ih : ElaboratesAlike f n) (ctx : Context)
    (args : List Expr) (c : Chain) :
    (DependentClasses.checkArgsAlong (n + 1) ctx (moved f args) c).Agrees
      (DependentClasses.checkArgsAlong (n + 1) ctx args c >>= fun r =>
        pure (r.1, moved f r.2)) := by
  unfold DependentClasses.checkArgsAlong
  cases c with
  | nil => exact .refl _
  | declared label a rest =>
    cases args with
    | nil => exact .refl _
    | cons arg args =>
      simp only [moved_cons, bind_assoc]
      refine .bind (.within (ih.check ctx arg a) _) fun _ => .bind (.refl _) fun _ =>
        .bind (.refl _) fun c => ?_
      refine .trans (.bind (ih.checkArgsAlong ctx args c) fun _ => .refl _) ?_
      rw [bind_assoc]
      exact .refl _
  | fulfilled label a w rest =>
    simp only [bind_assoc]
    refine .bind (.refl _) fun _ =>
      .trans (.bind (ih.checkArgsAlong ctx args rest) fun _ => .refl _) ?_
    rw [bind_assoc]
    exact .refl _

theorem checkClassArg_succ (ih : ElaboratesAlike f n) (ctx : Context) (c : Chain) (arg : Expr) :
    (DependentClasses.checkClassArg (n + 1) ctx c (moved f arg)).Agrees
      (DependentClasses.checkClassArg (n + 1) ctx c arg) := by
  unfold DependentClasses.checkClassArg
  refine .bind (ih.fulfilNext ctx c arg) fun c => ?_
  cases c with
  | some c => exact .refl _
  | none => exact .locating (.refl _) _ _

theorem fulfilNext_succ (ih : ElaboratesAlike f n) (ctx : Context) (c : Chain) (arg : Expr) :
    (DependentClasses.fulfilNext (n + 1) ctx c (moved f arg)).Agrees
      (DependentClasses.fulfilNext (n + 1) ctx c arg) := by
  unfold DependentClasses.fulfilNext
  cases c with
  | nil => exact .refl _
  | declared label a rest => exact .bind (.within (ih.check ctx arg a) _) fun _ => .refl _
  | fulfilled label a v rest => exact .bind (ih.fulfilNext ctx rest arg) fun _ => .refl _

theorem checkClass_succ (ih : ElaboratesAlike f n) (ctx : Context) (members : List Member) :
    (DependentClasses.checkClass (n + 1) ctx (moved f members)).Agrees
      (DependentClasses.checkClass (n + 1) ctx members) := by
  unfold DependentClasses.checkClass
  rw [map_label_moved]
  exact .bind (.refl _) fun _ => ih.checkMembers ctx members

theorem checkMembers_succ (ih : ElaboratesAlike f n) (ctx : Context) (members : List Member) :
    (DependentClasses.checkMembers (n + 1) ctx (moved f members)).Agrees
      (DependentClasses.checkMembers (n + 1) ctx members) := by
  unfold DependentClasses.checkMembers
  obtain _ | ⟨m, members⟩ := members
  · exact .refl _
  rw [moved_cons]
  cases m with
  | declared label type =>
    refine .bind (.within (ih.check ctx type .type) _) fun _ => .bind (.refl _) fun _ =>
      .bind (.refl _) fun ⟨inner, x⟩ => ?_
    exact .bind (ih.checkMembers inner members) fun _ => .refl _
  | fulfilled label type value =>
    rw [moved_fulfilled]
    cases type with
    | some type =>
      refine .bind (.within (ih.check ctx type .type) _) fun _ => .bind (.refl _) fun a =>
        .bind (.within (ih.check ctx value a) _) fun _ => .bind (.refl _) fun _ =>
            .bind (.refl _) fun _ =>
        .bind (.refl _) fun _ => ?_
      exact .bind (ih.checkMembers _ members) fun _ => .refl _
    | none =>
      refine .bind (.within (ih.infer ctx value) _) fun _ => .bind (.refl _) fun _ =>
          .bind (.refl _) fun _ =>
        .bind (.refl _) fun _ => .bind (.refl _) fun _ => ?_
      exact .bind (ih.checkMembers _ members) fun _ => .refl _

theorem zero (f : Nat → Nat) : ElaboratesAlike f 0 where
  infer _ _ := by unfold DependentClasses.infer; exact .refl _
  check _ _ _ := by unfold DependentClasses.check; exact .refl _
  checkType _ _ := by unfold DependentClasses.checkType; exact .refl _
  inferForm _ _ := by unfold DependentClasses.inferForm; exact .refl _
  inferLet _ _ _ _ := by unfold DependentClasses.inferLet; exact .refl _
  inferBinder _ _ _ _ := by unfold DependentClasses.inferBinder; exact .refl _
  inferFn _ _ _ _ _ := by unfold DependentClasses.inferFn; exact .refl _
  checkForm _ _ _ := by unfold DependentClasses.checkForm; exact .refl _
  checkInferred _ _ _ := by unfold DependentClasses.checkInferred; exact .refl _
  checkFn _ _ _ _ _ _ _ := by unfold DependentClasses.checkFn; exact .refl _
  inferTarget _ _ := by unfold DependentClasses.inferTarget; exact .refl _
  checkFields _ _ _ := by unfold DependentClasses.checkFields; exact .refl _
  checkAlong _ _ _ := by unfold DependentClasses.checkAlong; exact .refl _
  checkArgs _ _ _ := by unfold DependentClasses.checkArgs; exact .refl _
  checkArgsAlong _ _ _ := by unfold DependentClasses.checkArgsAlong; exact .refl _
  checkClassArg _ _ _ := by unfold DependentClasses.checkClassArg; exact .refl _
  fulfilNext _ _ _ := by unfold DependentClasses.fulfilNext; exact .refl _
  checkClass _ _ := by unfold DependentClasses.checkClass; exact .refl _
  checkMembers _ _ := by unfold DependentClasses.checkMembers; exact .refl _

theorem succ (ih : ElaboratesAlike f n) : ElaboratesAlike f (n + 1) where
  infer := ih.infer_succ
  check := ih.check_succ
  checkType := ih.checkType_succ
  inferForm := ih.inferForm_succ
  inferLet := ih.inferLet_succ
  inferBinder := ih.inferBinder_succ
  inferFn := ih.inferFn_succ
  checkForm := ih.checkForm_succ
  checkInferred := ih.checkInferred_succ
  checkFn := ih.checkFn_succ
  inferTarget := ih.inferTarget_succ
  checkFields := ih.checkFields_succ
  checkAlong := ih.checkAlong_succ
  checkArgs := ih.checkArgs_succ
  checkArgsAlong := ih.checkArgsAlong_succ
  checkClassArg := ih.checkClassArg_succ
  fulfilNext := ih.fulfilNext_succ
  checkClass := ih.checkClass_succ
  checkMembers := ih.checkMembers_succ

theorem all (f : Nat → Nat) (n : Nat) : ElaboratesAlike f n := by
  induction n with
  | zero => exact zero f
  | succ n ih => exact ih.succ

end ElaboratesAlike

end DependentClasses
