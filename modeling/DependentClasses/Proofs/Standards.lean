import DependentClasses.Proofs.Endings
import DependentClasses.Proofs.Parts
import DependentClasses.Proofs.Subexpressions

/-! Standards. Something is asked of values, of terms and of whatever else a check goes through, and
evaluation keeps to it: what is computed from things that are as asked is as asked again. All else
that is done with values is to take them apart, to put terms together and to evaluate these, so that
every check keeps to every standard. Here this is shown for forcing and for reading back. -/
namespace DependentClasses

/-- What is asked of the things that a check goes through, besides how it is to end. -/
structure Requirements extends Discipline where
  value : Value → Prop
  spine : Neutral → Prop
  chain : Chain → Prop
  closure : Closure → Prop
  term : Term → Prop
  context : Context → Prop
  /-- Functions of this plicity may be applied. -/
  applied : Plicity → Prop
  /-- Components of pairs may be taken. -/
  parted : Prop
  /-- Properties with this label may be selected. -/
  selected : Name → Prop
  /-- Later properties of a class may ask for one with this label. -/
  asked : Name → Prop
  /-- Account is kept of labels: those of a class are the ones that are written in it, and no class
  and no object has one of them twice. -/
  labelled : Prop

namespace Requirements

variable (R : Requirements)

structure OfValues : Prop where
  type : R.value .type
  string : R.value .string
  trivial : R.value .trivial
  parameter {a : Value} (x : Name) : R.value a → R.value (.variable a x)
  neutral {a : Value} {e : Neutral} : R.value (.neutral a e) → R.value a ∧ R.spine e
  /-- An implicit function is applied unasked. -/
  pi {p : Plicity} {a : Value} {b : Closure} : R.value (.pi p a b) →
    (p = .implicit → R.applied p) ∧ R.value a ∧ R.closure b
  /-- A function may be applied to be compared with another one. -/
  fn {p : Plicity} {a : Value} {b : Closure} : R.value (.fn p a b) → R.applied p ∧
    R.value a ∧ R.closure b
  sigma {a : Value} {b : Closure} : R.value (.sigma a b) → R.value a ∧ R.closure b
  cons {a b : Value} : R.value (.cons a b) → R.value a ∧ R.value b
  equal {a l r : Value} : R.value (.equal a l r) ↔ R.value a ∧ R.value l ∧ R.value r
  same {a : Value} : R.value (.same a) → R.value a
  classOf {c : Chain} : R.value (.classOf c) ↔ R.chain c
  object {fields : List (Name × Value)} : R.value (.object fields) →
    (R.labelled → (fields.map Prod.fst).Nodup) ∧ ∀ f ∈ fields, R.value f.2
  app {p : Plicity} {f : Neutral} {a v : Value} : R.spine (.app p f a v) →
    R.applied p ∧ R.spine f ∧ R.value a ∧ R.value v
  car {e : Neutral} : R.spine (.car e) → R.parted ∧ R.spine e
  cdr {e : Neutral} : R.spine (.cdr e) → R.parted ∧ R.spine e
  dot {e : Neutral} {k : Name} : R.spine (.dot e k) → R.selected k ∧ R.spine e
  nil : R.chain .nil
  declared {k : Name} {a : Value} {rest : Closure} : R.chain (.declared k a rest) →
    R.asked k ∧ R.value a
  fulfilled {k : Name} {a v : Value} {rest : Chain} : R.chain (.fulfilled k a v rest) ↔
    (R.labelled → k ∉ rest.classLabels) ∧ R.value a ∧ R.value v ∧ R.chain rest
  distinct {c : Chain} : R.chain c → R.labelled → c.classLabels.Nodup

/-- What is asked of a term is asked of its parts, and that it does what may be done. -/
structure OfTerms : Prop where
  var (x : Name) : R.term (.var x)
  type : R.term .type
  pi {p : Plicity} {x : Name} {a b : Term} : (p = .implicit → R.applied p) → R.term a → R.term b →
    R.term (.pi p x a b)
  fn {p : Plicity} {x : Name} {a b : Term} : R.applied p → R.term a → R.term b →
    R.term (.fn p x a b)
  app {p : Plicity} {f a : Term} : R.applied p → R.term f → R.term a → R.term (.app p f a)
  sigma {x : Name} {a b : Term} : R.term a → R.term b → R.term (.sigma x a b)
  cons {a b : Term} : R.term a → R.term b → R.term (.cons a b)
  car {a : Term} : R.parted → R.term a → R.term (.car a)
  cdr {a : Term} : R.parted → R.term a → R.term (.cdr a)
  string : R.term .string
  quote (text : String) : R.term (.quote text)
  trivial : R.term .trivial
  sole : R.term .sole
  equal {a l r : Term} : R.term a → R.term l → R.term r → R.term (.equal a l r)
  same {a : Term} : R.term a → R.term (.same a)
  emptyClass : R.term .emptyClass
  declared {k x : Name} {a rest : Term} : R.asked k → rest.IsClass →
    (R.labelled → (k :: rest.classLabels).Nodup) →
    R.term a → R.term rest → R.term (.declared k x a rest)
  fulfilled {k x : Name} {a v rest : Term} : rest.IsClass →
    (R.labelled → (k :: rest.classLabels).Nodup) →
    R.term a → R.term v → R.term rest → R.term (.fulfilled k x a v rest)
  object {fields : List (Name × Term)} : (R.labelled → (fields.map Prod.fst).Nodup) →
    (∀ f ∈ fields, R.term f.2) → R.term (.object fields)
  dot {a : Term} {k : Name} : R.selected k → R.term a → R.term (.dot a k)
  letIn {x : Name} {a v b : Term} : R.term a → R.term v → R.term b → R.term (.letIn x a v b)

structure OfScopes : Prop where
  bind {ctx : Context} {a : Value} (label x : Name) : R.context ctx → R.value a →
    R.context (ctx.bind label x a)
  define {ctx : Context} {a v : Value} (label x : Name) : R.context ctx → R.value a → R.value v →
    R.context (ctx.define label x a v)
  find {ctx : Context} {label : Name} {e : Context.Entry} : R.context ctx →
    ctx.find label = some e → R.value e.type
  create {s : Solution} {a : Value} (x : Name) (scope : List Name) : R.solution s → R.value a →
    R.solution (s.create x a scope)
  solve {s : Solution} {v : Value} (x : Name) : R.solution s → R.value v → R.solution (s.bind x v)
  reserve {s : Solution} (xs : List Name) : R.solution s → R.solution (s.reserve xs)
  solved {s : Solution} {x : Name} {a v : Value} : R.solution s →
    s.find x = some (.solved a v) → R.value v

/-- A check may be refused for any reason that can be told, in the course of any other check. -/
structure OfRefusals : Prop where
  told {cause : Cause} : cause.isInternal = false → R.failure ⟨cause, none, []⟩
  /-- A label may be missing where it is expected only if no account is kept of labels. -/
  internal (text : String) : ¬ R.labelled → R.failure ⟨.internal text, none, []⟩
  within {f : Failure} (frame : Frame) : R.failure f → R.failure (f.within frame)

/-- What is computed from things that are as asked, by doing what may be done, is as asked. -/
structure OfComputations : Prop where
  evaluate (n : Nat) {s : Solution} {ctx : Context} {t : Term} : R.solution s →
    R.context ctx → R.term t → (eval n (s.environment ctx) t).Ends R.fault R.value
  apply (n : Nat) {c : Closure} {v : Value} : R.closure c → R.value v →
    (c.apply n v).Ends R.fault R.value
  rest (n : Nat) {k : Name} {a v : Value} {c : Closure} : R.chain (.declared k a c) → R.value v →
    (c.applyChain n v).Ends R.fault fun d => R.chain d ∧
    (R.labelled → d.classLabels = c.body.classLabels)
  app (n : Nat) {p : Plicity} {f v : Value} : R.applied p → R.value f → R.value v →
    (f.app n p v).Ends R.fault R.value
  car {v : Value} : R.parted → R.value v → v.car.Ends R.fault R.value
  cdr (n : Nat) {v : Value} : R.parted → R.value v → (v.cdr n).Ends R.fault R.value
  dot (n : Nat) {k : Name} {v : Value} : R.selected k → R.value v → (v.dot n k).Ends R.fault R.value
  typeOf (n : Nat) {k : Name} {c : Chain} {v : Value} : R.selected k → R.chain c → R.value v →
    (c.typeOf n v k).Ends R.fault fun r => ∀ a ∈ r, R.value a
  /-- The questions that a class asks may be put to an object that is written out, whichever
  property it is about. -/
  typeOf_object (n : Nat) {c : Chain} {fields : List (Name × Value)} (k : Name) : R.chain c →
    R.value (.object fields) → (c.typeOf n (.object fields) k).Ends R.fault fun r =>
    ∀ a ∈ r, R.value a

end Requirements

/-- Requirements that evaluation keeps to. -/
structure Standard extends Requirements where
  values : toRequirements.OfValues
  terms : toRequirements.OfTerms
  scopes : toRequirements.OfScopes
  refusals : toRequirements.OfRefusals
  computing : toRequirements.OfComputations

/-- A standard for what is elaborated: something is asked of expressions as well, so that only what
may be done is written in them. -/
structure WrittenStandard extends Standard where
  expr : Expr → Prop
  form : Form → Prop
  member : Member → Prop
  form_of_expr {e : Expr} : expr e → form e.form
  parts {f : Form} : form f → ∀ e ∈ f.parts, expr e
  members {ms : List Member} : form (.classOf ms) → ∀ m ∈ ms, member m
  member_parts {m : Member} : member m → ∀ e ∈ m.parts, expr e
  pi {p : Plicity} {label : Name} {a b : Expr} : form (.pi p label a b) → p = .implicit → applied p
  fn {p : Plicity} {label : Name} {domain : Option Expr} {body : Expr} :
    form (.fn p label domain body) → applied p
  app {p : Plicity} {f a : Expr} : form (.app p f a) → applied p
  car {e : Expr} : form (.car e) → parted
  cdr {e : Expr} : form (.cdr e) → parted
  dot {e : Expr} {k : Name} : form (.dot e k) → selected k
  declared {k : Name} {e : Expr} : member (.declared k e) → asked k
  /-- A failure may be given the place of such an expression. -/
  locate {e : Expr} {f : Failure} : expr e → failure f → failure (f.locate e.span)

namespace Standard

variable (S : Standard) {s : Solution}

/-- The labels along a class, in which an unfulfilled property stands for itself. -/
theorem labels (n : Nat) {c : Chain} (hc : S.chain c) :
    (c.labels n).Ends S.fault fun ks => S.labelled → ks = c.classLabels := by
  induction n generalizing c with
  | zero => rw [Chain.labels]; exact .outOfFuel
  | succ n ih =>
    cases c with
    | nil => rw [Chain.labels]; exact .pure fun _ => rfl
    | declared k a rest =>
      rw [Chain.labels]
      refine .bind (S.computing.rest n hc (S.values.parameter _ (S.values.declared hc).2))
        fun d hd => ?_
      refine .bind (ih hd.1) fun more hmore => .pure fun hl => ?_
      rw [hmore hl, hd.2 hl, Chain.classLabels]
    | fulfilled k a v rest =>
      rw [Chain.labels]
      refine .bind (ih (S.values.fulfilled.1 hc).2.2.2) fun more hmore => .pure fun hl => ?_
      rw [hmore hl, Chain.classLabels]

/-- An operation on a stuck computation is carried out on what its head is solved by. -/
theorem resumed {x : Eval (Option Value)} {f : Value → Eval Value}
    (hx : x.Ends S.fault fun r => ∀ v ∈ r, S.value v)
    (hf : ∀ v, S.value v → (f v).Ends S.fault S.value) :
    Eval.Ends S.fault (do match ← x with
      | some v => some <$> f v
      | none => pure none) fun r => ∀ v ∈ r, S.value v := by
  refine .bind hx fun r hr => ?_
  cases r with
  | none => exact .pure (by simp)
  | some v => exact (hf v (hr v rfl)).map (by simp)

theorem resume (n : Nat) (hs : S.solution s) : ∀ {e : Neutral}, S.spine e →
    (e.resume n s).Ends S.fault fun r => ∀ v ∈ r, S.value v
  | .var x, _ => by
    unfold Neutral.resume
    split
    · next a v hv => exact .pure (by simpa using S.scopes.solved hs hv)
    · exact .pure (by simp)
  | .app .., h =>
    let ⟨happlied, hf, _, hv⟩ := S.values.app h
    S.resumed (resume n hs hf) fun _ hg => S.computing.app n happlied hg hv
  | .car _, h =>
    let ⟨hparted, h⟩ := S.values.car h
    S.resumed (resume n hs h) fun _ => S.computing.car hparted
  | .cdr _, h =>
    let ⟨hparted, h⟩ := S.values.cdr h
    S.resumed (resume n hs h) fun _ => S.computing.cdr n hparted
  | .dot .., h =>
    let ⟨hselected, h⟩ := S.values.dot h
    S.resumed (resume n hs h) fun _ => S.computing.dot n hselected

theorem force (n : Nat) (hs : S.solution s) {v : Value} (hv : S.value v) :
    (v.force n s).Ends S.fault S.value := by
  induction n generalizing v with
  | zero => rw [Value.force]; exact .outOfFuel
  | succ n ih =>
    unfold Value.force
    split
    · refine .bind (S.resume n hs (S.values.neutral hv).2) fun r hr => ?_
      cases r with
      | none => exact .pure hv
      | some w => exact ih (hr w rfl)
    · exact .pure hv

end Standard

structure ReadsKeeping (S : Standard) (s : Solution) (n : Nat) : Prop where
  value {used : List Name} {v : Value} : S.value v → (v.reify n s used).Ends S.fault S.term
  spine {used : List Name} {e : Neutral} : S.spine e → (e.reify n s used).Ends S.fault S.term
  chain {used : List Name} {c : Chain} : S.chain c → (c.reify n s used).Ends S.fault
    fun t => S.term t ∧ t.IsClass ∧ (S.labelled → t.classLabels = c.classLabels)

namespace ReadsKeeping

variable {S : Standard} {s : Solution} {n : Nat} {used : List Name}

/-- The parts of what binds a value. -/
theorem binder (ih : ReadsKeeping S s n) {a : Value} {b : Closure} (ha : S.value a)
    (hb : S.closure b) {x : Name} {f : Term → Term → Term}
    (hf : ∀ {t u}, S.term t → S.term u → S.term (f t u)) :
    Eval.Ends S.fault (do
      let r ← b.apply n (.variable a x)
      let u ← r.reify n s (x :: used)
      let t ← a.reify n s used
      pure (f t u)) S.term := by
  refine .bind (S.computing.apply n hb (S.values.parameter x ha)) fun r hr => ?_
  exact .bind (ih.value hr) fun u hu => .bind (ih.value ha) fun t ht => .pure (hf ht hu)

theorem value_succ (ih : ReadsKeeping S s n) (hs : S.solution s) {v : Value} (hv : S.value v) :
    (v.reify (n + 1) s used).Ends S.fault S.term := by
  unfold Value.reify
  refine .bind (S.force n hs hv) fun w hw => ?_
  cases w with
  | neutral a e => exact ih.spine (S.values.neutral hw).2
  | type => exact .pure S.terms.type
  | pi p a b =>
    obtain ⟨happlied, ha, hb⟩ := S.values.pi hw
    exact ih.binder ha hb (S.terms.pi happlied)
  | fn p a b =>
    obtain ⟨happlied, ha, hb⟩ := S.values.fn hw
    exact ih.binder ha hb (S.terms.fn happlied)
  | sigma a b =>
    obtain ⟨ha, hb⟩ := S.values.sigma hw
    exact ih.binder ha hb S.terms.sigma
  | cons a b =>
    obtain ⟨ha, hb⟩ := S.values.cons hw
    exact .bind (ih.value ha) fun t ht => .bind (ih.value hb) fun u hu => .pure (S.terms.cons ht hu)
  | string => exact .pure S.terms.string
  | quote text => exact .pure (S.terms.quote text)
  | trivial => exact .pure S.terms.trivial
  | sole => exact .pure S.terms.sole
  | equal a l r =>
    obtain ⟨ha, hl, hr⟩ := S.values.equal.1 hw
    refine .bind (ih.value ha) fun a ha => .bind (ih.value hl) fun l hl => ?_
    exact .bind (ih.value hr) fun r hr => .pure (S.terms.equal ha hl hr)
  | same a => exact .bind (ih.value (S.values.same hw)) fun t ht => .pure (S.terms.same ht)
  | classOf c => exact (ih.chain (S.values.classOf.1 hw)).mono fun _ => And.left
  | object fields =>
    obtain ⟨hlabels, hfields⟩ := S.values.object hw
    refine .bind ((Eval.Ends.mapM (S := fun g => S.term g.2) fun f hf => ?_).and_of_ok fun _ =>
      Eval.mapM_fields) ?_
    · exact .bind (ih.value (hfields f hf)) fun t ht => .pure ht
    · rintro fs ⟨hterms, heq, -⟩
      exact .pure (S.terms.object (heq ▸ hlabels) hterms)

theorem spine_succ (ih : ReadsKeeping S s n) {e : Neutral} (he : S.spine e) :
    (e.reify (n + 1) s used).Ends S.fault S.term := by
  unfold Neutral.reify
  cases e with
  | var x => exact .pure (S.terms.var x)
  | app p f a v =>
    obtain ⟨happlied, hf, -, hv⟩ := S.values.app he
    exact .bind (ih.spine hf) fun f hf => .bind (ih.value hv) fun v hv =>
      .pure (S.terms.app happlied hf hv)
  | car e =>
    obtain ⟨hparted, he⟩ := S.values.car he
    exact .bind (ih.spine he) fun t ht => .pure (S.terms.car hparted ht)
  | cdr e =>
    obtain ⟨hparted, he⟩ := S.values.cdr he
    exact .bind (ih.spine he) fun t ht => .pure (S.terms.cdr hparted ht)
  | dot e k =>
    obtain ⟨hselected, he⟩ := S.values.dot he
    exact .bind (ih.spine he) fun t ht => .pure (S.terms.dot hselected ht)

theorem chain_succ (ih : ReadsKeeping S s n) {c : Chain} (hc : S.chain c) :
    (c.reify (n + 1) s used).Ends S.fault
    fun t => S.term t ∧ t.IsClass ∧ (S.labelled → t.classLabels = c.classLabels) := by
  -- A class is read back with the labels that are written in it, so they are distinct if these are.
  have hdistinct := S.values.distinct hc
  unfold Chain.reify
  cases c with
  | nil => exact .pure ⟨S.terms.emptyClass, True.intro, fun _ => rfl⟩
  | declared k a c =>
    obtain ⟨hasked, ha⟩ := S.values.declared hc
    refine .bind (ih.value ha) fun t ht => ?_
    refine .bind (S.computing.rest n hc (S.values.parameter _ ha)) ?_
    rintro d ⟨hd, hwritten⟩
    refine .bind (ih.chain hd) ?_
    rintro rest ⟨hrest, hclass, hlabels⟩
    have heq (hl : S.labelled) : k :: rest.classLabels = k :: c.body.classLabels := by
      rw [hlabels hl, hwritten hl]
    exact .pure ⟨S.terms.declared hasked hclass (fun hl => heq hl ▸ hdistinct hl) ht hrest,
      True.intro, heq⟩
  | fulfilled k a v c =>
    obtain ⟨-, ha, hv, hc⟩ := S.values.fulfilled.1 hc
    refine .bind (ih.value ha) fun t ht => .bind (ih.value hv) fun v hv => ?_
    refine .bind (ih.chain hc) ?_
    rintro rest ⟨hrest, hclass, hlabels⟩
    have heq (hl : S.labelled) : k :: rest.classLabels = k :: c.classLabels := by rw [hlabels hl]
    exact .pure ⟨S.terms.fulfilled hclass (fun hl => heq hl ▸ hdistinct hl) ht hv hrest,
      True.intro, heq⟩

theorem all (hs : S.solution s) (n : Nat) : ReadsKeeping S s n := by
  induction n with
  | zero =>
    constructor
    · intro used v _; rw [Value.reify]; exact .outOfFuel
    · intro used e _; rw [Neutral.reify]; exact .outOfFuel
    · intro used c _; rw [Chain.reify]; exact .outOfFuel
  | succ n ih => exact ⟨ih.value_succ hs, ih.spine_succ, ih.chain_succ⟩

end ReadsKeeping

namespace Standard

variable (S : Standard) {s : Solution}

theorem reify (n : Nat) (ctx : Context) (hs : S.solution s) {v : Value} (hv : S.value v) :
    (s.reify n ctx v).Ends S.fault S.term :=
  (ReadsKeeping.all hs n).value hv

theorem reifyChain (n : Nat) (ctx : Context) (hs : S.solution s) {c : Chain} (hc : S.chain c) :
    (s.reifyChain n ctx c).Ends S.fault S.term :=
  ((ReadsKeeping.all hs n).chain hc).mono fun _ => And.left

end Standard

section

variable {S : Standard} {α : Type} {x : Solver α} {Q : α → Prop} {n : Nat} {ctx : Context}

theorem Verdict.Ends.told {cause : Cause} (h : cause.isInternal = false) :
    Verdict.Ends S.toDiscipline (DependentClasses.refuse cause) Q :=
  .refuse (S.refusals.told h)

namespace Solver.Ends

theorem told {cause : Cause} (h : cause.isInternal = false) :
    Ends S.toDiscipline (DependentClasses.refuse cause) Q :=
  .refuse (S.refusals.told h)

theorem within (h : x.Ends S.toDiscipline Q) (frame : Frame) :
    Ends S.toDiscipline (Solver.within frame x) Q :=
  adapt (fun _ => S.refusals.within frame) h

theorem force {v : Value} (hv : S.value v) : Ends S.toDiscipline (Solver.force n v) S.value :=
  reading fun _ hs => S.force n hs hv

theorem reify {v : Value} (hv : S.value v) : Ends S.toDiscipline (Solver.reify n ctx v) S.term :=
  reading fun _ hs => S.reify n ctx hs hv

theorem reifyChain {c : Chain} (hc : S.chain c) :
    Ends S.toDiscipline (Solver.reifyChain n ctx c) S.term :=
  reading fun _ hs => S.reifyChain n ctx hs hc

theorem evaluate (hctx : S.context ctx) {t : Term} (ht : S.term t) :
    Ends S.toDiscipline (Solver.evaluate n ctx t) S.value :=
  reading fun _ hs => S.computing.evaluate n hs hctx ht

theorem apply {c : Closure} {v : Value} (hc : S.closure c) (hv : S.value v) :
    Ends S.toDiscipline (liftM (c.apply n v)) S.value :=
  lift (S.computing.apply n hc hv)

theorem rest {k : Name} {a v : Value} {c : Closure} (hc : S.chain (.declared k a c))
    (hv : S.value v) :
    Ends S.toDiscipline (liftM (c.applyChain n v))
      fun d => S.chain d ∧ (S.labelled → d.classLabels = c.body.classLabels) :=
  lift (S.computing.rest n hc hv)

theorem create {a : Value} (ha : S.value a) (x : Name) :
    Ends S.toDiscipline (Solver.create ctx x a) S.value := by
  refine bind (x := modify fun s => s.create x a ctx.names) (Q := fun _ => True) ?_ fun _ _ =>
    pure (S.values.parameter x ha)
  exact fun s hs => ⟨S.scopes.create x ctx.names hs ha, True.intro⟩

theorem witness (hctx : S.context ctx) {a : Value} (ha : S.value a) (x : Name) :
    Ends S.toDiscipline (Solver.witness ctx x a) fun r => S.context r.1 ∧ S.value r.2 :=
  bind get fun _ _ => pure ⟨S.scopes.bind _ _ hctx ha, S.values.parameter _ ha⟩

end Solver.Ends

end

end DependentClasses
