import DependentClasses.Proofs.Answers
import DependentClasses.Proofs.StandardInclusion

/-! Elaboration keeps to every standard. Its terms are put together as the expressions are written.
Written classes and objects are checked for labels that stand there twice; an object of a class has
the labels of the class, and then those of its own that the class does not have; a class with one
more property fulfilled has the labels that it had. -/
namespace DependentClasses

structure Standard.Infers (S : Standard) (i : Inferred) : Prop where
  term : S.term i.term
  type : S.value i.type

/-- The terms are as asked, and account is kept of their labels: they are `ks`. -/
structure Standard.Checks (S : Standard) (ks : List Name) (known : List (Name × Term)) : Prop where
  labels : S.labelled → known.map Prod.fst = ks
  terms : ∀ f ∈ known, S.term f.2

section

variable {S : Standard} {n : Nat} {ctx : Context}

theorem Standard.Checks.nil : S.Checks [] [] := ⟨fun _ => rfl, by simp⟩

theorem Standard.Checks.cons {ks : List Name} {known : List (Name × Term)}
    (h : S.Checks ks known) (label : Name) {t : Term} (ht : S.term t) :
    S.Checks (label :: ks) ((label, t) :: known) :=
  ⟨fun hl => by rw [List.map_cons, h.labels hl], List.forall_mem_cons.2 ⟨ht, h.terms⟩⟩

theorem Standard.Checks.of_eq {ks js : List Name} {known : List (Name × Term)}
    (h : S.Checks ks known) (heq : S.labelled → ks = js) : S.Checks js known :=
  ⟨fun hl => (h.labels hl).trans (heq hl), h.terms⟩

theorem checkDistinct_keeps (labels : List Name) :
    (checkDistinct labels).Ends S.toDiscipline fun _ => labels.Nodup := by
  unfold checkDistinct
  split
  · exact .told rfl
  · next hnone => exact .pure (firstRepeated_eq_none hnone).1

theorem expected_keeps {α : Type} {Q : α → Prop} (former : Former) {a : Value} (ha : S.value a) :
    (expected n ctx former a).Ends S.toDiscipline Q :=
  .bind (.reify ha) fun _ _ => .told rfl

theorem bindFresh_keeps (hctx : S.context ctx) (label : Name) {a : Value} (ha : S.value a) :
    (bindFresh ctx label a).Ends S.toDiscipline fun r => S.context r.1 :=
  .bind (.freshName label) fun x _ => .pure (S.scopes.bind label x hctx ha)

/-- An implicit argument is applied to because the type says so. -/
theorem applyImplicits_keeps (n : Nat) {i : Inferred} (hi : S.Infers i) :
    (applyImplicits n ctx i).Ends S.toDiscipline S.Infers := by
  induction n generalizing i with
  | zero => rw [applyImplicits]; exact .outOfFuel
  | succ n ih =>
    unfold applyImplicits
    refine .bind (.force hi.type) fun a ha => ?_
    split
    · obtain ⟨happlied, ha, hb⟩ := S.values.pi ha
      refine .bind (.freshName _) fun x _ => .bind (.create ha x) fun v hv =>
        .bind (.apply hb hv) fun b hb => ?_
      exact ih ⟨S.terms.app (happlied rfl) hi.term (S.terms.var x), hb⟩
    · exact .pure hi

/-- The class of an object whose labels are distinct. -/
theorem Chain.ofFulfilled_keeps {fields : List (Name × Value × Value)}
    (hlabels : (fields.map Prod.fst).Nodup) (h : ∀ f ∈ fields, S.value f.2.1 ∧ S.value f.2.2) :
    S.chain (ofFulfilled fields) ∧ (ofFulfilled fields).classLabels = fields.map Prod.fst := by
  induction fields with
  | nil => exact ⟨S.values.nil, rfl⟩
  | cons f fields ih =>
    obtain ⟨label, a, v⟩ := f
    obtain ⟨hlabel, hlabels⟩ := List.nodup_cons.1 hlabels
    obtain ⟨⟨ha, hv⟩, h⟩ := List.forall_mem_cons.1 h
    obtain ⟨hchain, heq⟩ := ih hlabels h
    exact ⟨S.values.fulfilled.2 ⟨fun _ => heq ▸ hlabel, ha, hv, hchain⟩, congrArg (label :: ·) heq⟩

end

/-- A failure gets the place of an expression that is as asked. -/
theorem Solver.Ends.locating {S : WrittenStandard} {α : Type} {x : Solver α} {Q : α → Prop}
    (h : x.Ends S.toDiscipline Q) {e : Expr} (he : S.expr e) :
    Ends S.toDiscipline (Solver.locating e.span x) Q :=
  adapt (fun _ => S.locate he) h

structure ElaboratesKeeping (S : WrittenStandard) (n : Nat) : Prop where
  infer {ctx : Context} {e : Expr} : S.context ctx → S.expr e →
    (infer n ctx e).Ends S.toDiscipline S.Infers
  check {ctx : Context} {e : Expr} {a : Value} : S.context ctx → S.expr e → S.value a →
    (check n ctx e a).Ends S.toDiscipline S.term
  checkType {ctx : Context} {e : Expr} : S.context ctx → S.expr e →
    (checkType n ctx e).Ends S.toDiscipline fun r => S.term r.1 ∧ S.value r.2
  inferForm {ctx : Context} {form : Form} : S.context ctx → S.form form →
    (inferForm n ctx form).Ends S.toDiscipline S.Infers
  inferLet {ctx : Context} (label : Name) {type : Option Expr} {value : Expr} : S.context ctx →
    (∀ e ∈ type, S.expr e) → S.expr value →
    (inferLet n ctx label type value).Ends S.toDiscipline fun r => S.context r.1 ∧
      S.term r.2.2.1 ∧ S.term r.2.2.2
  inferBinder {ctx : Context} (label : Name) {domain codomain : Expr} :
    S.context ctx → S.expr domain → S.expr codomain →
    (inferBinder n ctx label domain codomain).Ends S.toDiscipline fun r =>
      S.term r.2.1 ∧ S.term r.2.2
  inferFn {ctx : Context} {p : Plicity} (label : Name) {domain body : Expr} :
    S.context ctx → S.applied p →
    S.expr domain → S.expr body → (inferFn n ctx p label domain body).Ends S.toDiscipline S.Infers
  checkForm {ctx : Context} {e : Expr} {a : Value} : S.context ctx → S.expr e → S.value a →
    (checkForm n ctx e a).Ends S.toDiscipline S.term
  checkInferred {ctx : Context} {e : Expr} {a : Value} : S.context ctx → S.expr e → S.value a →
    (checkInferred n ctx e a).Ends S.toDiscipline S.term
  checkFn {ctx : Context} {p : Plicity} (label : Name) {domain : Option Expr}
    {body : Expr} {a : Value}
    {b : Closure} : S.context ctx → S.applied p → (∀ e ∈ domain, S.expr e) → S.expr body →
      S.value a → S.closure b →
    (checkFn n ctx p label domain body a b).Ends S.toDiscipline S.term
  inferTarget {ctx : Context} {target : Expr} : S.context ctx → S.expr target →
    (inferTarget n ctx target).Ends S.toDiscipline S.chain
  checkFields {ctx : Context} {fields : List (Name × Expr)} {c : Chain} : S.context ctx →
    (∀ f ∈ fields, S.expr f.2) → S.chain c → (checkFields n ctx fields c).Ends S.toDiscipline S.term
  checkAlong {ctx : Context} {fields : List (Name × Expr)} {c : Chain} : S.context ctx →
    (∀ f ∈ fields, S.expr f.2) → S.chain c →
    (checkAlong n ctx fields c).Ends S.toDiscipline (S.Checks c.classLabels)
  checkArgs {ctx : Context} {args : List Expr} {c : Chain} : S.context ctx →
    (∀ e ∈ args, S.expr e) → S.chain c → (checkArgs n ctx args c).Ends S.toDiscipline S.term
  checkArgsAlong {ctx : Context} {args : List Expr} {c : Chain} : S.context ctx →
    (∀ e ∈ args, S.expr e) →
    S.chain c → (checkArgsAlong n ctx args c).Ends S.toDiscipline
      fun r => S.Checks c.classLabels r.1 ∧ ∀ e ∈ r.2, S.expr e
  checkClassArg {ctx : Context} {c : Chain} {arg : Expr} : S.context ctx → S.chain c → S.expr arg →
    (checkClassArg n ctx c arg).Ends S.toDiscipline S.chain
  fulfilNext {ctx : Context} {c : Chain} {arg : Expr} : S.context ctx → S.chain c → S.expr arg →
    (fulfilNext n ctx c arg).Ends S.toDiscipline
      fun r => ∀ d ∈ r, S.chain d ∧ (S.labelled → d.classLabels = c.classLabels)
  checkClass {ctx : Context} {members : List Member} : S.context ctx → (∀ m ∈ members, S.member m) →
    (checkClass n ctx members).Ends S.toDiscipline S.term
  checkMembers {ctx : Context} {members : List Member} : S.context ctx →
    (∀ m ∈ members, S.member m) →
    (members.map Member.label).Nodup → (checkMembers n ctx members).Ends S.toDiscipline
      fun t => S.term t ∧ t.IsClass ∧ t.classLabels = members.map Member.label

namespace ElaboratesKeeping

variable {S : WrittenStandard} {n : Nat} {ctx : Context}

theorem infer_succ (ih : ElaboratesKeeping S n) {e : Expr} (hctx : S.context ctx) (he : S.expr e) :
    (DependentClasses.infer (n + 1) ctx e).Ends S.toDiscipline S.Infers := by
  unfold DependentClasses.infer
  exact .locating (ih.inferForm hctx (S.form_of_expr he)) he

theorem check_succ (ih : ElaboratesKeeping S n) {e : Expr} {a : Value}
    (hctx : S.context ctx) (he : S.expr e) (ha : S.value a) :
    (DependentClasses.check (n + 1) ctx e a).Ends S.toDiscipline S.term := by
  unfold DependentClasses.check
  exact .locating (ih.checkForm hctx he ha) he

theorem checkType_succ (ih : ElaboratesKeeping S n) {e : Expr} (hctx : S.context ctx)
    (he : S.expr e) :
    (DependentClasses.checkType (n + 1) ctx e).Ends S.toDiscipline fun r => S.term r.1 ∧
      S.value r.2 := by
  unfold DependentClasses.checkType
  refine .bind (ih.check hctx he S.values.type) fun t ht => ?_
  exact .bind (.evaluate hctx ht) fun a ha => .pure ⟨ht, ha⟩

/-- A function of either kind is applied to an argument of its domain. -/
theorem application (ih : ElaboratesKeeping S n) (hctx : S.context ctx) {p : Plicity}
    (happlied : S.applied p) {f : Term} (hf : S.term f) {a : Value} {b : Closure}
    (hpi : S.value (.pi p a b)) {arg : Expr} (harg : S.expr arg) :
    Solver.Ends S.toDiscipline (do
      let arg ← DependentClasses.check n ctx arg a
      let v ← Solver.evaluate n ctx arg
      let b ← b.apply n v
      pure (⟨.app p f arg, b⟩ : Inferred)) S.Infers := by
  obtain ⟨-, ha, hb⟩ := S.values.pi hpi
  refine .bind (ih.check hctx harg ha) fun arg harg => .bind (.evaluate hctx harg) fun v hv => ?_
  exact .bind (.apply hb hv) fun b hb => .pure ⟨S.terms.app happlied hf harg, hb⟩

/-- An object of no class in particular: its class has the types and the values of its fields. -/
theorem object (ih : ElaboratesKeeping S n) (hctx : S.context ctx) {fields : List (Name × Expr)}
    (hfields : ∀ f ∈ fields, S.expr f.2) :
    Solver.Ends S.toDiscipline (do
      checkDistinct (fields.map Prod.fst)
      let known ← fields.mapM fun (label, e) => do
        let i ← Solver.within (.property label) (DependentClasses.infer n ctx e)
        let v ← Solver.evaluate n ctx i.term
        pure (label, i, v)
      pure (⟨.object (known.map fun (label, i, _) => (label, i.term)),
        .classOf (.ofFulfilled (known.map fun (label, i, v) => (label, i.type, v)))⟩ : Inferred))
      S.Infers := by
  refine .bind (checkDistinct_keeps _) fun _ hdistinct => ?_
  refine .bind (.mapM_fields (S := fun r => S.Infers r.1 ∧ S.value r.2) fun f hf => ?_)
    fun known hknown => ?_
  · refine .bind (.within (ih.infer hctx (hfields f hf)) _) fun i hi => ?_
    exact .bind (.evaluate hctx hi.term) fun v hv => .pure ⟨rfl, hi, hv⟩
  · obtain ⟨hlabels, hknown⟩ := hknown
    rw [← hlabels] at hdistinct
    refine .pure ⟨S.terms.object (fun _ => ?_) ?_,
      S.values.classOf.2 (Chain.ofFulfilled_keeps ?_ ?_).1⟩
    · rw [List.map_map]; exact hdistinct
    · exact List.forall_mem_map.2 fun f hf => (hknown f hf).1.term
    · rw [List.map_map]; exact hdistinct
    · exact List.forall_mem_map.2 fun f hf => ⟨(hknown f hf).1.type, (hknown f hf).2⟩

theorem inferForm_succ (ih : ElaboratesKeeping S n) {form : Form} (hctx : S.context ctx)
    (hform : S.form form) :
    (DependentClasses.inferForm (n + 1) ctx form).Ends S.toDiscipline S.Infers := by
  have hparts := S.parts hform
  unfold DependentClasses.inferForm
  cases form with
  | var label =>
    dsimp only
    split
    · next e he => exact .pure ⟨S.terms.var _, S.scopes.find hctx he⟩
    · exact .told rfl
  | type => exact .pure ⟨S.terms.type, S.values.type⟩
  | pi p label domain codomain =>
    obtain ⟨hdomain, hcodomain⟩ : S.expr domain ∧ S.expr codomain := by
      simpa [Form.parts] using hparts
    refine .bind (ih.inferBinder label hctx hdomain hcodomain) ?_
    rintro ⟨x, a, b⟩ ⟨ha, hb⟩
    exact .pure ⟨S.terms.pi (S.pi hform) ha hb, S.values.type⟩
  | fn p label domain body =>
    cases domain with
    | none => exact .told rfl
    | some domain =>
      obtain ⟨hdomain, hbody⟩ : S.expr domain ∧ S.expr body := by simpa [Form.parts] using hparts
      exact ih.inferFn label hctx (S.fn hform) hdomain hbody
  | app p target arg =>
    obtain ⟨htarget, harg⟩ : S.expr target ∧ S.expr arg := by simpa [Form.parts] using hparts
    have happlied := S.app hform
    cases p with
    | explicit =>
      refine .bind (ih.infer hctx htarget) fun f hf =>
        .bind (applyImplicits_keeps n hf) fun f hf => ?_
      refine .bind (.force hf.type) fun a ha => ?_
      split
      · exact ih.application hctx happlied hf.term ha harg
      · refine .bind (.evaluate hctx hf.term) fun v hv => .bind (.force hv) fun v hv => ?_
        split
        · refine .bind (ih.checkClassArg hctx (S.values.classOf.1 hv) harg) fun c hc => ?_
          exact .bind (.reifyChain hc) fun t ht => .pure ⟨ht, S.values.type⟩
        · exact expected_keeps .function S.values.type
      · exact expected_keeps .function ha
    | implicit =>
      refine .bind (ih.infer hctx htarget) fun f hf => .bind (.force hf.type) fun a ha => ?_
      split
      · exact ih.application hctx happlied hf.term ha harg
      · exact expected_keeps .implicitFunction ha
  | sigma label carType cdrType =>
    obtain ⟨hcar, hcdr⟩ : S.expr carType ∧ S.expr cdrType := by simpa [Form.parts] using hparts
    refine .bind (ih.inferBinder label hctx hcar hcdr) ?_
    rintro ⟨x, a, b⟩ ⟨ha, hb⟩
    exact .pure ⟨S.terms.sigma ha hb, S.values.type⟩
  | cons => exact .told rfl
  | car pair =>
    refine .bind (ih.infer hctx (hparts pair (List.mem_singleton.2 rfl))) fun p hp => ?_
    refine .bind (.force hp.type) fun a ha => ?_
    split
    · exact .pure ⟨S.terms.car (S.car hform) hp.term, (S.values.sigma ha).1⟩
    · exact expected_keeps .pair ha
  | cdr pair =>
    refine .bind (ih.infer hctx (hparts pair (List.mem_singleton.2 rfl))) fun p hp => ?_
    refine .bind (.force hp.type) fun a ha => ?_
    split
    · refine .bind (.evaluate hctx hp.term) fun v hv =>
        .bind (.lift (S.computing.car (S.cdr hform) hv)) fun v hv => ?_
      exact .bind (.apply (S.values.sigma ha).2 hv) fun b hb =>
        .pure ⟨S.terms.cdr (S.cdr hform) hp.term, hb⟩
    · exact expected_keeps .pair ha
  | string => exact .pure ⟨S.terms.string, S.values.type⟩
  | quote text => exact .pure ⟨S.terms.quote text, S.values.string⟩
  | trivial => exact .pure ⟨S.terms.trivial, S.values.type⟩
  | sole => exact .pure ⟨S.terms.sole, S.values.trivial⟩
  | equal type left right =>
    obtain ⟨htype, hleft, hright⟩ : S.expr type ∧ S.expr left ∧ S.expr right := by
      simpa [Form.parts] using hparts
    refine .bind (ih.checkType hctx htype) ?_
    rintro ⟨t, a⟩ ⟨ht, ha⟩
    refine .bind (ih.check hctx hleft ha) fun l hl => .bind (ih.check hctx hright ha) fun r hr => ?_
    exact .pure ⟨S.terms.equal ht hl hr, S.values.type⟩
  | same value =>
    refine .bind (ih.infer hctx (hparts value (List.mem_singleton.2 rfl))) fun i hi => ?_
    refine .bind (.evaluate hctx hi.term) fun v hv => ?_
    exact .pure ⟨S.terms.same hi.term, S.values.equal.2 ⟨hi.type, hv, hv⟩⟩
  | classOf members =>
    exact .bind (ih.checkClass hctx (S.members hform)) fun t ht => .pure ⟨ht, S.values.type⟩
  | object fields => exact ih.object hctx fun f hf => hparts f.2 (List.mem_map_of_mem hf)
  | dot target label =>
    refine .bind (ih.infer hctx (hparts target (List.mem_singleton.2 rfl))) fun i hi => ?_
    refine .bind (.force hi.type) fun a ha => ?_
    split
    · have hc := S.values.classOf.1 ha
      refine .bind (.evaluate hctx hi.term) fun v hv => ?_
      refine .bind (.lift (S.computing.typeOf n (S.dot hform) hc hv)) fun b hb => ?_
      cases b with
      | some b => exact .pure ⟨S.terms.dot (S.dot hform) hi.term, hb b rfl⟩
      | none => exact .bind (.reifyChain hc) fun t _ => .told rfl
    · exact expected_keeps .classType ha
  | new target fields =>
    obtain ⟨htarget, hfields⟩ := List.forall_mem_cons.1 hparts
    refine .bind (ih.inferTarget hctx htarget) fun c hc => ?_
    refine .bind (ih.checkFields hctx (fun f hf => hfields f.2 (List.mem_map_of_mem hf)) hc)
      fun t ht => ?_
    exact .pure ⟨ht, S.values.classOf.2 hc⟩
  | newWith target args =>
    obtain ⟨htarget, hargs⟩ := List.forall_mem_cons.1 hparts
    refine .bind (ih.inferTarget hctx htarget) fun c hc => ?_
    exact .bind (ih.checkArgs hctx hargs hc) fun t ht => .pure ⟨ht, S.values.classOf.2 hc⟩
  | the type value =>
    obtain ⟨htype, hvalue⟩ : S.expr type ∧ S.expr value := by simpa [Form.parts] using hparts
    refine .bind (ih.checkType hctx htype) ?_
    rintro ⟨_, a⟩ ⟨_, ha⟩
    exact .bind (ih.check hctx hvalue ha) fun t ht => .pure ⟨ht, ha⟩
  | letIn label type value body =>
    obtain ⟨htype, hvalue, hbody⟩ : (∀ e ∈ type, S.expr e) ∧ S.expr value ∧ S.expr body := by
      simpa [Form.parts, or_imp, forall_and] using hparts
    refine .bind (ih.inferLet label hctx htype hvalue) ?_
    rintro ⟨ctx, x, t, v⟩ ⟨hctx, ht, hv⟩
    exact .bind (ih.infer hctx hbody) fun i hi => .pure ⟨S.terms.letIn ht hv hi.term, hi.type⟩

theorem inferLet_succ (ih : ElaboratesKeeping S n) (label : Name)
    {type : Option Expr} {value : Expr} (hctx : S.context ctx) (htype : ∀ e ∈ type, S.expr e)
    (hvalue : S.expr value) :
    (DependentClasses.inferLet (n + 1) ctx label type value).Ends S.toDiscipline
      fun r => S.context r.1 ∧ S.term r.2.2.1 ∧ S.term r.2.2.2 := by
  have hdefine (t : Term) (a : Value) (v : Term) (ht : S.term t) (ha : S.value a) (hv : S.term v) :
      Solver.Ends S.toDiscipline (do
        let w ← Solver.evaluate n ctx v
        let x ← Solver.freshName ctx label
        pure (ctx.define label x a w, x, t, v)) fun r => S.context r.1 ∧ S.term r.2.2.1 ∧
            S.term r.2.2.2 := by
    refine .bind (.evaluate hctx hv) fun w hw => .bind (.freshName label) fun x _ => ?_
    exact .pure ⟨S.scopes.define label x hctx ha hw, ht, hv⟩
  unfold DependentClasses.inferLet
  cases type with
  | some type =>
    refine .bind (ih.checkType hctx (htype type rfl)) ?_
    rintro ⟨t, a⟩ ⟨ht, ha⟩
    exact .bind (ih.check hctx hvalue ha) fun v hv => hdefine t a v ht ha hv
  | none =>
    refine .bind (ih.infer hctx hvalue) fun i hi => ?_
    exact .bind (.reify hi.type) fun t ht => hdefine t i.type i.term ht hi.type hi.term

theorem inferBinder_succ (ih : ElaboratesKeeping S n) (label : Name) {domain codomain : Expr}
    (hctx : S.context ctx) (hdomain : S.expr domain) (hcodomain : S.expr codomain) :
    (DependentClasses.inferBinder (n + 1) ctx label domain codomain).Ends S.toDiscipline
      fun r => S.term r.2.1 ∧ S.term r.2.2 := by
  unfold DependentClasses.inferBinder
  refine .bind (ih.checkType hctx hdomain) ?_
  rintro ⟨t, a⟩ ⟨ht, ha⟩
  refine .bind (bindFresh_keeps hctx label ha) ?_
  rintro ⟨inner, x⟩ hinner
  exact .bind (ih.check hinner hcodomain S.values.type) fun b hb => .pure ⟨ht, hb⟩

theorem inferFn_succ (ih : ElaboratesKeeping S n) {p : Plicity} (label : Name) {domain body : Expr}
    (hctx : S.context ctx) (happlied : S.applied p) (hdomain : S.expr domain)
    (hbody : S.expr body) :
    (DependentClasses.inferFn (n + 1) ctx p label domain body).Ends S.toDiscipline S.Infers := by
  unfold DependentClasses.inferFn
  refine .bind (ih.checkType hctx hdomain) ?_
  rintro ⟨t, a⟩ ⟨ht, ha⟩
  refine .bind (bindFresh_keeps hctx label ha) ?_
  rintro ⟨inner, x⟩ hinner
  refine .bind (ih.infer hinner hbody) fun i hi => .bind (.reify hi.type) fun b hb => ?_
  refine .bind (.evaluate hctx (S.terms.pi (fun _ => happlied) ht hb)) fun f hf => .pure ?_
  exact ⟨S.terms.fn happlied ht hi.term, hf⟩

theorem checkForm_succ (ih : ElaboratesKeeping S n) {e : Expr} {a : Value}
    (hctx : S.context ctx) (he : S.expr e) (ha : S.value a) :
    (DependentClasses.checkForm (n + 1) ctx e a).Ends S.toDiscipline S.term := by
  have hform := S.form_of_expr he
  have hparts := S.parts hform
  unfold DependentClasses.checkForm
  refine .bind (.force ha) fun a ha => ?_
  have hinferred := ih.checkInferred hctx he ha
  split
  · next label domain body hfn =>
    rw [hfn] at hform hparts
    obtain ⟨hdomain, hbody⟩ : (∀ e ∈ domain, S.expr e) ∧ S.expr body := by
      simpa [Form.parts, or_imp, forall_and] using hparts
    split
    · obtain ⟨-, hb, hc⟩ := S.values.pi ha
      exact ih.checkFn label hctx (S.fn hform) hdomain hbody hb hc
    · -- An implicit parameter that is not written is supplied: the expression is checked once more.
      obtain ⟨happlied, hb, hc⟩ := S.values.pi ha
      refine .bind (bindFresh_keeps hctx _ hb) ?_
      rintro ⟨inner, x⟩ hinner
      refine .bind (.apply hc (S.values.parameter x hb)) fun c hc =>
        .bind (ih.check hinner he hc) fun body hbody => ?_
      exact .bind (.reify hb) fun b hb => .pure (S.terms.fn (happlied rfl) hb hbody)
    · exact hinferred
  · next label domain body hfn =>
    rw [hfn] at hform hparts
    obtain ⟨hdomain, hbody⟩ : (∀ e ∈ domain, S.expr e) ∧ S.expr body := by
      simpa [Form.parts, or_imp, forall_and] using hparts
    split
    · obtain ⟨-, hb, hc⟩ := S.values.pi ha
      exact ih.checkFn label hctx (S.fn hform) hdomain hbody hb hc
    · exact hinferred
  · next car cdr hcons =>
    rw [hcons] at hparts
    obtain ⟨hcar, hcdr⟩ : S.expr car ∧ S.expr cdr := by simpa [Form.parts] using hparts
    split
    · obtain ⟨hb, hc⟩ := S.values.sigma ha
      refine .bind (ih.check hctx hcar hb) fun x hx => .bind (.evaluate hctx hx) fun v hv => ?_
      refine .bind (.apply hc hv) fun c hc => ?_
      exact .bind (ih.check hctx hcdr hc) fun y hy => .pure (S.terms.cons hx hy)
    · exact hinferred
  · next fields hobject =>
    rw [hobject] at hparts
    split
    · exact ih.checkFields hctx (fun f hf => hparts f.2 (List.mem_map_of_mem hf))
        (S.values.classOf.1 ha)
    · exact hinferred
  · next members hclass =>
    rw [hclass] at hform
    split
    · exact ih.checkClass hctx (S.members hform)
    · exact hinferred
  · next label type value body hlet =>
    rw [hlet] at hparts
    obtain ⟨htype, hvalue, hbody⟩ : (∀ e ∈ type, S.expr e) ∧ S.expr value ∧ S.expr body := by
      simpa [Form.parts, or_imp, forall_and] using hparts
    refine .bind (ih.inferLet label hctx htype hvalue) ?_
    rintro ⟨inner, x, t, v⟩ ⟨hinner, ht, hv⟩
    exact .bind (ih.check hinner hbody ha) fun b hb => .pure (S.terms.letIn ht hv hb)
  · exact hinferred

theorem checkInferred_succ (ih : ElaboratesKeeping S n) {e : Expr} {a : Value}
    (hctx : S.context ctx) (he : S.expr e) (ha : S.value a) :
    (DependentClasses.checkInferred (n + 1) ctx e a).Ends S.toDiscipline S.term := by
  have hincluded {i : Inferred} (hi : S.Infers i) : Solver.Ends S.toDiscipline (do
      inclusion n ctx i.type a
      pure i.term) S.term :=
    .bind (inclusion_keeps n hctx hi.type ha) fun _ _ => .pure hi.term
  unfold DependentClasses.checkInferred
  refine .bind (ih.infer hctx he) fun i hi => ?_
  split
  · exact .bind (.pure hi) fun _ hi => hincluded hi
  · exact .bind (applyImplicits_keeps n hi) fun _ hi => hincluded hi

theorem checkFn_succ (ih : ElaboratesKeeping S n) {p : Plicity} (label : Name)
    {domain : Option Expr} {body : Expr} {a : Value} {b : Closure} (hctx : S.context ctx)
    (happlied : S.applied p) (hdomain : ∀ e ∈ domain, S.expr e) (hbody : S.expr body)
    (ha : S.value a) (hb : S.closure b) :
    (DependentClasses.checkFn (n + 1) ctx p label domain body a b).Ends S.toDiscipline S.term := by
  have hchecked : Solver.Ends S.toDiscipline (do
      let r ← bindFresh ctx label a
      let b ← b.apply n (.variable a r.2)
      let body ← DependentClasses.check n r.1 body b
      let a ← Solver.reify n ctx a
      pure (Term.fn p r.2 a body)) S.term := by
    refine .bind (bindFresh_keeps hctx label ha) ?_
    rintro ⟨inner, x⟩ hinner
    refine .bind (.apply hb (S.values.parameter x ha)) fun b hb =>
      .bind (ih.check hinner hbody hb) fun body hbody => ?_
    exact .bind (.reify ha) fun a ha => .pure (S.terms.fn happlied ha hbody)
  unfold DependentClasses.checkFn
  cases domain with
  | none => exact hchecked
  | some domain =>
    refine .bind (ih.checkType hctx (hdomain domain rfl)) ?_
    rintro ⟨_, c⟩ ⟨_, hc⟩
    exact .bind (inclusion_keeps n hctx ha hc) fun _ _ => hchecked

theorem inferTarget_succ (ih : ElaboratesKeeping S n) {target : Expr} (hctx : S.context ctx)
    (htarget : S.expr target) :
    (DependentClasses.inferTarget (n + 1) ctx target).Ends S.toDiscipline S.chain := by
  unfold DependentClasses.inferTarget
  refine .bind (ih.checkType hctx htarget) ?_
  rintro ⟨_, a⟩ ⟨_, ha⟩
  refine .bind (.force ha) fun a ha => ?_
  split
  · exact .pure (S.values.classOf.1 ha)
  · exact .locating (expected_keeps .classType ha) htarget

theorem checkFields_succ (ih : ElaboratesKeeping S n) {fields : List (Name × Expr)} {c : Chain}
    (hctx : S.context ctx) (hfields : ∀ f ∈ fields, S.expr f.2) (hc : S.chain c) :
    (DependentClasses.checkFields (n + 1) ctx fields c).Ends S.toDiscipline S.term := by
  unfold DependentClasses.checkFields
  refine .bind (checkDistinct_keeps _) fun _ hdistinct => ?_
  refine .bind (ih.checkAlong hctx hfields hc) fun known hknown => ?_
  refine .bind (.mapM_fields (S := S.term) fun f hf => ?_) ?_
  · have hf := hfields f (List.mem_filter.1 hf).1
    exact .bind (.within (ih.infer hctx hf) _) fun i hi => .pure ⟨rfl, hi.term⟩
  · rintro extra ⟨hextras, hextra⟩
    refine .pure (S.terms.object (fun hl => ?_) (List.forall_mem_append.2 ⟨hknown.terms, hextra⟩))
    -- What the object has beyond its class is among what is written, and not among the labels of
    -- the class.
    rw [List.map_append, hextras, List.nodup_append]
    refine ⟨hknown.labels hl ▸ S.values.distinct hc hl, ?_, ?_⟩
    · exact hdistinct.sublist (List.Sublist.map _ List.filter_sublist)
    · rintro k hk _ hj rfl
      obtain ⟨f, hf, rfl⟩ := List.mem_map.1 hj
      have hnot : f.1 ∉ known.map Prod.fst := by simpa using (List.mem_filter.1 hf).2
      exact hnot hk

theorem checkAlong_succ (ih : ElaboratesKeeping S n) {fields : List (Name × Expr)} {c : Chain}
    (hctx : S.context ctx) (hfields : ∀ f ∈ fields, S.expr f.2) (hc : S.chain c) :
    (DependentClasses.checkAlong (n + 1) ctx fields c).Ends S.toDiscipline
      (S.Checks c.classLabels) := by
  unfold DependentClasses.checkAlong
  cases c with
  | nil => exact .pure .nil
  | declared label a rest =>
    dsimp only
    split
    · exact .told rfl
    · next e he =>
      have he := hfields _ (mem_of_lookup he)
      refine .bind (.within (ih.check hctx he (S.values.declared hc).2) _) fun t ht => ?_
      refine .bind (.evaluate hctx ht) fun v hv => .bind (.rest hc hv) ?_
      rintro d ⟨hd, hlabels⟩
      exact .bind (ih.checkAlong hctx hfields hd) fun more hmore =>
        .pure ((hmore.of_eq hlabels).cons label ht)
  | fulfilled label a w rest =>
    obtain ⟨-, ha, hw, hrest⟩ := S.values.fulfilled.1 hc
    have hmore (t : Term) (ht : S.term t) : Solver.Ends S.toDiscipline (do
        let more ← DependentClasses.checkAlong n ctx fields rest
        pure ((label, t) :: more)) (S.Checks (label :: rest.classLabels)) :=
      .bind (ih.checkAlong hctx hfields hrest) fun more hmore => .pure (hmore.cons label ht)
    dsimp only
    split
    · next e he =>
      have he := hfields _ (mem_of_lookup he)
      refine .bind (.within (.bind (ih.check hctx he ha) fun t ht => ?_) _) hmore
      exact .bind (.evaluate hctx ht) fun v hv =>
        .bind (convert_keeps n ctx ha hw hv) fun _ _ => .pure ht
    · exact .bind (.reify hw) hmore

/-- An argument that a class has no property left for is refused at its place. -/
theorem extraArgument {α : Type} {Q : α → Prop} {c : Chain} (hc : S.chain c) {arg : Expr}
    (harg : S.expr arg) :
    Solver.Ends S.toDiscipline (Solver.locating arg.span do
      let t ← Solver.reifyChain n ctx c
      refuse (.extraArgument t)) Q :=
  .locating (.bind (.reifyChain hc) fun _ _ => .told rfl) harg

theorem checkArgs_succ (ih : ElaboratesKeeping S n) {args : List Expr} {c : Chain}
    (hctx : S.context ctx) (hargs : ∀ e ∈ args, S.expr e) (hc : S.chain c) :
    (DependentClasses.checkArgs (n + 1) ctx args c).Ends S.toDiscipline S.term := by
  unfold DependentClasses.checkArgs
  refine .bind (ih.checkArgsAlong hctx hargs hc) ?_
  rintro ⟨known, unused⟩ ⟨hknown, hunused⟩
  cases unused with
  | nil =>
    exact .pure (S.terms.object (fun hl => hknown.labels hl ▸ S.values.distinct hc hl) hknown.terms)
  | cons arg _ => exact extraArgument hc (hunused arg List.mem_cons_self)

/-- The arguments that are left over are among those that are given. -/
theorem checkArgsAlong_succ (ih : ElaboratesKeeping S n) {args : List Expr} {c : Chain}
    (hctx : S.context ctx) (hargs : ∀ e ∈ args, S.expr e) (hc : S.chain c) :
    (DependentClasses.checkArgsAlong (n + 1) ctx args c).Ends S.toDiscipline
      fun r => S.Checks c.classLabels r.1 ∧ ∀ e ∈ r.2, S.expr e := by
  unfold DependentClasses.checkArgsAlong
  cases c with
  | nil => exact .pure ⟨.nil, hargs⟩
  | declared label a rest =>
    cases args with
    | nil => exact .told rfl
    | cons arg args =>
      obtain ⟨harg, hargs⟩ := List.forall_mem_cons.1 hargs
      refine .bind (.within (ih.check hctx harg (S.values.declared hc).2) _) fun t ht => ?_
      refine .bind (.evaluate hctx ht) fun v hv => .bind (.rest hc hv) ?_
      rintro d ⟨hd, hlabels⟩
      refine .bind (ih.checkArgsAlong hctx hargs hd) ?_
      rintro ⟨more, unused⟩ ⟨hmore, hunused⟩
      exact .pure ⟨(hmore.of_eq hlabels).cons label ht, hunused⟩
  | fulfilled label a w rest =>
    obtain ⟨-, -, hw, hrest⟩ := S.values.fulfilled.1 hc
    refine .bind (.reify hw) fun t ht => ?_
    refine .bind (ih.checkArgsAlong hctx hargs hrest) ?_
    rintro ⟨more, unused⟩ ⟨hmore, hunused⟩
    exact .pure ⟨hmore.cons label ht, hunused⟩

theorem checkClassArg_succ (ih : ElaboratesKeeping S n) {c : Chain} {arg : Expr}
    (hctx : S.context ctx) (hc : S.chain c) (harg : S.expr arg) :
    (DependentClasses.checkClassArg (n + 1) ctx c arg).Ends S.toDiscipline S.chain := by
  unfold DependentClasses.checkClassArg
  refine .bind (ih.fulfilNext hctx hc harg) fun r hr => ?_
  cases r with
  | some d => exact .pure (hr d rfl).1
  | none => exact extraArgument hc harg

/-- A class with one more property fulfilled has the labels that it had. -/
theorem fulfilNext_succ (ih : ElaboratesKeeping S n) {c : Chain} {arg : Expr} (hctx : S.context ctx)
    (hc : S.chain c) (harg : S.expr arg) :
    (DependentClasses.fulfilNext (n + 1) ctx c arg).Ends S.toDiscipline
      fun r => ∀ d ∈ r, S.chain d ∧ (S.labelled → d.classLabels = c.classLabels) := by
  have hdistinct := S.values.distinct hc
  unfold DependentClasses.fulfilNext
  cases c with
  | nil => exact .pure (by simp)
  | declared label a rest =>
    have ha := (S.values.declared hc).2
    refine .bind (.within (ih.check hctx harg ha) _) fun t ht =>
      .bind (.evaluate hctx ht) fun v hv => ?_
    refine .bind (.rest hc hv) ?_
    rintro d ⟨hd, hlabels⟩
    refine .pure ?_
    rintro _ ⟨⟩
    have hlabel (hl : S.labelled) : label ∉ d.classLabels :=
      hlabels hl ▸ (List.nodup_cons.1 (hdistinct hl)).1
    exact ⟨S.values.fulfilled.2 ⟨hlabel, ha, hv, hd⟩, fun hl => congrArg (label :: ·) (hlabels hl)⟩
  | fulfilled label a v rest =>
    obtain ⟨hlabel, ha, hv, hrest⟩ := S.values.fulfilled.1 hc
    refine .bind (ih.fulfilNext hctx hrest harg) fun r hr => .pure fun d hd => ?_
    obtain ⟨rest', hrest', rfl⟩ := Option.map_eq_some_iff.1 hd
    obtain ⟨hchain, hlabels⟩ := hr rest' hrest'
    refine ⟨S.values.fulfilled.2 ⟨fun hl => hlabels hl ▸ hlabel hl, ha, hv, hchain⟩, fun hl => ?_⟩
    exact congrArg (label :: ·) (hlabels hl)

theorem checkClass_succ (ih : ElaboratesKeeping S n) {members : List Member} (hctx : S.context ctx)
    (hmembers : ∀ m ∈ members, S.member m) :
    (DependentClasses.checkClass (n + 1) ctx members).Ends S.toDiscipline S.term := by
  unfold DependentClasses.checkClass
  refine .bind (checkDistinct_keeps _) fun _ hdistinct => ?_
  exact (ih.checkMembers hctx hmembers hdistinct).mono fun _ ht => ht.1

theorem checkMembers_succ (ih : ElaboratesKeeping S n) {members : List Member}
    (hctx : S.context ctx) (hmembers : ∀ m ∈ members, S.member m)
    (hdistinct : (members.map Member.label).Nodup) :
    (DependentClasses.checkMembers (n + 1) ctx members).Ends S.toDiscipline
      fun t => S.term t ∧ t.IsClass ∧ t.classLabels = members.map Member.label := by
  unfold DependentClasses.checkMembers
  cases members with
  | nil => exact .pure ⟨S.terms.emptyClass, True.intro, rfl⟩
  | cons member members =>
    have hlater := (List.nodup_cons.1 hdistinct).2
    rw [List.forall_mem_cons] at hmembers
    obtain ⟨hmember, hmembers⟩ := hmembers
    have hparts := S.member_parts hmember
    cases member with
    | declared label type =>
      have htype : S.expr type := hparts type (List.mem_singleton.2 rfl)
      refine .bind (.within (ih.check hctx htype S.values.type) _) fun t ht =>
        .bind (.evaluate hctx ht) fun a ha => ?_
      refine .bind (bindFresh_keeps hctx label ha) ?_
      rintro ⟨inner, x⟩ hinner
      refine .bind (ih.checkMembers hinner hmembers hlater) ?_
      rintro rest ⟨hrest, hclass, hlabels⟩
      have heq : label :: rest.classLabels = label :: members.map Member.label := by rw [hlabels]
      exact .pure ⟨S.terms.declared (S.declared hmember) hclass (fun _ => heq ▸ hdistinct) ht hrest,
        True.intro, heq⟩
    | fulfilled label type value =>
      obtain ⟨htype, hvalue⟩ : (∀ e ∈ type, S.expr e) ∧ S.expr value := by
        simpa [Member.parts, or_imp, forall_and] using hparts
      have hdefine (t : Term) (a : Value) (v : Term) (ht : S.term t) (ha : S.value a)
          (hv : S.term v) :
          Solver.Ends S.toDiscipline (do
            let w ← Solver.evaluate n ctx v
            let x ← Solver.freshName ctx label
            let rest ← DependentClasses.checkMembers n (ctx.define label x a w) members
            pure (Term.fulfilled label x t v rest))
            fun t => S.term t ∧ t.IsClass ∧ t.classLabels = label :: members.map Member.label := by
        refine .bind (.evaluate hctx hv) fun w hw => .bind (.freshName label) fun x _ => ?_
        refine .bind (ih.checkMembers (S.scopes.define label x hctx ha hw) hmembers hlater) ?_
        rintro rest ⟨hrest, hclass, hlabels⟩
        have heq : label :: rest.classLabels = label :: members.map Member.label := by rw [hlabels]
        exact .pure ⟨S.terms.fulfilled hclass (fun _ => heq ▸ hdistinct) ht hv hrest,
          True.intro, heq⟩
      cases type with
      | some type =>
        refine .bind (.within (ih.check hctx (htype type rfl) S.values.type) _) fun t ht => ?_
        refine .bind (.evaluate hctx ht) fun a ha =>
          .bind (.within (ih.check hctx hvalue ha) _) fun v hv => ?_
        exact hdefine t a v ht ha hv
      | none =>
        refine .bind (.within (ih.infer hctx hvalue) _) fun i hi =>
          .bind (.reify hi.type) fun t ht => ?_
        exact hdefine t i.type i.term ht hi.type hi.term

theorem zero (S : WrittenStandard) : ElaboratesKeeping S 0 where
  infer _ _ := by rw [DependentClasses.infer]; exact .outOfFuel
  check _ _ _ := by rw [DependentClasses.check]; exact .outOfFuel
  checkType _ _ := by rw [DependentClasses.checkType]; exact .outOfFuel
  inferForm _ _ := by rw [DependentClasses.inferForm]; exact .outOfFuel
  inferLet _ _ _ _ _ _ := by rw [DependentClasses.inferLet]; exact .outOfFuel
  inferBinder _ _ _ _ _ _ := by rw [DependentClasses.inferBinder]; exact .outOfFuel
  inferFn _ _ _ _ _ _ _ := by rw [DependentClasses.inferFn]; exact .outOfFuel
  checkForm _ _ _ := by rw [DependentClasses.checkForm]; exact .outOfFuel
  checkInferred _ _ _ := by rw [DependentClasses.checkInferred]; exact .outOfFuel
  checkFn _ _ _ _ _ _ _ _ _ _ _ := by rw [DependentClasses.checkFn]; exact .outOfFuel
  inferTarget _ _ := by rw [DependentClasses.inferTarget]; exact .outOfFuel
  checkFields _ _ _ := by rw [DependentClasses.checkFields]; exact .outOfFuel
  checkAlong _ _ _ := by rw [DependentClasses.checkAlong]; exact .outOfFuel
  checkArgs _ _ _ := by rw [DependentClasses.checkArgs]; exact .outOfFuel
  checkArgsAlong _ _ _ := by rw [DependentClasses.checkArgsAlong]; exact .outOfFuel
  checkClassArg _ _ _ := by rw [DependentClasses.checkClassArg]; exact .outOfFuel
  fulfilNext _ _ _ := by rw [DependentClasses.fulfilNext]; exact .outOfFuel
  checkClass _ _ := by rw [DependentClasses.checkClass]; exact .outOfFuel
  checkMembers _ _ _ := by rw [DependentClasses.checkMembers]; exact .outOfFuel

theorem all (S : WrittenStandard) (n : Nat) : ElaboratesKeeping S n := by
  induction n with
  | zero => exact zero S
  | succ n ih =>
    exact ⟨ih.infer_succ, ih.check_succ, ih.checkType_succ, ih.inferForm_succ, ih.inferLet_succ,
      ih.inferBinder_succ,
      ih.inferFn_succ, ih.checkForm_succ, ih.checkInferred_succ, ih.checkFn_succ,
        ih.inferTarget_succ,
      ih.checkFields_succ, ih.checkAlong_succ, ih.checkArgs_succ, ih.checkArgsAlong_succ,
        ih.checkClassArg_succ,
      ih.fulfilNext_succ, ih.checkClass_succ, ih.checkMembers_succ⟩

end ElaboratesKeeping

section

variable {S : WrittenStandard} {n : Nat} {ctx : Context}

theorem infer_keeps (n : Nat) (hctx : S.context ctx) {e : Expr} (he : S.expr e) :
    (infer n ctx e).Ends S.toDiscipline S.Infers :=
  (ElaboratesKeeping.all S n).infer hctx he

theorem check_keeps (n : Nat) (hctx : S.context ctx) {e : Expr} (he : S.expr e) {a : Value}
    (ha : S.value a) :
    (check n ctx e a).Ends S.toDiscipline S.term :=
  (ElaboratesKeeping.all S n).check hctx he ha

theorem checkType_keeps (n : Nat) (hctx : S.context ctx) {e : Expr} (he : S.expr e) :
    (checkType n ctx e).Ends S.toDiscipline fun r => S.term r.1 ∧ S.value r.2 :=
  (ElaboratesKeeping.all S n).checkType hctx he

theorem ensureResolved_keeps (lexicon : Lexicon) (t : Term) :
    (ensureResolved lexicon t).Ends S.toDiscipline fun _ => True := by
  unfold ensureResolved
  refine .bind .get fun s _ => ?_
  split
  · exact .told rfl
  · exact .pure True.intro

namespace Equation

theorem solve_keeps (n : Nat) (hctx : S.context ctx) {e : Equation}
    (he : ∀ part ∈ e.parts, S.expr part) :
    (e.solve n ctx).Ends S.toDiscipline fun _ => True := by
  obtain ⟨htype, hleft, hright⟩ : (∀ part ∈ e.type, S.expr part) ∧ S.expr e.left ∧
      S.expr e.right := by
    simpa [Equation.parts, or_imp, forall_and] using he
  unfold solve
  split
  · next type heq =>
    refine .bind (checkType_keeps n hctx (htype type heq)) fun ⟨_, a⟩ ⟨_, ha⟩ => ?_
    refine .bind (check_keeps n hctx hleft ha) fun l hl =>
      .bind (check_keeps n hctx hright ha) fun r hr => ?_
    refine .bind (.evaluate hctx hl) fun l hl => .bind (.evaluate hctx hr) fun r hr => ?_
    exact unify_keeps n hctx ha hl hr
  · refine .bind (infer_keeps n hctx hleft) fun l hl =>
      .bind (infer_keeps n hctx hright) fun r hr => ?_
    refine .bind (.judging fun s hs => convertType_keeps n ctx hs hl.type hr.type) fun _ _ => ?_
    refine .bind (.evaluate hctx hl.term) fun v hv => .bind (.evaluate hctx hr.term) fun w hw => ?_
    exact unify_keeps n hctx hl.type hv hw

theorem solveAll_keeps (n : Nat) (hctx : S.context ctx) : ∀ (index : Nat) {es : List Equation},
    (∀ e ∈ es, ∀ part ∈ e.parts, S.expr part) →
    (solveAll n ctx index es).Ends S.toDiscipline fun _ => True
  | _, [], _ => .pure True.intro
  | index, e :: es, hes => by
    obtain ⟨he, hes⟩ := List.forall_mem_cons.1 hes
    exact .bind (.within (solve_keeps n hctx he) _) fun _ _ => solveAll_keeps n hctx (index + 1) hes

end Equation

theorem bindUnknowns_keeps (n : Nat) :
    ∀ {ctx : Context} {unknowns : List (Name × Expr)}, S.context ctx →
    (∀ u ∈ unknowns, S.expr u.2) →
      (bindUnknowns n ctx unknowns).Ends S.toDiscipline fun r => S.context r.1 ∧
      ∀ v ∈ r.2, S.value v.2
  | _, [], hctx, _ => .pure ⟨hctx, by simp⟩
  | ctx, (label, type) :: unknowns, hctx, hunknowns => by
    obtain ⟨htype, hunknowns⟩ := List.forall_mem_cons.1 hunknowns
    refine .bind (checkType_keeps n hctx htype) fun ⟨_, a⟩ ⟨_, ha⟩ =>
      .bind (.freshName label) fun x _ => ?_
    refine .bind (.create ha x) fun v hv => ?_
    refine .bind (bindUnknowns_keeps n (S.scopes.bind label x hctx ha) hunknowns)
      fun ⟨inner, vs⟩ ⟨hinner, hvs⟩ => ?_
    exact .pure ⟨hinner, List.forall_mem_cons.2 ⟨hv, hvs⟩⟩

/-- A statement leaves a scope that is as asked, and so are the terms of its answer. -/
theorem Statement.run_keeps (n : Nat) (lexicon : Lexicon) (hctx : S.context ctx) {st : Statement}
    (hst : ∀ e ∈ st.parts, S.expr e) :
    (st.run n lexicon ctx).Ends S.toDiscipline fun r => S.context r.1 ∧
      ∀ a ∈ r.2, ∀ t ∈ a.terms, S.term t := by
  unfold run
  cases st with
  | define label type value =>
    obtain ⟨htype, hvalue⟩ : (∀ e ∈ type, S.expr e) ∧ S.expr value := by
      simpa [Statement.parts, or_imp, forall_and] using hst
    have hdefine (t : Term) (a : Value) (ht : S.term t) (ha : S.value a) :
        Solver.Ends S.toDiscipline (do
          let v ← Solver.evaluate n ctx t
          let u ← Solver.reify n ctx a
          ensureResolved lexicon u
          let w ← Solver.reify n ctx v
          ensureResolved lexicon w
          let a ← Solver.evaluate n ctx u
          let x ← Solver.freshName ctx label
          pure (ctx.define label x a v, (none : Option Answer)))
        fun r => S.context r.1 ∧ ∀ a ∈ r.2, ∀ t ∈ a.terms, S.term t := by
      refine .bind (.evaluate hctx ht) fun v hv => .bind (.reify ha) fun u hu => ?_
      refine .bind (ensureResolved_keeps lexicon u) fun _ _ => .bind (.reify hv) fun w _ => ?_
      refine .bind (ensureResolved_keeps lexicon w) fun _ _ =>
        .bind (.evaluate hctx hu) fun a ha => ?_
      exact .bind (.freshName label) fun x _ => .pure ⟨S.scopes.define label x hctx ha hv, by simp⟩
    cases type with
    | some type =>
      refine .bind (checkType_keeps n hctx (htype type rfl)) fun ⟨_, a⟩ ⟨_, ha⟩ => ?_
      exact .bind (check_keeps n hctx hvalue ha) fun t ht => hdefine t a ht ha
    | none =>
      exact .bind (infer_keeps n hctx hvalue) fun i hi => hdefine i.term i.type hi.term hi.type
  | check value type =>
    obtain ⟨hvalue, htype⟩ : S.expr value ∧ S.expr type := by simpa [Statement.parts] using hst
    refine .bind (checkType_keeps n hctx htype) fun ⟨_, a⟩ ⟨_, ha⟩ => ?_
    refine .bind (check_keeps n hctx hvalue ha) fun t ht => .bind (.evaluate hctx ht) fun v hv => ?_
    exact .bind (.reify hv) fun w _ => .bind (ensureResolved_keeps lexicon w) fun _ _ =>
      .pure ⟨hctx, by simp⟩
  | compute value =>
    refine .bind (infer_keeps n hctx (hst value (List.mem_singleton.2 rfl))) fun i hi => ?_
    refine .bind (.evaluate hctx hi.term) fun v hv => .bind (.reify hv) fun t ht =>
      .bind (.reify hi.type) fun u hu => ?_
    refine .bind (ensureResolved_keeps lexicon t) fun _ _ =>
      .bind (ensureResolved_keeps lexicon u) fun _ _ => ?_
    exact .pure ⟨hctx, by simpa [Answer.terms] using ⟨ht, hu⟩⟩
  | solve unknowns equations =>
    obtain ⟨hunknowns, hequations⟩ := List.forall_mem_append.1 hst
    rw [List.forall_mem_map] at hunknowns
    refine .bind (bindUnknowns_keeps n hctx hunknowns) fun ⟨inner, vs⟩ ⟨hinner, hvs⟩ => ?_
    have hequations : ∀ e ∈ equations, ∀ part ∈ e.parts, S.expr part := fun e he part hpart =>
      hequations part (List.mem_flatMap.2 ⟨e, he, hpart⟩)
    refine .bind (Equation.solveAll_keeps n hinner 0 hequations) fun _ _ => ?_
    refine .bind (.mapM_fields (S := S.term) fun v hv => ?_) fun solutions ⟨_, hterms⟩ =>
      .pure ⟨hctx, ?_⟩
    · refine .bind (.reify (hvs v hv)) fun t ht => ?_
      exact .bind (ensureResolved_keeps lexicon t) fun _ _ => .pure ⟨rfl, ht⟩
    · rintro _ ⟨⟩
      exact List.forall_mem_map.2 hterms

end

namespace Toplevel

structure Keeps (S : WrittenStandard) (m : Toplevel) : Prop where
  context : S.context m.context
  solution : S.solution m.solution

namespace Keeps

variable {S : WrittenStandard} {m m' : Toplevel} {n : Nat} {st : Statement}

theorem answer (h : m.Keeps S) (hst : ∀ e ∈ st.parts, S.expr e) {a : Option Answer}
    (ha : m.answer n st = .ok (a, m')) : m'.Keeps S := by
  have hends := Statement.run_keeps n m.lexicon h.context hst m.solution h.solution
  obtain ⟨hs, hctx, -⟩ := hends.of_ok (answer_eq_ok ha).1
  exact ⟨hctx, hs⟩

theorem failure (h : m.Keeps S) (hst : ∀ e ∈ st.parts, S.expr e) {f : Failure}
    (hf : m.answer n st = .error (.failure f)) : S.failure f := by
  have hends := Statement.run_keeps n m.lexicon h.context hst m.solution h.solution
  unfold Toplevel.answer Toplevel.solve at hf
  split at hf
  · cases hf
  · next hrun =>
    cases hf
    exact (hends.of_refused hrun).2
  · cases hf

end Keeps

end Toplevel

end DependentClasses
