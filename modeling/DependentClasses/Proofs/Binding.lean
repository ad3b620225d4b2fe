import DependentClasses.Proofs.UnificationRules
import DependentClasses.Proofs.WellFormed

/-! What solving does to a solution. A successful unification changes it only by binding
unsolved pattern variables, one after the other, and each binding has passed the checks of
its time. Unification of well-formed values keeps the solution well-formed. -/
namespace DependentClasses

variable {strict : Prop}

/-- One pattern variable solved: what was looked at and what was found. -/
structure Binding where
  before : Solution
  ctx : Context
  fuel : Nat
  spine : PatternSpine
  other : Value
  type : Value
  scope : List Name
  parameters : List Name
  body : Term
  term : Term
  value : Value
  unsolved : before.find spine.head = some (.unsolved type scope)
  parameters_eq :
    (PatternSpine.parameters fuel before ctx spine.head [] spine.args).Yields parameters
  body_eq : before.reify fuel ctx other = .ok body
  checked : (PatternSpine.checkScope before spine.head parameters scope
    (before.listing.arrange body.freeNames)).Yields ()
  term_eq : PatternSpine.abstracted fuel before ctx (spine.args.zip parameters) body = .ok term
  value_eq : eval fuel (before.environment ctx) term = .ok value

namespace Binding

def head (b : Binding) : Name := b.spine.head

def after (b : Binding) : Solution := b.before.bind b.head b.value

theorem find_before (b : Binding) :
    b.before.find b.head = some (.unsolved b.type b.scope) := b.unsolved

theorem find_head (b : Binding) : b.after.find b.head = some (.solved b.type b.value) :=
  Solution.find_bind_self b.unsolved

theorem find_of_ne (b : Binding) {y : Name} (h : y ≠ b.head) : b.after.find y = b.before.find y :=
  Solution.find_bind_of_ne h

theorem find_after (b : Binding) (y : Name) :
    b.after.find y = if y = b.head then some (.solved b.type b.value) else b.before.find y := by
  split
  · next h => rw [h, b.find_head]
  · next h => exact b.find_of_ne h

theorem not_isSolved_head (b : Binding) : ¬ b.before.IsSolved b.head := by
  rintro ⟨a, v, h⟩
  rw [b.find_before] at h
  cases h

end Binding

/-- Whatever the order in which names are looked at, a check of the scope passes if all of them may
be mentioned. -/
theorem PatternSpine.checkScope_iff {s : Solution} {head : Name} {parameters scope ys : List Name} :
    (checkScope s head parameters scope ys).Yields () ↔
      ∀ y ∈ ys, y ≠ head ∧ (y ∈ parameters ∨ y ∈ scope ∨ s.isPatternVariable y) := by
  induction ys with
  | nil => simp [checkScope]
  | cons y ys ih =>
    rw [checkScope, List.forall_mem_cons, ← ih]
    split
    · next heq => simp [heq]
    · next hne =>
      split
      · next hescape => simp [hescape.1, hescape.2.1, hescape.2.2]
      · next hin =>
        have hy : y ∈ parameters ∨ y ∈ scope ∨ s.isPatternVariable y := by
          by_contra hnot
          simp only [not_or, Bool.not_eq_true] at hnot
          exact hin hnot
        exact ⟨fun h => ⟨⟨hne, hy⟩, h⟩, fun h => h.2⟩

namespace Binding

/-- The names of the body are other variables, and in scope unless they are pattern variables. -/
theorem of_mem_body (b : Binding) {y : Name} (hy : y ∈ b.body.freeNames) :
    y ≠ b.head ∧ (y ∈ b.parameters ∨ y ∈ b.scope ∨ b.before.isPatternVariable y) :=
  PatternSpine.checkScope_iff.1 b.checked y (b.before.listing.mem_arrange.2 hy)

/-- No name of the body is solved. -/
theorem not_isSolved_of_mem_body (b : Binding) (hnamed : b.before.NamedIn b.before.names) {y : Name}
    (hy : y ∈ b.body.freeNames) : ¬ b.before.IsSolved y := by
  have hall : ∀ v : Value, v.Over fun _ => True := fun v q _ => by cases q <;> trivial
  have hkeeps : b.before.Keeps (Part.Named fun _ => True) := fun m a v _ _ => hall v
  exact (((ReadsNormal.all b.before b.fuel).value hkeeps (hnamed.usedNames b.ctx) b.body_eq
    (hall _)).free y hy).2

end Binding

namespace PatternSpine

variable {n : Nat} {s s' : Solution} {ctx : Context}

theorem exists_binding {spine : PatternSpine} {other : Value}
    (h : (spine.solve n s ctx other).Yields s') :
    ∃ b : Binding, b.before = s ∧ b.ctx = ctx ∧ b.spine = spine ∧ b.other = other ∧
      b.after = s' := by
  unfold solve at h
  simp only [Verdict.yields_bind, Verdict.yields_lift] at h
  obtain ⟨xs, hxs, body, hbody, h⟩ := h
  split at h
  · next a scope hfind =>
    simp only [Verdict.yields_bind, Verdict.yields_lift, Verdict.yields_pure] at h
    obtain ⟨_, hcheck, t, ht, v, hv, rfl⟩ := h
    exact ⟨⟨s, ctx, n, spine, other, a, scope, xs, body, t, v, hfind, hxs, hbody, hcheck, ht, hv⟩,
      rfl, rfl, rfl, rfl, rfl⟩
  · simp at h

/-- The types that a variable is applied at are recorded in what is stuck on it. -/
theorem args_all {P : Part → Prop} {e : Neutral} {spine : PatternSpine}
    (h : e.patternSpine s = some spine) (he : e.All P) : ∀ a ∈ spine.args, a.type.All P :=
  match e with
  | .var x => by
    unfold Neutral.patternSpine at h
    split at h
    · cases h
      simp
    · cases h
  | .app p f a v => by
    unfold Neutral.patternSpine at h
    simp only [Option.map_eq_some_iff] at h
    obtain ⟨⟨head, args⟩, hf, rfl⟩ := h
    obtain ⟨htarget, ha, -⟩ := Neutral.all_app.1 he
    intro b hb
    rcases List.mem_append.1 hb with hb | hb
    · exact args_all (e := f) hf htarget b hb
    · rw [List.mem_singleton.1 hb]
      exact ha
  | .car _ | .cdr _ | .dot _ _ => by cases h

theorem abstracted_wellFormed (hs : s.WellFormed strict)
    {params : List (Arg × Name)} {body t : Term} (h : abstracted n s ctx params body = .ok t)
    (hargs : ∀ a ∈ params, a.1.type.WellFormed strict) (hbody : body.WellFormed strict) :
    t.WellFormed strict := by
  induction params generalizing t with
  | nil =>
    rw [abstracted, Eval.pure_eq_ok] at h
    exact h ▸ hbody
  | cons a params ih =>
    simp only [abstracted, Eval.bind_eq_ok, Eval.pure_eq_ok] at h
    obtain ⟨inner, hinner, domain, hdomain, rfl⟩ := h
    have hdomain := hs.reify hdomain (hargs a List.mem_cons_self)
    exact Term.all_fn.2 ⟨hdomain, ih hinner fun b hb => hargs b (List.mem_cons_of_mem a hb)⟩

end PatternSpine

/-- Binding to a well-formed value keeps the solution well-formed. -/
theorem Binding.after_wellFormed (b : Binding) (hs : b.before.WellFormed strict)
    (hctx : b.ctx.WellFormed strict) (hargs : ∀ a ∈ b.spine.args, a.type.WellFormed strict)
    (hother : b.other.WellFormed strict) :
    b.after.WellFormed strict := by
  have hterm : b.term.WellFormed strict := by
    refine PatternSpine.abstracted_wellFormed hs b.term_eq (fun a ha => ?_)
      (hs.reify b.body_eq hother)
    exact hargs a.1 (List.of_mem_zip ha).1
  intro m p hm
  rw [b.find_after] at hm
  split at hm
  · cases hm
    exact ⟨hs _ _ b.unsolved, hs.eval hctx hterm b.value_eq⟩
  · exact hs m p hm

/-- The bindings that lead from one solution to another, the last one first. -/
inductive Binds : Solution → List Binding → Solution → Prop
  | nil (s : Solution) : Binds s [] s
  | cons {s : Solution} {bs : List Binding} (b : Binding) : Binds s bs b.before →
      Binds s (b :: bs) b.after

theorem Binds.append {s s₁ s₂ : Solution} {bs cs : List Binding} (h : Binds s bs s₁)
    (h' : Binds s₁ cs s₂) :
    Binds s (cs ++ bs) s₂ := by
  induction h' with
  | nil => exact h
  | cons b _ ih => exact .cons b ih

/-- `s'` comes from `s` by bindings alone. -/
def Solution.BindsTo (s s' : Solution) : Prop := ∃ bs, Binds s bs s'

namespace Solution.BindsTo

theorem refl (s : Solution) : s.BindsTo s := ⟨[], .nil s⟩

theorem trans {s s₁ s₂ : Solution} (h : s.BindsTo s₁) (h' : s₁.BindsTo s₂) : s.BindsTo s₂ :=
  let ⟨bs, hbs⟩ := h
  let ⟨cs, hcs⟩ := h'
  ⟨cs ++ bs, hbs.append hcs⟩

end Solution.BindsTo

/-- What solving does to a solution, where `given` makes sure that what is compared is
well-formed. -/
structure Solving (strict given : Prop) (s s' : Solution) : Prop where
  bindsTo : s.BindsTo s'
  wellFormed : given → s.WellFormed strict → s'.WellFormed strict

namespace Solving

variable {p q : Prop} {s s₁ s₂ s' : Solution}

theorem refl (p : Prop) (s : Solution) : Solving strict p s s := ⟨.refl s, fun _ => id⟩

theorem imp (h : Solving strict p s s') (hqp : s.WellFormed strict → q → p) :
    Solving strict q s s' :=
  ⟨h.bindsTo, fun hq hs => h.wellFormed (hqp hs hq) hs⟩

theorem trans (h : Solving strict p s s₁) (h' : Solving strict p s₁ s₂) : Solving strict p s s₂ :=
  ⟨h.bindsTo.trans h'.bindsTo, fun hp hs => h'.wellFormed hp (h.wellFormed hp hs)⟩

end Solving

theorem PatternSpine.solving_of_solve {n : Nat} {ctx : Context}
    {spine : PatternSpine} {other : Value} {s s' : Solution}
    (h : (spine.solve n s ctx other).Yields s') :
    Solving strict (ctx.WellFormed strict ∧ (∀ a ∈ spine.args, a.type.WellFormed strict) ∧
      other.WellFormed strict) s s' := by
  obtain ⟨b, rfl, rfl, rfl, rfl, rfl⟩ := PatternSpine.exists_binding h
  refine ⟨⟨[b], .cons b (.nil _)⟩, ?_⟩
  rintro ⟨hctx, hargs, hother⟩ hs
  exact b.after_wellFormed hs hctx hargs hother

theorem Value.args_wellFormed {s : Solution} {v : Value} {spine : PatternSpine}
    (h : v.patternSpine s = some spine) (hv : v.WellFormed strict) :
    ∀ a ∈ spine.args, a.type.WellFormed strict := by
  unfold Value.patternSpine at h
  split at h
  · exact PatternSpine.args_all h (Value.all_neutral.1 hv).2
  · cases h

theorem Value.resultType_wellFormed {n : Nat} {a v b : Value} (h : a.resultType n v = .ok b)
    (ha : a.WellFormed strict) (hv : v.WellFormed strict) : b.WellFormed strict := by
  unfold Value.resultType at h
  split at h
  · exact Closure.apply_all h (Value.all_pi.1 ha).2 hv
  · rw [Eval.pure_eq_ok] at h
    exact h ▸ Value.all_type

theorem Value.fieldType_wellFormed {n : Nat} {a l b : Value} {k : Name}
    (h : a.fieldType n l k = .ok (some b)) (ha : a.WellFormed strict) (hl : l.WellFormed strict) :
    b.WellFormed strict := by
  unfold Value.fieldType at h
  split at h
  · exact Chain.typeOf_all h (Value.all_classOf.1 ha) hl
  · simp at h

def Problem.WellFormed (strict : Prop) : Problem → Prop
  | .values a l r | .forms a l r => a.WellFormed strict ∧ l.WellFormed strict ∧ r.WellFormed strict
  | .binders c c' d d' =>
    c.WellFormed strict ∧ c'.WellFormed strict ∧ d.WellFormed strict ∧ d'.WellFormed strict
  | .fields a l fs gs =>
    a.WellFormed strict ∧ l.WellFormed strict ∧ (∀ f ∈ fs, f.2.WellFormed strict) ∧
      ∀ g ∈ gs, g.2.WellFormed strict
  | .spines e f => e.WellFormed strict ∧ f.WellFormed strict
  | .chains c d => c.WellFormed strict ∧ d.WellFormed strict

section

variable {n : Nat} {ctx : Context} {s s' : Solution}

/-- Unification changes the solution by bindings alone, to well-formed values if it starts from
such. -/
theorem Unifies.solving {E : Context → Problem → Solution → Solution → Prop} {g : Problem}
    (h : Unifies E n ctx g s s') :
    Solving strict (ctx.WellFormed strict ∧ g.WellFormed strict) s s' := by
  induction h with
  | same | atom | noFields | var | nil => exact .refl _ _
  | choice _ hforced hp _ _ hsolve | solveLeft _ hforced hp _ hsolve =>
    refine (PatternSpine.solving_of_solve hsolve).imp ?_
    rintro hs ⟨hctx, -, hl, hr⟩
    exact ⟨hctx, Value.args_wellFormed hp (hs.force hforced.left hl), hs.force hforced.right hr⟩
  | solveRight _ hforced _ hq hsolve =>
    refine (PatternSpine.solving_of_solve hsolve).imp ?_
    rintro hs ⟨hctx, -, hl, hr⟩
    exact ⟨hctx, Value.args_wellFormed hq (hs.force hforced.right hr), hs.force hforced.left hl⟩
  | rigid _ hforced _ _ _ ih =>
    refine ih.imp ?_
    rintro hs ⟨hctx, ha, hl, hr⟩
    exact ⟨hctx, hs.force hforced.type ha, hs.force hforced.left hl, hs.force hforced.right hr⟩
  | pi _ _ ih =>
    refine ih.imp ?_
    rintro - ⟨hctx, -, hl, hr⟩
    obtain ⟨hc, hd⟩ := Value.all_pi.1 hl
    obtain ⟨hc', hd'⟩ := Value.all_pi.1 hr
    exact ⟨hctx, hc, hc', hd, hd'⟩
  | sigma _ _ ih =>
    refine ih.imp ?_
    rintro - ⟨hctx, -, hl, hr⟩
    obtain ⟨hc, hd⟩ := Value.all_sigma.1 hl
    obtain ⟨hc', hd'⟩ := Value.all_sigma.1 hr
    exact ⟨hctx, hc, hc', hd, hd'⟩
  | fn _ hb hf hg _ ih =>
    refine ih.imp ?_
    rintro - ⟨hctx, ha, hl, hr⟩
    obtain ⟨hc, hl⟩ := Value.all_fn.1 hl
    obtain ⟨hinner, hv⟩ := hctx.witness hc _
    exact ⟨hinner, Value.resultType_wellFormed hb ha hv, Closure.apply_all hf hl hv,
      Closure.apply_all hg (Value.all_fn.1 hr).2 hv⟩
  | expandRight _ _ hb hf hg _ ih =>
    refine ih.imp ?_
    rintro - ⟨hctx, ha, hl, hr⟩
    obtain ⟨hc, hl⟩ := Value.all_fn.1 hl
    obtain ⟨hinner, hv⟩ := hctx.witness hc _
    exact ⟨hinner, Value.resultType_wellFormed hb ha hv, Closure.apply_all hf hl hv,
      (AddsNoParts.all _ _).app hg hr hv⟩
  | expandLeft _ _ hb hf hg _ ih =>
    refine ih.imp ?_
    rintro - ⟨hctx, ha, hl, hr⟩
    obtain ⟨hc, hr⟩ := Value.all_fn.1 hr
    obtain ⟨hinner, hv⟩ := hctx.witness hc _
    exact ⟨hinner, Value.resultType_wellFormed hb ha hv, (AddsNoParts.all _ _).app hf hl hv,
      Closure.apply_all hg hr hv⟩
  | cons _ _ hb _ ih₁ ih₂ =>
    refine (ih₁.imp ?_).trans (ih₂.imp ?_)
    · rintro - ⟨hctx, ha, hl, hr⟩
      exact ⟨hctx, (Value.all_sigma.1 ha).1, (Value.all_cons.1 hl).1, (Value.all_cons.1 hr).1⟩
    · rintro - ⟨hctx, ha, hl, hr⟩
      obtain ⟨hx, hy⟩ := Value.all_cons.1 hl
      exact ⟨hctx, Closure.apply_all hb (Value.all_sigma.1 ha).2 hx, hy, (Value.all_cons.1 hr).2⟩
  | equal _ _ _ _ ih₁ ih₂ ih₃ =>
    refine ((ih₁.imp ?_).trans (ih₂.imp ?_)).trans (ih₃.imp ?_)
    · rintro - ⟨hctx, -, hl, hr⟩
      exact ⟨hctx, Value.all_type, (Value.all_equal.1 hl).1, (Value.all_equal.1 hr).1⟩
    · rintro - ⟨hctx, -, hl, hr⟩
      obtain ⟨hc, hx, -⟩ := Value.all_equal.1 hl
      exact ⟨hctx, hc, hx, (Value.all_equal.1 hr).2.1⟩
    · rintro - ⟨hctx, -, hl, hr⟩
      obtain ⟨hc, -, hy⟩ := Value.all_equal.1 hl
      exact ⟨hctx, hc, hy, (Value.all_equal.1 hr).2.2⟩
  | proof _ _ ih =>
    refine ih.imp ?_
    rintro - ⟨hctx, ha, hl, hr⟩
    exact ⟨hctx, (Value.all_equal.1 ha).1, Value.all_same.1 hl, Value.all_same.1 hr⟩
  | classes _ _ ih =>
    refine ih.imp ?_
    rintro - ⟨hctx, -, hl, hr⟩
    exact ⟨hctx, Value.all_classOf.1 hl, Value.all_classOf.1 hr⟩
  | objects _ _ _ ih =>
    refine ih.imp ?_
    rintro - ⟨hctx, ha, hl, hr⟩
    exact ⟨hctx, ha, hl, (Value.all_object.1 hl).2, (Value.all_object.1 hr).2⟩
  | stuck _ _ ih =>
    refine ih.imp ?_
    rintro - ⟨hctx, -, hl, hr⟩
    exact ⟨hctx, (Value.all_neutral.1 hl).2, (Value.all_neutral.1 hr).2⟩
  | binders _ _ hb hb' _ ih₁ ih₂ =>
    refine (ih₁.imp ?_).trans (ih₂.imp ?_)
    · rintro - ⟨hctx, hc, hc', -, -⟩
      exact ⟨hctx, Value.all_type, hc, hc'⟩
    · rintro - ⟨hctx, hc, -, hd, hd'⟩
      obtain ⟨hinner, hv⟩ := hctx.witness hc _
      exact ⟨hinner, Value.all_type, Closure.apply_all hb hd hv, Closure.apply_all hb' hd' hv⟩
  | field _ hy hb _ _ ih₁ ih₂ =>
    refine (ih₁.imp ?_).trans (ih₂.imp ?_)
    · rintro - ⟨hctx, ha, hl, hfs, hgs⟩
      exact ⟨hctx, Value.fieldType_wellFormed hb ha hl, hfs _ List.mem_cons_self,
        hgs _ (mem_of_lookup hy)⟩
    · rintro - ⟨hctx, ha, hl, hfs, hgs⟩
      exact ⟨hctx, ha, hl, (List.forall_mem_cons.1 hfs).2, hgs⟩
  | untypedField _ _ _ _ _ _ _ ih =>
    refine ih.imp ?_
    rintro - ⟨hctx, ha, hl, hfs, hgs⟩
    exact ⟨hctx, ha, hl, (List.forall_mem_cons.1 hfs).2, hgs⟩
  | app _ _ _ ih₁ ih₂ =>
    refine (ih₁.imp ?_).trans (ih₂.imp ?_)
    · rintro - ⟨hctx, hl, hr⟩
      exact ⟨hctx, (Neutral.all_app.1 hl).1, (Neutral.all_app.1 hr).1⟩
    · rintro - ⟨hctx, hl, hr⟩
      obtain ⟨-, ha, hx⟩ := Neutral.all_app.1 hl
      exact ⟨hctx, ha, hx, (Neutral.all_app.1 hr).2.2⟩
  | car _ _ ih =>
    refine ih.imp ?_
    rintro - ⟨hctx, hl, hr⟩
    exact ⟨hctx, Neutral.all_car.1 hl, Neutral.all_car.1 hr⟩
  | cdr _ _ ih =>
    refine ih.imp ?_
    rintro - ⟨hctx, hl, hr⟩
    exact ⟨hctx, Neutral.all_cdr.1 hl, Neutral.all_cdr.1 hr⟩
  | dot _ _ ih =>
    refine ih.imp ?_
    rintro - ⟨hctx, hl, hr⟩
    exact ⟨hctx, Neutral.all_dot.1 hl, Neutral.all_dot.1 hr⟩
  | declared _ _ hc hd _ ih₁ ih₂ =>
    refine (ih₁.imp ?_).trans (ih₂.imp ?_)
    · rintro - ⟨hctx, hl, hr⟩
      exact ⟨hctx, Value.all_type, (Chain.all_declared.1 hl).2.2.1, (Chain.all_declared.1 hr).2.2.1⟩
    · rintro - ⟨hctx, hl, hr⟩
      obtain ⟨-, -, ha, hrest⟩ := Chain.all_declared.1 hl
      obtain ⟨hinner, hv⟩ := hctx.witness ha _
      exact ⟨hinner, Closure.applyChain_all hc hrest hv,
        Closure.applyChain_all hd (Chain.all_declared.1 hr).2.2.2 hv⟩
  | fulfilled _ _ _ _ ih₁ ih₂ ih₃ =>
    refine ((ih₁.imp ?_).trans (ih₂.imp ?_)).trans (ih₃.imp ?_)
    · rintro - ⟨hctx, hl, hr⟩
      exact ⟨hctx, Value.all_type, (Chain.all_fulfilled.1 hl).2.1, (Chain.all_fulfilled.1 hr).2.1⟩
    · rintro - ⟨hctx, hl, hr⟩
      obtain ⟨-, ha, hx, -⟩ := Chain.all_fulfilled.1 hl
      exact ⟨hctx, ha, hx, (Chain.all_fulfilled.1 hr).2.2.1⟩
    · rintro - ⟨hctx, hl, hr⟩
      exact ⟨hctx, (Chain.all_fulfilled.1 hl).2.2.2, (Chain.all_fulfilled.1 hr).2.2.2⟩

theorem Unifies.bindsTo {E : Context → Problem → Solution → Solution → Prop} {g : Problem}
    (h : Unifies E n ctx g s s') : s.BindsTo s' :=
  (h.solving : Solving True _ s s').bindsTo

theorem solving_of_unify {a l r : Value} (h : (unify n ctx a l r).Yields s () s') :
    Solving strict (ctx.WellFormed strict ∧ a.WellFormed strict ∧ l.WellFormed strict ∧
      r.WellFormed strict) s s' :=
  Unifies.solving ((unifies_iff (g := .values a l r)).2 h)

theorem bindsTo_of_unify {a l r : Value} (h : (unify n ctx a l r).Yields s () s') : s.BindsTo s' :=
  Unifies.bindsTo ((unifies_iff (g := .values a l r)).2 h)

end

end DependentClasses
