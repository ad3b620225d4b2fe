import DependentClasses.Proofs.ClassWalks
import DependentClasses.Proofs.Elaboration
import DependentClasses.Proofs.ElaborationFuel
import DependentClasses.Proofs.RoundTrip
import DependentClasses.Proofs.WrittenClasses
import Mathlib.Data.List.Induction

/-! Classes applied to arguments. Each argument fulfils the first property that is still open, and
what comes after it sees its value; the class is then read back as a term, and evaluated again for
the next argument. Labels, their order and what is open survive this, while values need not. -/
namespace DependentClasses

open Filter

def Expr.applied (e : Expr) (args : List (Span × Expr)) : Expr :=
  args.foldl (fun f arg => ⟨arg.1, .app .explicit f arg.2⟩) e

theorem Expr.applied_append (e : Expr) (args more : List (Span × Expr)) :
    e.applied (args ++ more) = (e.applied args).applied more :=
  List.foldl_append

theorem Expr.applied_concat (e : Expr) (args : List (Span × Expr)) (span : Span) (arg : Expr) :
    e.applied (args ++ [(span, arg)]) = ⟨span, .app .explicit (e.applied args) arg⟩ :=
  e.applied_append args [(span, arg)]

/-- The first open property of the first class is `k`, of type `a`; in the second class it has the
value `v`, and what comes after it has taken that value. -/
inductive Chain.Fulfils (k : Name) (a v : Value) : Chain → Chain → Prop
  | here {n rest d} : rest.applyChain n v = .ok d →
      Fulfils k a v (.declared k a rest) (.fulfilled k a v d)
  | later {j b w c d} : Fulfils k a v c d → Fulfils k a v (.fulfilled j b w c) (.fulfilled j b w d)

/-- The argument is checked at the type of the first open property `k`, and fulfils it by its
value. -/
def Chain.Takes (ctx : Context) (s : Solution) (c : Chain) (arg : Expr) (k : Name) (s' : Solution)
    (d : Chain) : Prop :=
  ∃ n a t v, (check n ctx arg a).Yields s t s' ∧ eval n (s'.environment ctx) t = .ok v ∧
    c.Fulfils k a v d

/-- The expression is elaborated to the term `t` of a class, whose value is the class `c`. -/
structure Expr.DenotesClass (ctx : Context) (s : Solution) (e : Expr) (s' : Solution) (t : Term)
    (c : Chain) : Prop where
  inferred : ∃ n a, (infer n ctx e).Yields s ⟨t, a⟩ s' ∧ a.Forces s' .type
  value : ∃ n v, eval n (s'.environment ctx) t = .ok v ∧ v.Forces s' (.classOf c)

section

variable {n : Nat} {ctx : Context} {s s' s₁ : Solution} {c d : Chain} {arg f e : Expr}
  {span : Span} {k : Name} {i j : Inferred}

namespace Chain

theorem Fulfils.outline {a v : Value} (h : c.Fulfils k a v d) (hc : c.WrittenOut) :
    d.WrittenOut ∧ d.classLabels = c.classLabels ∧ c.openLabels = k :: d.openLabels := by
  induction h with
  | here hd =>
    have hwritten := Closure.applyChain_outlines hd hc
    exact ⟨hwritten.chain, congrArg (k :: ·) hwritten.labels,
      congrArg (k :: ·) hwritten.openLabels.symm⟩
  | later _ ih =>
    obtain ⟨hwritten, hlabels, hopen⟩ := ih hc
    exact ⟨hwritten, congrArg (_ :: ·) hlabels, hopen⟩

theorem Fulfils.over {X : Name → Prop} {a v : Value} (h : c.Fulfils k a v d) (hc : c.Over X)
    (hv : v.Over X) : d.Over X := by
  induction h with
  | here hd =>
    obtain ⟨-, -, ha, hrest⟩ := all_declared.1 hc
    exact all_fulfilled.2 ⟨trivial, ha, hv, Closure.applyChain_all hd hrest hv⟩
  | later _ ih =>
    obtain ⟨-, hb, hw, hrest⟩ := all_fulfilled.1 hc
    exact all_fulfilled.2 ⟨trivial, hb, hw, ih hrest⟩

theorem Takes.outline (h : c.Takes ctx s arg k s' d) (hc : c.WrittenOut) :
    d.WrittenOut ∧ d.classLabels = c.classLabels ∧ c.openLabels = k :: d.openLabels := by
  obtain ⟨_, _, _, _, -, -, hfulfils⟩ := h
  exact hfulfils.outline hc

theorem Takes.of_fulfilNext (h : (fulfilNext n ctx c arg).Yields s (some d) s') :
    ∃ k, c.Takes ctx s arg k s' d := by
  induction n generalizing c d with
  | zero => simp [fulfilNext] at h
  | succ n ih =>
    cases c with
    | nil => simp [fulfilNext] at h
    | declared k a rest =>
      simp only [fulfilNext, Solver.yields_bind, Solver.yields_within, Solver.yields_evaluate,
        Solver.yields_lift, Solver.yields_pure, Option.some.injEq] at h
      obtain ⟨t, _, ht, v, _, ⟨hv, rfl⟩, e, _, ⟨he, rfl⟩, rfl, rfl⟩ := h
      exact ⟨k, n, a, t, v, ht, hv, .here he⟩
    | fulfilled j b w rest =>
      simp only [fulfilNext, Solver.yields_bind, Solver.yields_pure] at h
      obtain ⟨found, _, hfound, hd, rfl⟩ := h
      obtain ⟨e, rfl, rfl⟩ := Option.map_eq_some_iff.1 hd.symm
      obtain ⟨k, m, a, t, v, ht, hv, hfulfils⟩ := ih hfound
      exact ⟨k, m, a, t, v, ht, hv, .later hfulfils⟩

theorem Takes.of_checkClassArg (h : (checkClassArg n ctx c arg).Yields s d s') :
    ∃ k, c.Takes ctx s arg k s' d := by
  cases n with
  | zero => simp [checkClassArg] at h
  | succ n =>
    simp only [checkClassArg, Solver.yields_bind] at h
    obtain ⟨found, s₁, hfound, h⟩ := h
    cases found with
    | none => simp at h
    | some e =>
      obtain ⟨rfl, rfl⟩ := Solver.yields_pure.1 h
      exact of_fulfilNext hfound

/-- A class without open properties takes no argument. -/
theorem exists_fulfilNext_none (s : Solution) (ctx : Context) (arg : Expr) :
    (c : Chain) → c.openLabels = [] → ∃ n, (fulfilNext n ctx c arg).Yields s none s
  | .nil, _ => ⟨1, by simp [fulfilNext]⟩
  | .fulfilled j b w rest, hc => by
    obtain ⟨n, h⟩ := exists_fulfilNext_none s ctx arg rest hc
    refine ⟨n + 1, ?_⟩
    simp only [fulfilNext, Solver.yields_bind, Solver.yields_pure]
    exact ⟨none, s, h, rfl, rfl⟩

end Chain

/-- The type of all types has no implicit parameters. -/
theorem applyImplicits_of_type {r : Except Failure Inferred × Solution}
    (h : (applyImplicits n ctx i).run.run s = .ok r) (hi : i.type.Forces s .type) :
    r = (.ok i, s) := by
  cases n with
  | zero => cases h
  | succ n =>
    rw [applyImplicits, Solver.force, Solver.run_reading_bind] at h
    obtain ⟨a, ha, h⟩ := Eval.bind_eq_ok.1 h
    cases hi.unique ⟨n, ha⟩
    cases h
    rfl

/-- A class is applied by one step: its first open property is fulfilled, and the new class is read
back. -/
theorem infer_app (h : (infer n ctx ⟨span, .app .explicit f arg⟩).Yields s j s') :
    ∃ m i s₁, (infer m ctx f).Yields s i s₁ ∧
      (i.type.Forces s₁ .type → ∃ c k d, f.DenotesClass ctx s s₁ i.term c ∧
      c.Takes ctx s₁ arg k s' d ∧ s'.reifyChain m ctx d = .ok j.term ∧ j.type = .type) := by
  cases n with
  | zero => simp [infer] at h
  | succ n =>
    cases n with
    | zero => simp [infer, inferForm] at h
    | succ n =>
      simp only [infer, inferForm, Solver.yields_locating, Solver.yields_bind,
        Solver.yields_force] at h
      obtain ⟨i, s₁, hi, g, s₂, hg, a, _, ⟨ha, rfl⟩, h⟩ := h
      refine ⟨n, i, s₁, hi, fun htype => ?_⟩
      cases applyImplicits_of_type hg htype
      cases htype.unique ⟨n, ha⟩
      simp only [Solver.yields_bind, Solver.yields_evaluate, Solver.yields_force] at h
      obtain ⟨v, _, ⟨hv, rfl⟩, w, _, ⟨hw, rfl⟩, h⟩ := h
      split at h
      · next c =>
        simp only [Solver.yields_bind, Solver.yields_reifyChain, Solver.yields_pure] at h
        obtain ⟨d, _, hd, t, _, ⟨ht, rfl⟩, rfl, rfl⟩ := h
        obtain ⟨k, hk⟩ := Chain.Takes.of_checkClassArg hd
        exact ⟨c, k, d, ⟨⟨n, _, hi, htype⟩, n, v, hv, n, hw⟩, hk, ht, rfl⟩
      · simp at h

/-- What an expression is elaborated to does not depend on the fuel. -/
theorem infer_unique {m : Nat} {r r' : Except Failure Inferred × Solution}
    (h : (infer n ctx e).run.run s = .ok r) (h' : (infer m ctx e).run.run s = .ok r') : r = r' :=
  Eval.eq_of_ok (fun n => (ElaborationGrows.all n).infer ctx e s) h h'

namespace Expr.DenotesClass

variable {t : Term}

theorem unique (he : e.DenotesClass ctx s s₁ t c) (h : (infer n ctx e).Yields s j s') :
    s' = s₁ ∧ j.term = t ∧ j.type.Forces s' .type := by
  obtain ⟨m, a, hm, ha⟩ := he.inferred
  cases infer_unique hm h
  exact ⟨rfl, rfl, ha⟩

/-- Whenever the class is evaluated, it is the same class. -/
theorem forces (he : e.DenotesClass ctx s s₁ t c) {v : Value}
    (hv : eval n (s₁.environment ctx) t = .ok v) :
    v.Forces s₁ (.classOf c) := by
  obtain ⟨m, w, hw, hc⟩ := he.value
  cases Eval.eq_of_ok (fun n => (EvalGrows.all n).eval _ t) hw hv
  exact hc

end Expr.DenotesClass

/-- What has been elaborated after all arguments had been elaborated after the first of them. -/
theorem exists_infer_applied (args more : List (Span × Expr))
    (h : (infer n ctx (e.applied (args ++ more))).Yields s j s') :
    ∃ m i s₁, (infer m ctx (e.applied args)).Yields s i s₁ := by
  induction more using List.reverseRecOn generalizing n j s' with
  | nil =>
    rw [List.append_nil] at h
    exact ⟨n, j, s', h⟩
  | append_singleton more arg ih =>
    rw [← List.append_assoc, Expr.applied_concat] at h
    obtain ⟨m, i, s₁, hi, -⟩ := infer_app h
    exact ih hi

/-- The term is a class; when it is evaluated, the class has these labels and leaves these
properties open. -/
structure Inferred.Leaves (i : Inferred) (ctx : Context) (s : Solution)
    (labels openLabels : List Name) : Prop where
  type : i.type.Forces s .type
  value {n : Nat} {v : Value} : eval n (s.environment ctx) i.term = .ok v →
    ∃ c, v.Forces s (.classOf c) ∧ c.WrittenOut ∧ c.classLabels = labels ∧ c.openLabels = openLabels

/-- What one argument does: it is taken by the first open property, and the class is read back
without that. -/
theorem Inferred.Leaves.app {labels openLabels : List Name}
    (hf : ∀ {m i s₁}, (infer m ctx f).Yields s i s₁ → i.Leaves ctx s₁ labels openLabels)
    (h : (infer n ctx ⟨span, .app .explicit f arg⟩).Yields s j s') :
    ∃ k more, openLabels = k :: more ∧ j.Leaves ctx s' labels more ∧ j.type = .type ∧
      ∃ s₁ t c d m, f.DenotesClass ctx s s₁ t c ∧ c.Takes ctx s₁ arg k s' d ∧
      s'.reifyChain m ctx d = .ok j.term := by
  obtain ⟨m, i, s₁, hi, hstep⟩ := infer_app h
  obtain ⟨c, k, d, hclass, htakes, ht, htype⟩ := hstep (hf hi).type
  obtain ⟨_, _, hv, hforces⟩ := hclass.value
  obtain ⟨c', hforces', hwritten, hlabels, hopen⟩ := (hf hi).value hv
  cases hforces.unique hforces'
  obtain ⟨hwritten', hlabels', hopen'⟩ := htakes.outline hwritten
  have hread := Chain.reify_outlines ht hwritten'
  refine ⟨k, d.openLabels, hopen.symm.trans hopen', ⟨⟨1, by rw [htype]; rfl⟩, fun hv => ?_⟩, htype,
    s₁, _, c, d, m, hclass, htakes, ht⟩
  obtain ⟨e, rfl, he⟩ := eval_outlines hv hread.term
  refine ⟨e, ⟨1, rfl⟩, he.chain, ?_, ?_⟩
  · rw [he.labels, ← hread.labels, hlabels', hlabels]
  · rw [he.openLabels, hread.openLabels]

/-- What all arguments do. -/
theorem Expr.DenotesClass.applied {t : Term} {s₀ : Solution} (he : e.DenotesClass ctx s s₀ t c)
    (hc : c.WrittenOut) {args : List (Span × Expr)}
    (h : (infer n ctx (e.applied args)).Yields s j s') :
    args.length ≤ c.openLabels.length ∧
      j.Leaves ctx s' c.classLabels (c.openLabels.drop args.length) := by
  induction args using List.reverseRecOn generalizing n j s' with
  | nil =>
    obtain ⟨rfl, rfl, htype⟩ := he.unique h
    exact ⟨Nat.zero_le _, htype, fun hv => ⟨c, he.forces hv, hc, rfl, rfl⟩⟩
  | append_singleton args arg ih =>
    rw [applied_concat] at h
    obtain ⟨k, more, hopen, hleaves, -⟩ := Inferred.Leaves.app (fun hi => (ih hi).2) h
    have hlt : args.length < c.openLabels.length := by
      by_contra hge
      rw [List.drop_eq_nil_of_le (Nat.le_of_not_lt hge)] at hopen
      cases hopen
    rw [List.length_append, List.length_singleton, ← List.drop_drop, hopen]
    exact ⟨hlt, hleaves⟩

def Failure.extra (t : Term) (arg : Expr) : Failure := ⟨.extraArgument t, some arg.span, []⟩

theorem run_refuse_extra {α : Type} (n : Nat) (ctx : Context) (c : Chain) (arg : Expr)
    (s : Solution) :
    (Solver.locating arg.span (do
      let t ← Solver.reifyChain n ctx c
      refuse (.extraArgument t)) : Solver α).run.run s =
      (s.reifyChain n ctx c).map fun t => (.error (.extra t arg), s) := by
  rw [Solver.run_locating, Solver.reifyChain, Solver.run_reading_bind]
  cases s.reifyChain n ctx c with
  | error halt => rfl
  | ok t => rfl

/-- A class without open properties refuses every argument, at the argument's own place. -/
theorem checkClassArg_refused (hc : c.openLabels = []) {r : Except Failure Chain × Solution}
    (h : (checkClassArg n ctx c arg).run.run s = .ok r) :
    ∃ m t, s.reifyChain m ctx c = .ok t ∧ r = (.error (.extra t arg), s) := by
  cases n with
  | zero => cases h
  | succ n =>
    obtain ⟨m, hm⟩ := c.exists_fulfilNext_none s ctx arg hc
    have hnone {r : Except Failure (Option Chain) × Solution}
        (hr : (fulfilNext n ctx c arg).run.run s = .ok r) : r = (.ok none, s) :=
      Eval.eq_of_ok (fun n => (ElaborationGrows.all n).fulfilNext ctx c arg s) hr hm
    rw [checkClassArg] at h
    rcases Solver.run_bind_eq_ok h with ⟨_, _, hfound, -⟩ | ⟨found, s₁, hfound, hrest⟩
    · cases hnone hfound
    · cases hnone hfound
      rw [run_refuse_extra] at hrest
      cases ht : s.reifyChain n ctx c with
      | error halt => rw [ht] at hrest; cases hrest
      | ok t =>
        rw [ht] at hrest
        cases hrest
        exact ⟨n, t, ht, rfl⟩

/-- An argument too many is refused, whenever there is an answer at all. -/
theorem infer_app_refused {labels : List Name} {m : Nat} (hi : (infer m ctx f).Yields s i s₁)
    (hf : i.Leaves ctx s₁ labels []) {r : Except Failure Inferred × Solution}
    (h : (infer n ctx ⟨span, .app .explicit f arg⟩).run.run s = .ok r) :
    ∃ m c t, f.DenotesClass ctx s s₁ i.term c ∧ s₁.reifyChain m ctx c = .ok t ∧
      r = (.error (.extra t arg), s₁) := by
  cases n with
  | zero => cases h
  | succ n =>
    cases n with
    | zero => cases h
    | succ n =>
      rw [infer, Solver.run_locating] at h
      cases hr' : (inferForm (n + 1) ctx (.app .explicit f arg)).run.run s with
      | error halt => rw [hr'] at h; cases h
      | ok r' =>
      rw [hr'] at h
      cases h
      rw [inferForm] at hr'
      rcases Solver.run_bind_eq_ok hr' with ⟨_, _, hinfer, -⟩ | ⟨i', s', hinfer, hr'⟩
      · cases infer_unique hi hinfer
      cases infer_unique hi hinfer
      rcases Solver.run_bind_eq_ok hr' with ⟨_, _, himplicits, -⟩ | ⟨i', s', himplicits, hr'⟩
      · cases applyImplicits_of_type himplicits hf.type
      cases applyImplicits_of_type himplicits hf.type
      rw [Solver.force, Solver.run_reading_bind] at hr'
      obtain ⟨a, ha, hr'⟩ := Eval.bind_eq_ok.1 hr'
      cases hf.type.unique ⟨n, ha⟩
      rw [Solver.evaluate, Solver.run_reading_bind] at hr'
      obtain ⟨v, hv, hr'⟩ := Eval.bind_eq_ok.1 hr'
      rw [Solver.force, Solver.run_reading_bind] at hr'
      obtain ⟨w, hw, hr'⟩ := Eval.bind_eq_ok.1 hr'
      obtain ⟨c, hforces, -, -, hopen⟩ := hf.value hv
      cases hforces.unique ⟨n, hw⟩
      rcases Solver.run_bind_eq_ok hr' with ⟨e, s₂, hrefused, rfl⟩ | ⟨d, s₂, htaken, -⟩
      · obtain ⟨m', t, ht, heq⟩ := checkClassArg_refused hopen hrefused
        cases heq
        exact ⟨m', c, t, ⟨⟨m, _, hi, hf.type⟩, n, v, hv, n, hw⟩, ht, rfl⟩
      · obtain ⟨_, _, -, heq⟩ := checkClassArg_refused hopen htaken
        cases heq

/-- An argument too many is refused, if the class can be evaluated and read back. -/
theorem exists_infer_app_refused {t u : Term} {m : Nat} (hf : f.DenotesClass ctx s s₁ t c)
    (hc : c.openLabels = []) (hu : s₁.reifyChain m ctx c = .ok u) :
    ∃ n, (infer n ctx ⟨span, .app .explicit f arg⟩).run.run s =
      .ok (.error (.extra u arg), s₁) := by
  obtain ⟨n₁, a, hinfer, n₂, htype⟩ := hf.inferred
  obtain ⟨n₃, v, hv, n₄, hforce⟩ := hf.value
  obtain ⟨n₅, hnone⟩ := c.exists_fulfilNext_none s₁ ctx arg hc
  obtain ⟨n, hinfer, htype, hv, hforce, hnone, hu⟩ :=
    ((Solver.eventually_yields (fun n => (ElaborationGrows.all n).infer ctx f) hinfer).and
    ((Eval.eventually_ok (fun n => a.force_grows n s₁) htype).and
    ((Eval.eventually_ok (fun n => (EvalGrows.all n).eval _ t) hv).and
    ((Eval.eventually_ok (fun n => v.force_grows n s₁) hforce).and
    ((Solver.eventually_yields (fun n => (ElaborationGrows.all n).fulfilNext ctx c arg) hnone).and
    (Eval.eventually_ok (fun n => (ReifyGrows.all s₁ n).chain _ c) hu)))))).exists
  have himplicits : (applyImplicits (n + 1) ctx ⟨t, a⟩).Yields s₁ ⟨t, a⟩ s₁ := by
    simp only [applyImplicits, Solver.yields_bind, Solver.yields_force]
    exact ⟨.type, s₁, ⟨htype, rfl⟩, Solver.yields_pure.2 ⟨rfl, rfl⟩⟩
  have hrefused : (checkClassArg (n + 1) ctx c arg).run.run s₁ =
      .ok (.error (.extra u arg), s₁) := by
    rw [checkClassArg, Solver.run_bind_of_yields hnone]
    exact (run_refuse_extra n ctx c arg s₁).trans (by rw [Solution.reifyChain, hu]; rfl)
  have hform : (inferForm (n + 2) ctx (.app .explicit f arg)).run.run s =
      .ok (.error (.extra u arg), s₁) := by
    rw [inferForm, Solver.run_bind_of_yields ((ElaborationGrows.all n).infer ctx f s _ hinfer),
      Solver.run_bind_of_yields himplicits,
      Solver.run_bind_of_yields (Solver.yields_force.2 ⟨a.force_grows n s₁ _ htype, rfl⟩)]
    dsimp only
    rw [Solver.run_bind_of_yields (Solver.yields_evaluate.2 ⟨(EvalGrows.all n).eval _ t _ hv, rfl⟩),
      Solver.run_bind_of_yields (Solver.yields_force.2 ⟨v.force_grows n s₁ _ hforce, rfl⟩)]
    dsimp only
    rw [ExceptT.run_bind, StateT.run_bind, hrefused]
    rfl
  refine ⟨n + 3, ?_⟩
  rw [infer, Solver.run_locating, hform]
  rfl

theorem Chain.Fulfils.type_all {P : Part → Prop} {a v : Value} (h : c.Fulfils k a v d)
    (hc : c.All P) : a.All P := by
  induction h with
  | here => exact (Chain.all_declared.1 hc).2.2.1
  | later _ ih => exact ih (Chain.all_fulfilled.1 hc).2.2.2

/-- The class that an expression stands for in a sound solution. -/
theorem Expr.DenotesClass.fits {t : Term} (he : e.DenotesClass ctx s s' t c)
    (hcoherent : Coherent False (fun _ => True) ctx s) :
    Coherent False (fun _ => True) ctx s' ∧ t.WellFormed False ∧
      c.Fits False (fun _ => True) s' ctx := by
  obtain ⟨n, a, hinfer, -⟩ := he.inferred
  obtain ⟨m, v, hv, l, hl⟩ := he.value
  obtain ⟨hgrow, hwf, -⟩ := (Elaborates.all n).infer hinfer hcoherent
  have hcoherent' := hcoherent.grow hgrow
  exact ⟨hcoherent', hwf, Value.all_classOf.1 (hcoherent'.force (hcoherent'.eval hwf hv) hl)⟩

/-- What a grown solution is over, the solution was over before. -/
theorem Solution.Over.of_growsTo {X : Name → Prop} {avoid : List Name} (h : s'.Over X)
    (hgrow : s.GrowsTo False avoid s') :
    s.Over X := by
  intro x p hp
  obtain ⟨q, hq, hpq⟩ := hgrow.kept x p hp
  cases hpq with
  | same => exact h x p hq
  | solved a scope v => exact (h x _ hq).1

/-- If nothing strays, a class that has taken an argument mentions only what is visible. -/
theorem Chain.Takes.over {t : Term} {e : Expr} (htakes : c.Takes ctx s₁ arg k s' d)
    (he : e.DenotesClass ctx s s₁ t c) (hcoherent : Coherent False (fun _ => True) ctx s)
    (hctx : ctx.Over (s'.Visible ctx)) (hs' : s'.Over (s'.Visible ctx)) :
    s'.NamedIn s'.names ∧ d.Over (s'.Visible ctx) := by
  obtain ⟨hcoherent₁, hwf, hfits⟩ := he.fits hcoherent
  obtain ⟨n, a, u, v, hcheck, hv, hfulfils⟩ := htakes
  obtain ⟨hgrow, -⟩ := (Elaborates.all n).check hcheck hcoherent₁ (hfulfils.type_all hfits)
  have hs₁ : s₁.Over (s'.Visible ctx) := hs'.of_growsTo hgrow
  obtain ⟨m, w, hw, l, hl⟩ := he.value
  have hover : w.Over (s'.Visible ctx) :=
    Solution.eval_all hs₁ hctx (fun _ hy => .inl (hgrow.isPatternVariable hy))
      (fun _ _ hy => .inr hy) (fun _ => trivial) t.all_named hw
  have hvalue : v.Over (s'.Visible ctx) :=
    Solution.eval_all hs' hctx (fun _ hy => .inl hy) (fun _ _ hy => .inr hy)
      (fun _ => trivial) u.all_named hv
  exact ⟨hgrow.sound.named,
    hfulfils.over (Value.all_classOf.1 (Value.force_all hs₁.keeps hl hover)) hvalue⟩

/-- A class that mentions only what is visible comes back from the round trip as it was, exactly if
its normal form is steady. -/
theorem Chain.stable_iff {t u : Term} {m l : Nat} {e : Chain} (hnamed : s.NamedIn s.names)
    (hs : s.Over (s.Visible ctx)) (hd : d.Over (s.Visible ctx)) (ht : s.reifyChain n ctx d = .ok t)
    (he : eval m (s.environment ctx) t = .ok (.classOf e)) (hu : s.reifyChain l ctx e = .ok u) :
    t.alphaEquivalent u ↔ t.Steady s (.top s ctx) := by
  have hused := hnamed.usedNames ctx
  have hvisible : ∀ y, s.Visible ctx y → y ∈ s.usedNames ctx := by
    rintro y (hy | hy)
    · obtain ⟨p, hp⟩ := Option.isSome_iff_exists.1 hy
      exact hused y p hp
    · exact List.mem_append_left _ (Context.mem_names_of_isAbstract hy)
  obtain ⟨hnormal, hclass⟩ := (ReadsNormal.all s n).chain hs.keeps hused ht hd
  obtain ⟨_, _, hchain, heq⟩ := Decided.eval_class hclass he
  cases heq
  refine (decided s t).chain (p := .top s ctx) hclass (hnormal.normal hvisible)
    ⟨hused, fun y hy => ?_⟩ hchain hu
  obtain ⟨hy, hsolved⟩ := hnormal.free y hy
  obtain ⟨a, hlookup⟩ := hy.lookup hsolved
  exact ⟨a, y, hlookup, by simp [Place.top, Term.sameVariable], hvisible y hy, hsolved⟩

end

/-- Arguments fulfil the open properties of a class in order, each checked at the type that the
property has once the earlier ones are fulfilled. The labels stay, and so does the order; there are
no more arguments than open properties, and one more is refused at its own place. What the class has
become is read back as a term after each argument; where nothing strays, evaluating that term gives
a class with the same normal form exactly if the term is steady. -/
theorem class_application_fulfils_in_order {ctx : Context} {s s₀ s' : Solution} (hs : s.Sound False)
    (hctx : ctx.WellFormed False) {e : Expr} {t : Term} {c : Chain}
    (he : e.DenotesClass ctx s s₀ t c) {args : List (Span × Expr)} {n : Nat} {j : Inferred}
    (h : (infer n ctx (e.applied args)).Yields s j s') :
    args.length ≤ c.openLabels.length ∧
    (∀ m v, eval m (s'.environment ctx) j.term = .ok v → ∃ d, v.Forces s' (.classOf d) ∧
      d.classLabels = c.classLabels ∧
      d.openLabels = c.openLabels.drop args.length) ∧
    (∀ init span arg more, args = init ++ (span, arg) :: more → ∃ k s₁ t₁ c₁ s₂ t₂ d l,
      c.openLabels[init.length]? = some k ∧ (e.applied init).DenotesClass ctx s s₁ t₁ c₁ ∧
      c₁.Takes ctx s₁ arg k s₂ d ∧
      s₂.reifyChain l ctx d = .ok t₂ ∧
      (∃ m, (infer m ctx (e.applied (init ++ [(span, arg)]))).Yields s ⟨t₂, .type⟩ s₂) ∧
      (ctx.Over (s₂.Visible ctx) → s₂.Over (s₂.Visible ctx) →
        ∀ m c₂ u, eval m (s₂.environment ctx) t₂ = .ok (.classOf c₂) →
        s₂.reifyChain m ctx c₂ = .ok u → (t₂.alphaEquivalent u ↔ t₂.Steady s₂ (.top s₂ ctx)))) ∧
    (args.length = c.openLabels.length → ∀ span arg,
      (∀ m r, (infer m ctx (e.applied (args ++ [(span, arg)]))).run.run s = .ok r →
        ∃ u, r = (.error (.extra u arg), s')) ∧
      ∀ d, (e.applied args).DenotesClass ctx s s' j.term d → ∀ m u, s'.reifyChain m ctx d = .ok u →
        ∃ l, (infer l ctx (e.applied (args ++ [(span, arg)]))).run.run s =
          .ok (.error (.extra u arg), s')) := by
  have hcoherent : Coherent False (fun _ => True) ctx s :=
    ⟨hs, hctx.mono (Part.Within.mono fun _ _ => .inl trivial)⟩
  have hwritten : c.WrittenOut := c.writtenOut (he.fits hcoherent).2.2
  obtain ⟨hlength, hleaves⟩ := he.applied hwritten h
  refine ⟨hlength, fun m v hv => ?_, ?_, fun hall span arg => ?_⟩
  · obtain ⟨d, hforces, -, hlabels, hopen⟩ := hleaves.value hv
    exact ⟨d, hforces, hlabels, hopen⟩
  · rintro init span arg more rfl
    obtain ⟨m, i, s₂, hi⟩ := exists_infer_applied (init ++ [(span, arg)]) more (by simpa using h)
    have hi' := hi
    rw [Expr.applied_concat] at hi
    obtain ⟨k, _, hopen, -, htype, s₁, t₁, c₁, d, l, hclass, htakes, ht⟩ :=
      Inferred.Leaves.app (fun hf => (he.applied hwritten hf).2) hi
    refine ⟨k, s₁, t₁, c₁, s₂, i.term, d, l, ?_, hclass, htakes, ht, ⟨m, ?_⟩, ?_⟩
    · rw [← List.head?_drop, hopen, List.head?_cons]
    · rw [← htype]
      exact hi'
    · intro hctx₂ hs₂ m c₂ u hc₂ hu
      obtain ⟨hnamed, hover⟩ := htakes.over hclass hcoherent hctx₂ hs₂
      exact Chain.stable_iff hnamed hs₂ hover ht hc₂ hu
  · rw [hall, List.drop_length] at hleaves
    rw [Expr.applied_concat]
    refine ⟨fun m r hr => ?_, fun d hd m u hu => ?_⟩
    · obtain ⟨_, _, u, -, -, hrefused⟩ := infer_app_refused h hleaves hr
      exact ⟨u, hrefused⟩
    · obtain ⟨_, v, hv, hforces⟩ := hd.value
      obtain ⟨d', hforces', -, -, hopen⟩ := hleaves.value hv
      cases hforces.unique hforces'
      exact exists_infer_app_refused hd hopen hu

namespace OpenedClass

open OpenedSelection (q r x z)

def f : Name := ⟨"f", 0⟩
def p : Name := ⟨"p", 0⟩
def y : Name := ⟨"y", 0⟩

/-- Functions to the `q` of a class that fulfils it by a class that fulfils `r`. -/
def domain : Value :=
  .pi .explicit
    (.classOf (.fulfilled q .type (.classOf (.fulfilled r .string (.quote "a") .nil)) .nil))
    ⟨[], z, .dot (.var z) q⟩

/-- `f` selects `r` from what such a function gives for an object that leaves `r` open. -/
def scope : Context :=
  Context.define [] f f (.pi .explicit domain ⟨[], x, .string⟩)
    (.fn .explicit domain ⟨[], x, .dot (.app .explicit (.var x) OpenedSelection.leavingOpen) r⟩)

def target : Expr :=
  ⟨⟨0, 24⟩, .classOf [.fulfilled p none ⟨⟨11, 12⟩, .var f⟩, .declared y ⟨⟨17, 23⟩, .string⟩]⟩

def text : Expr := ⟨⟨25, 28⟩, .quote "b"⟩

/-- Nothing in the scope mentions a variable. -/
theorem scope_within : scope.All (Part.Within False fun _ => False) := by
  simp [scope, domain, Context.define, Context.All, Context.Entry.All, Closure.all_iff,
    Term.freeNames, Part.Within,
    OpenedSelection.leavingOpen, Chain.classLabels, Term.classLabels, Term.IsClass]

end OpenedClass

open OpenedClass in
/-- A property that was fulfilled before the application is read back differently afterwards. -/
theorem applied_class_reopens :
    ∃ t c j c₂ u, target.DenotesClass scope {} {} t c ∧ c.openLabels = [y] ∧
      (infer 40 scope (target.applied [(⟨0, 29⟩, text)])).Yields {} j {} ∧
      eval 40 (Solution.environment {} scope) j.term = .ok (.classOf c₂) ∧ c₂.openLabels = [] ∧
      Solution.reifyChain 40 {} scope c₂ = .ok u ∧ ¬ j.term.alphaEquivalent u ∧
      ¬ j.term.Steady {} (.top {} scope) := by
  have hsound : Solution.Sound False {} := ⟨fun _ _ h => by simp at h, fun _ _ h => by simp at h⟩
  have hctx : scope.WellFormed False := scope_within.mono Part.Within.wellFormed
  obtain ⟨t, c, htarget, hopen⟩ : ∃ t c, target.DenotesClass scope {} {} t c ∧ c.openLabels = [y] :=
    ⟨_, _, ⟨⟨40, .type, rfl, 1, rfl⟩, 40, _, rfl, 1, rfl⟩, rfl⟩
  obtain ⟨j, c₂, u, hj, hc₂, hopen₂, hu, hunequal⟩ :
      ∃ j c₂ u, (infer 40 scope (target.applied [(⟨0, 29⟩, text)])).Yields {} j {} ∧
        eval 40 (Solution.environment {} scope) j.term = .ok (.classOf c₂) ∧ c₂.openLabels = [] ∧
        Solution.reifyChain 40 {} scope c₂ = .ok u ∧ j.term.alphaEquivalent u = false :=
    ⟨_, _, _, rfl, rfl, rfl, rfl, rfl⟩
  have hne : ¬ j.term.alphaEquivalent u := by simp [hunequal]
  obtain ⟨-, -, hsteps, -⟩ := class_application_fulfils_in_order hsound hctx htarget hj
  obtain ⟨_, _, _, _, s₂, t₂, _, _, -, -, -, -, ⟨m, hm⟩, hstable⟩ := hsteps [] _ _ [] rfl
  cases infer_unique hj hm
  have hover : scope.Over (Solution.Visible {} scope) :=
    scope_within.mono fun q hq => Part.Named.mono (fun _ => False.elim) q (Part.Within.named q hq)
  refine ⟨t, c, _, c₂, u, htarget, hopen, hj, hc₂, hopen₂, hu, hne, fun hsteady => hne ?_⟩
  exact (hstable hover (fun _ _ h => by simp at h) 40 c₂ u hc₂ hu).2 hsteady

end DependentClasses
