import DependentClasses.Proofs.Coherence

/-! Elaboration in a coherent context lets the solution grow, and gives well-formed terms whose
types are over names that are known. -/
namespace DependentClasses

variable {strict : Prop}

/-- A well-formed term with a type that fits. -/
def Inferred.Fits (strict : Prop) (given : Name → Prop) (s : Solution) (ctx : Context)
    (i : Inferred) : Prop :=
  i.term.WellFormed strict ∧ i.type.Fits strict given s ctx

theorem Inferred.Fits.grow {given : Name → Prop} {s s' : Solution} {ctx : Context}
    {avoid : List Name} {i : Inferred} (h : i.Fits strict given s ctx)
    (hg : s.GrowsTo strict avoid s') : i.Fits strict given s' ctx :=
  ⟨h.1, h.2.grow hg⟩

theorem firstRepeated_eq_none {seen labels : List Name} (h : firstRepeated seen labels = none) :
    labels.Nodup ∧ ∀ k ∈ labels, k ∉ seen := by
  induction labels generalizing seen with
  | nil => simp
  | cons k labels ih =>
    unfold firstRepeated at h
    split at h
    · cases h
    · next hk =>
      obtain ⟨hnodup, hseen⟩ := ih h
      have hlater : k ∉ labels := fun hmem => hseen k hmem List.mem_cons_self
      refine ⟨List.nodup_cons.2 ⟨hlater, hnodup⟩, fun j hj => ?_⟩
      rcases List.mem_cons.1 hj with rfl | hj
      · exact hk
      · exact fun hmem => hseen j hj (List.mem_cons_of_mem k hmem)

theorem nodup_of_checkDistinct {labels : List Name} {s s' : Solution} {u : Unit}
    (h : (checkDistinct labels).Yields s u s') : labels.Nodup ∧ s' = s := by
  unfold checkDistinct at h
  split at h
  · simp at h
  · next hnone => exact ⟨(firstRepeated_eq_none hnone).1, (Solver.yields_pure.1 h).2⟩

@[simp] theorem Solver.yields_expected {α : Type} {n : Nat} {ctx : Context}
    {former : Former} {a : Value} {s s' : Solution} {b : α} :
    (expected n ctx former a : Solver α).Yields s b s' ↔ False := by
  unfold expected
  simp

@[simp] theorem Solver.yields_bindFresh {ctx : Context} {label : Name} {a : Value} {s s' : Solution}
    {r : Context × Name} :
    (bindFresh ctx label a).Yields s r s' ↔
      r = (ctx.bind label (s.freshName ctx label) a, s.freshName ctx label) ∧ s' = s := by
  unfold bindFresh
  simp only [Solver.yields_bind, Solver.yields_freshName, Solver.yields_pure]
  constructor
  · rintro ⟨_, _, ⟨rfl, rfl⟩, h⟩; exact h
  · exact fun h => ⟨_, _, ⟨rfl, rfl⟩, h⟩

section

variable {given : Name → Prop} {ctx : Context} {s s' : Solution}

/-- A new pattern variable of a type that fits. -/
theorem Coherent.create (h : Coherent strict given ctx s) {a : Value}
    (ha : a.Fits strict given s ctx) (x : Name) :
    s.GrowsTo strict (s.usedNames ctx) (s.create (s.freshName ctx x) a ctx.names) ∧
      (Value.variable a (s.freshName ctx x)).Fits strict given
      (s.create (s.freshName ctx x) a ctx.names) ctx := by
  have hgrow := Solution.GrowsTo.create_fresh h.sound ctx x ha.wellFormed ctx.names
  refine ⟨hgrow, Value.all_variable.2 ⟨ha.grow hgrow, .inr (.inr (.inl ?_))⟩⟩
  simp [Solution.isPatternVariable, Solution.find_create]

theorem applyImplicits_fits {n : Nat} {i j : Inferred} (h : (applyImplicits n ctx i).Yields s j s')
    (hc : Coherent strict given ctx s) (hi : i.Fits strict given s ctx) :
    s.GrowsTo strict (s.usedNames ctx) s' ∧ j.Fits strict given s' ctx := by
  induction n generalizing i s with
  | zero => simp [applyImplicits] at h
  | succ n ih =>
    unfold applyImplicits at h
    simp only [Solver.yields_bind, Solver.yields_force] at h
    obtain ⟨a, _, ⟨ha, rfl⟩, h⟩ := h
    split at h
    · simp only [Solver.yields_bind, Solver.yields_freshName, Solver.yields_create,
        Solver.yields_lift] at h
      obtain ⟨_, _, ⟨rfl, rfl⟩, _, _, ⟨rfl, rfl⟩, b, _, ⟨hb, rfl⟩, h⟩ := h
      obtain ⟨hdomain, hcodomain⟩ := Value.all_pi.1 (hc.force hi.2 ha)
      obtain ⟨hcreate, hv⟩ := hc.create hdomain _
      have hresult := (Closure.Fits.grow hcodomain hcreate).apply hv hb
      obtain ⟨hgrow, hj⟩ := ih h (hc.grow hcreate) ⟨Term.all_app.2 ⟨hi.1, Term.all_var⟩, hresult⟩
      exact ⟨hcreate.next hgrow, hj⟩
    · obtain ⟨rfl, rfl⟩ := Solver.yields_pure.1 h
      exact ⟨.refl hc.sound _, hi⟩

/-- Fields are treated one after another; what is found of one stays true when the solution
grows. -/
theorem mapM_grows {α β : Type} {f : Name × α → Solver (Name × β)} {R : Solution → β → Prop}
    {xs : List (Name × α)} {ys : List (Name × β)}
    (hgrow : ∀ {avoid : List Name} {s s' : Solution} {b : β}, s.GrowsTo strict avoid s' → R s b →
      R s' b)
    (hstep : ∀ x ∈ xs, ∀ {s s' : Solution} {y : Name × β}, Coherent strict given ctx s →
      (f x).Yields s y s' →
      s.GrowsTo strict (s.usedNames ctx) s' ∧ y.1 = x.1 ∧ R s' y.2)
    (hc : Coherent strict given ctx s) (h : Solver.Yields (xs.mapM f) s ys s') :
    s.GrowsTo strict (s.usedNames ctx) s' ∧ ys.map Prod.fst = xs.map Prod.fst ∧
      ∀ y ∈ ys, R s' y.2 := by
  induction xs generalizing s ys with
  | nil =>
    rw [List.mapM_nil, Solver.yields_pure] at h
    obtain ⟨rfl, rfl⟩ := h
    exact ⟨.refl hc.sound _, rfl, by simp⟩
  | cons x xs ih =>
    obtain ⟨y, s₁, zs, hy, hzs, rfl⟩ := Solver.yields_mapM_cons.1 h
    obtain ⟨hfirst, hlabel, hR⟩ := hstep x List.mem_cons_self hc hy
    obtain ⟨hrest, hlabels, hall⟩ :=
      ih (fun z hz => hstep z (List.mem_cons_of_mem x hz)) (hc.grow hfirst) hzs
    refine ⟨hfirst.next hrest, by simp [hlabel, hlabels], fun z hz => ?_⟩
    rcases List.mem_cons.1 hz with rfl | hz
    · exact hgrow hrest hR
    · exact hall z hz

/-- What is left of a class when its first property has a value. -/
theorem Chain.Fits.rest {n : Nat} {avoid : List Name} {k : Name} {a v : Value}
    {c : Closure} {d : Chain} (h : (Chain.declared k a c).Fits strict given s ctx)
    (hg : s.GrowsTo strict avoid s') (hv : v.Fits strict given s' ctx)
    (hd : c.applyChain n v = .ok d) :
    d.Fits strict given s' ctx ∧ k :: d.classLabels = (Chain.declared k a c).classLabels := by
  obtain ⟨-, hclass, -, hrest⟩ := Chain.all_declared.1 h
  refine ⟨Closure.applyChain_all hd (Closure.Fits.grow hrest hg) hv, ?_⟩
  rw [Closure.applyChain_classLabels hclass hd, Chain.classLabels]

/-- A class that is given with all its values. -/
theorem Chain.ofFulfilled_fits {fields : List (Name × Value × Value)}
    (hlabels : (fields.map Prod.fst).Nodup) (hfields : ∀ f ∈ fields, f.2.1.Fits strict given s ctx ∧
      f.2.2.Fits strict given s ctx) :
    (Chain.ofFulfilled fields).Fits strict given s ctx ∧
      (Chain.ofFulfilled fields).classLabels = fields.map Prod.fst := by
  induction fields with
  | nil => exact ⟨Chain.all_nil, rfl⟩
  | cons f fields ih =>
    obtain ⟨label, a, v⟩ := f
    obtain ⟨ha, hv⟩ := hfields _ List.mem_cons_self
    obtain ⟨hrest, heq⟩ :=
      ih (List.nodup_cons.1 hlabels).2 fun f hf => hfields f (List.mem_cons_of_mem _ hf)
    refine ⟨Chain.all_fulfilled.2 ⟨?_, ha, hv, hrest⟩, ?_⟩
    · change (label :: (Chain.ofFulfilled fields).classLabels).Nodup
      rw [heq]
      exact hlabels
    · change label :: (Chain.ofFulfilled fields).classLabels = _
      rw [heq, List.map_cons]

end

structure Elaborates (strict : Prop) (given : Name → Prop) (n : Nat) : Prop where
  infer {ctx : Context} {e : Expr} {i : Inferred} {s s' : Solution} :
    (infer n ctx e).Yields s i s' → Coherent strict given ctx s →
    s.GrowsTo strict (s.usedNames ctx) s' ∧ i.Fits strict given s' ctx
  check {ctx : Context} {e : Expr} {a : Value} {t : Term} {s s' : Solution} :
    (check n ctx e a).Yields s t s' → Coherent strict given ctx s → a.Fits strict given s ctx →
      s.GrowsTo strict (s.usedNames ctx) s' ∧ t.WellFormed strict
  checkType {ctx : Context} {e : Expr} {r : Term × Value} {s s' : Solution} :
    (checkType n ctx e).Yields s r s' → Coherent strict given ctx s →
      s.GrowsTo strict (s.usedNames ctx) s' ∧ r.1.WellFormed strict ∧ r.2.Fits strict given s' ctx
  inferForm {ctx : Context} {form : Form} {i : Inferred} {s s' : Solution} :
    (inferForm n ctx form).Yields s i s' → Coherent strict given ctx s →
    s.GrowsTo strict (s.usedNames ctx) s' ∧ i.Fits strict given s' ctx
  inferLet {ctx : Context} {label : Name} {type : Option Expr} {value : Expr}
      {r : Context × Name × Term × Term} {s s' : Solution} :
    (inferLet n ctx label type value).Yields s r s' → Coherent strict given ctx s →
      s.GrowsTo strict (s.usedNames ctx) s' ∧
        (r.2.2.1.WellFormed strict ∧ r.2.2.2.WellFormed strict) ∧
        ∃ a v, r.1 = ctx.define label r.2.1 a v ∧ a.Fits strict given s' ctx ∧
          v.Fits strict given s' ctx
  inferBinder {ctx : Context} {label : Name} {domain codomain : Expr} {r : Name × Term × Term}
    {s s' : Solution} :
    (inferBinder n ctx label domain codomain).Yields s r s' → Coherent strict given ctx s →
      s.GrowsTo strict (s.usedNames ctx) s' ∧ r.2.1.WellFormed strict ∧ r.2.2.WellFormed strict
  inferFn {ctx : Context} {p : Plicity} {label : Name} {domain body : Expr} {i : Inferred}
    {s s' : Solution} :
    (inferFn n ctx p label domain body).Yields s i s' → Coherent strict given ctx s →
      s.GrowsTo strict (s.usedNames ctx) s' ∧ i.Fits strict given s' ctx
  checkForm {ctx : Context} {e : Expr} {a : Value} {t : Term} {s s' : Solution} :
    (checkForm n ctx e a).Yields s t s' → Coherent strict given ctx s → a.Fits strict given s ctx →
      s.GrowsTo strict (s.usedNames ctx) s' ∧ t.WellFormed strict
  checkInferred {ctx : Context} {e : Expr} {a : Value} {t : Term} {s s' : Solution} :
    (checkInferred n ctx e a).Yields s t s' → Coherent strict given ctx s →
      a.Fits strict given s ctx → s.GrowsTo strict (s.usedNames ctx) s' ∧ t.WellFormed strict
  checkFn {ctx : Context} {p : Plicity} {label : Name} {domain : Option Expr} {body : Expr}
      {a : Value} {b : Closure} {t : Term} {s s' : Solution} :
    (checkFn n ctx p label domain body a b).Yields s t s' → Coherent strict given ctx s →
      a.Fits strict given s ctx →
      b.Fits strict given s ctx → s.GrowsTo strict (s.usedNames ctx) s' ∧ t.WellFormed strict
  inferTarget {ctx : Context} {target : Expr} {c : Chain} {s s' : Solution} :
    (inferTarget n ctx target).Yields s c s' → Coherent strict given ctx s →
      s.GrowsTo strict (s.usedNames ctx) s' ∧ c.Fits strict given s' ctx
  checkFields {ctx : Context} {fields : List (Name × Expr)} {c : Chain} {t : Term}
    {s s' : Solution} :
    (checkFields n ctx fields c).Yields s t s' → Coherent strict given ctx s →
      c.Fits strict given s ctx → s.GrowsTo strict (s.usedNames ctx) s' ∧ t.WellFormed strict
  checkAlong {ctx : Context} {fields : List (Name × Expr)} {c : Chain} {r : List (Name × Term)}
    {s s' : Solution} :
    (checkAlong n ctx fields c).Yields s r s' → Coherent strict given ctx s →
      c.Fits strict given s ctx →
      s.GrowsTo strict (s.usedNames ctx) s' ∧ r.map Prod.fst = c.classLabels ∧
        ∀ f ∈ r, f.2.WellFormed strict
  checkArgs {ctx : Context} {args : List Expr} {c : Chain} {t : Term} {s s' : Solution} :
    (checkArgs n ctx args c).Yields s t s' → Coherent strict given ctx s →
      c.Fits strict given s ctx → s.GrowsTo strict (s.usedNames ctx) s' ∧ t.WellFormed strict
  checkArgsAlong {ctx : Context} {args : List Expr} {c : Chain} {r : List (Name × Term) × List Expr}
      {s s' : Solution} :
    (checkArgsAlong n ctx args c).Yields s r s' → Coherent strict given ctx s →
      c.Fits strict given s ctx →
      s.GrowsTo strict (s.usedNames ctx) s' ∧ r.1.map Prod.fst = c.classLabels ∧
        ∀ f ∈ r.1, f.2.WellFormed strict
  checkClassArg {ctx : Context} {c d : Chain} {arg : Expr} {s s' : Solution} :
    (checkClassArg n ctx c arg).Yields s d s' → Coherent strict given ctx s →
      c.Fits strict given s ctx → s.GrowsTo strict (s.usedNames ctx) s' ∧ d.Fits strict given s' ctx
  fulfilNext {ctx : Context} {c : Chain} {arg : Expr} {r : Option Chain} {s s' : Solution} :
    (fulfilNext n ctx c arg).Yields s r s' → Coherent strict given ctx s →
      c.Fits strict given s ctx →
      s.GrowsTo strict (s.usedNames ctx) s' ∧ ∀ d ∈ r, d.Fits strict given s' ctx ∧
        d.classLabels = c.classLabels
  checkClass {ctx : Context} {members : List Member} {t : Term} {s s' : Solution} :
    (checkClass n ctx members).Yields s t s' → Coherent strict given ctx s →
    s.GrowsTo strict (s.usedNames ctx) s' ∧ t.WellFormed strict
  checkMembers {ctx : Context} {members : List Member} {t : Term} {s s' : Solution} :
    (checkMembers n ctx members).Yields s t s' → Coherent strict given ctx s →
      (members.map Member.label).Nodup →
      s.GrowsTo strict (s.usedNames ctx) s' ∧ t.WellFormed strict ∧ t.IsClass ∧
        t.classLabels = members.map Member.label

namespace Elaborates

variable {given : Name → Prop} {n : Nat} {ctx : Context} {s s' : Solution}

theorem infer_succ (ih : Elaborates strict given n) {e : Expr} {i : Inferred}
    (h : (DependentClasses.infer (n + 1) ctx e).Yields s i s') (hc : Coherent strict given ctx s) :
    s.GrowsTo strict (s.usedNames ctx) s' ∧ i.Fits strict given s' ctx := by
  unfold DependentClasses.infer at h
  exact ih.inferForm (Solver.yields_locating.1 h) hc

theorem check_succ (ih : Elaborates strict given n) {e : Expr} {a : Value} {t : Term}
    (h : (DependentClasses.check (n + 1) ctx e a).Yields s t s') (hc : Coherent strict given ctx s)
    (ha : a.Fits strict given s ctx) :
    s.GrowsTo strict (s.usedNames ctx) s' ∧ t.WellFormed strict := by
  unfold DependentClasses.check at h
  exact ih.checkForm (Solver.yields_locating.1 h) hc ha

theorem checkType_succ (ih : Elaborates strict given n) {e : Expr} {r : Term × Value}
    (h : (DependentClasses.checkType (n + 1) ctx e).Yields s r s')
    (hc : Coherent strict given ctx s) :
    s.GrowsTo strict (s.usedNames ctx) s' ∧ r.1.WellFormed strict ∧
      r.2.Fits strict given s' ctx := by
  unfold DependentClasses.checkType at h
  simp only [Solver.yields_bind, Solver.yields_evaluate, Solver.yields_pure] at h
  obtain ⟨t, _, ht, a, _, ⟨ha, rfl⟩, rfl, rfl⟩ := h
  obtain ⟨hgrow, hwf⟩ := ih.check ht hc Value.all_type
  exact ⟨hgrow, hwf, (hc.grow hgrow).eval hwf ha⟩

/-- A value is checked against the type that is written for it. -/
theorem ascribed (ih : Elaborates strict given n) {type value : Expr} {r : Term × Value}
    {t : Term} {s₁ : Solution} (hr : (DependentClasses.checkType n ctx type).Yields s r s₁)
    (ht : (DependentClasses.check n ctx value r.2).Yields s₁ t s')
    (hc : Coherent strict given ctx s) :
    s.GrowsTo strict (s.usedNames ctx) s' ∧ r.1.WellFormed strict ∧ r.2.Fits strict given s' ctx ∧
    t.WellFormed strict := by
  obtain ⟨htype, hwf, ha⟩ := ih.checkType hr hc
  obtain ⟨hvalue, htwf⟩ := ih.check ht (hc.grow htype) ha
  exact ⟨htype.next hvalue, hwf, ha.grow hvalue, htwf⟩

theorem inferBinder_succ (ih : Elaborates strict given n) {label : Name} {domain codomain : Expr}
    {r : Name × Term × Term}
    (h : (DependentClasses.inferBinder (n + 1) ctx label domain codomain).Yields s r s')
    (hc : Coherent strict given ctx s) :
    s.GrowsTo strict (s.usedNames ctx) s' ∧ r.2.1.WellFormed strict ∧ r.2.2.WellFormed strict := by
  unfold DependentClasses.inferBinder at h
  simp only [Solver.yields_bind, Solver.yields_bindFresh, Solver.yields_pure] at h
  obtain ⟨⟨t, a⟩, s₁, ht, _, _, ⟨rfl, rfl⟩, b, _, hb, rfl, rfl⟩ := h
  obtain ⟨hdomain, hwf, ha⟩ := ih.checkType ht hc
  obtain ⟨hcodomain, hbwf⟩ := ih.check hb ((hc.grow hdomain).bind ha _ _) Value.all_type
  exact ⟨hdomain.next (hcodomain.outward (Context.names_cons _ ctx)), hwf, hbwf⟩

theorem inferFn_succ (ih : Elaborates strict given n) {p : Plicity} {label : Name}
    {domain body : Expr} {i : Inferred}
    (h : (DependentClasses.inferFn (n + 1) ctx p label domain body).Yields s i s')
    (hc : Coherent strict given ctx s) :
    s.GrowsTo strict (s.usedNames ctx) s' ∧ i.Fits strict given s' ctx := by
  unfold DependentClasses.inferFn at h
  simp only [Solver.yields_bind, Solver.yields_bindFresh, Solver.yields_reify,
    Solver.yields_evaluate, Solver.yields_pure] at h
  obtain ⟨⟨t, a⟩, _, ht, _, s₁, ⟨rfl, rfl⟩, j, _, hj, b, _, ⟨hb, rfl⟩, f, _, ⟨hf, rfl⟩, rfl, rfl⟩ :=
    h
  obtain ⟨hdomain, hwf, ha⟩ := ih.checkType ht hc
  have hbelow := (hc.grow hdomain).bind ha label (s₁.freshName ctx label)
  obtain ⟨hbody, hjwf, htype⟩ := ih.infer hj hbelow
  have hgrow := hdomain.next (hbody.outward (Context.names_cons _ ctx))
  -- the codomain is read back below the binder, and closed again by the function type
  have hpi : (Term.pi p (s₁.freshName ctx label) t b).WellFormed strict :=
    Term.all_pi.2 ⟨hwf, (hbelow.grow hbody).reify htype hb⟩
  exact ⟨hgrow, Term.all_fn.2 ⟨hwf, hjwf⟩, (hc.grow hgrow).eval hpi hf⟩

theorem inferLet_succ (ih : Elaborates strict given n) {label : Name}
    {type : Option Expr} {value : Expr} {r : Context × Name × Term × Term}
    (h : (DependentClasses.inferLet (n + 1) ctx label type value).Yields s r s')
    (hc : Coherent strict given ctx s) :
    s.GrowsTo strict (s.usedNames ctx) s' ∧
      (r.2.2.1.WellFormed strict ∧ r.2.2.2.WellFormed strict) ∧
      ∃ a v, r.1 = ctx.define label r.2.1 a v ∧ a.Fits strict given s' ctx ∧
      v.Fits strict given s' ctx := by
  unfold DependentClasses.inferLet at h
  cases type with
  | some type =>
    simp only [Solver.yields_bind, Solver.yields_evaluate, Solver.yields_freshName,
      Solver.yields_pure] at h
    obtain ⟨⟨t, a⟩, s₁, ht, v, _, hv, _, _, ⟨rfl, rfl⟩, w, _, ⟨hw, rfl⟩, _, _,
      ⟨rfl, rfl⟩, rfl, rfl⟩ := h
    obtain ⟨hgrow, htwf, ha, hvwf⟩ := ih.ascribed ht hv hc
    exact ⟨hgrow, ⟨htwf, hvwf⟩, a, w, rfl, ha, (hc.grow hgrow).eval hvwf hw⟩
  | none =>
    simp only [Solver.yields_bind, Solver.yields_reify, Solver.yields_evaluate,
      Solver.yields_freshName, Solver.yields_pure] at h
    obtain ⟨i, _, hi, t, _, ⟨ht, rfl⟩, _, _, ⟨rfl, rfl⟩, w, _, ⟨hw, rfl⟩, _, _,
      ⟨rfl, rfl⟩, rfl, rfl⟩ := h
    obtain ⟨hgrow, hterm, htype⟩ := ih.infer hi hc
    have hc' := hc.grow hgrow
    exact ⟨hgrow, ⟨hc'.reify htype ht, hterm⟩, i.type, w, rfl, htype, hc'.eval hterm hw⟩

theorem checkInferred_succ (ih : Elaborates strict given n) {e : Expr} {a : Value} {t : Term}
    (h : (DependentClasses.checkInferred (n + 1) ctx e a).Yields s t s')
    (hc : Coherent strict given ctx s) (ha : a.Fits strict given s ctx) :
    s.GrowsTo strict (s.usedNames ctx) s' ∧ t.WellFormed strict := by
  unfold DependentClasses.checkInferred at h
  simp only [Solver.yields_bind] at h
  obtain ⟨i, s₁, hi, h⟩ := h
  obtain ⟨hinfer, hfits⟩ := ih.infer hi hc
  have hincluded {j : Inferred} {s₂ : Solution} {u : Unit}
      (hgrow : s.GrowsTo strict (s.usedNames ctx) s₂)
      (hj : j.Fits strict given s₂ ctx) (hincl : (inclusion n ctx j.type a).Yields s₂ u s') :
      s.GrowsTo strict (s.usedNames ctx) s' ∧ j.term.WellFormed strict :=
    ⟨hgrow.next ((IncludesByGrowth.all n).inclusion hincl hgrow.sound hc.wellFormed
      hj.2.wellFormed ha.wellFormed), hj.1⟩
  split at h
  · simp only [Solver.yields_bind, Solver.yields_pure] at h
    obtain ⟨_, _, ⟨rfl, rfl⟩, _, _, hincl, rfl, rfl⟩ := h
    exact hincluded hinfer hfits hincl
  · simp only [Solver.yields_bind, Solver.yields_pure] at h
    obtain ⟨j, s₂, hj, _, _, hincl, rfl, rfl⟩ := h
    obtain ⟨happly, hjfits⟩ := applyImplicits_fits hj (hc.grow hinfer) hfits
    exact hincluded (hinfer.next happly) hjfits hincl

/-- The body of a function is checked below its parameter. -/
theorem checkBody (ih : Elaborates strict given n) {p : Plicity} {label : Name} {body : Expr}
    {a : Value} {b : Closure} {t : Term} (hc : Coherent strict given ctx s)
    (ha : a.Fits strict given s ctx) (hb : b.Fits strict given s ctx) (h : Solver.Yields (do
      let (inner, x) ← bindFresh ctx label a
      let b ← b.apply n (.variable a x)
      let body ← DependentClasses.check n inner body b
      let a ← Solver.reify n ctx a
      pure (Term.fn p x a body)) s t s') :
    s.GrowsTo strict (s.usedNames ctx) s' ∧ t.WellFormed strict := by
  simp only [Solver.yields_bind, Solver.yields_bindFresh, Solver.yields_lift, Solver.yields_reify,
    Solver.yields_pure] at h
  obtain ⟨_, _, ⟨rfl, rfl⟩, r, _, ⟨hr, rfl⟩, t', _, ht', d, _, ⟨hd, rfl⟩, rfl, rfl⟩ := h
  have hresult := (hb.cons _).apply (ha.parameter label _) hr
  obtain ⟨hbody, hwf⟩ := ih.check ht' (hc.bind ha label _) hresult
  have hgrow := hbody.outward (Context.names_cons _ ctx)
  exact ⟨hgrow, Term.all_fn.2 ⟨(hc.grow hgrow).reify (ha.grow hgrow) hd, hwf⟩⟩

theorem checkFn_succ (ih : Elaborates strict given n) {p : Plicity} {label : Name}
    {domain : Option Expr} {body : Expr} {a : Value} {b : Closure} {t : Term}
    (h : (DependentClasses.checkFn (n + 1) ctx p label domain body a b).Yields s t s')
    (hc : Coherent strict given ctx s) (ha : a.Fits strict given s ctx)
    (hb : b.Fits strict given s ctx) :
    s.GrowsTo strict (s.usedNames ctx) s' ∧ t.WellFormed strict := by
  unfold DependentClasses.checkFn at h
  cases domain with
  | some domain =>
    rw [Solver.yields_bind] at h
    obtain ⟨⟨_, c⟩, s₁, htype, h⟩ := h
    rw [Solver.yields_bind] at h
    obtain ⟨_, s₂, hincl, h⟩ := h
    obtain ⟨hgrow, -, hcfits⟩ := ih.checkType htype hc
    have hdomain := hgrow.next
      ((IncludesByGrowth.all n).inclusion hincl hgrow.sound hc.wellFormed ha.wellFormed
      hcfits.wellFormed)
    obtain ⟨hbody, hwf⟩ := ih.checkBody (hc.grow hdomain) (ha.grow hdomain) (hb.grow hdomain) h
    exact ⟨hdomain.next hbody, hwf⟩
  | none => exact ih.checkBody hc ha hb h

theorem checkForm_succ (ih : Elaborates strict given n) {e : Expr} {a : Value} {t : Term}
    (h : (DependentClasses.checkForm (n + 1) ctx e a).Yields s t s')
    (hc : Coherent strict given ctx s) (ha : a.Fits strict given s ctx) :
    s.GrowsTo strict (s.usedNames ctx) s' ∧ t.WellFormed strict := by
  unfold DependentClasses.checkForm at h
  simp only [Solver.yields_bind, Solver.yields_force] at h
  obtain ⟨a', _, ⟨ha', rfl⟩, h⟩ := h
  have hforced := hc.force ha ha'
  split at h
  case h_1 =>
    split at h
    case h_1 =>
      obtain ⟨hb, hd⟩ := Value.all_pi.1 hforced
      exact ih.checkFn h hc hb hd
    case h_2 =>
      obtain ⟨hb, hd⟩ := Value.all_pi.1 hforced
      exact ih.checkBody hc hb hd h
    case h_3 => exact ih.checkInferred h hc hforced
  case h_2 =>
    split at h
    · obtain ⟨hb, hd⟩ := Value.all_pi.1 hforced
      exact ih.checkFn h hc hb hd
    · exact ih.checkInferred h hc hforced
  case h_3 =>
    split at h
    · simp only [Solver.yields_bind, Solver.yields_evaluate, Solver.yields_lift,
        Solver.yields_pure] at h
      obtain ⟨x, s₁, hx, v, _, ⟨hv, rfl⟩, d, _, ⟨hd, rfl⟩, y, _, hy, rfl, rfl⟩ := h
      obtain ⟨hb, hcdr⟩ := Value.all_sigma.1 hforced
      obtain ⟨hcar, hxwf⟩ := ih.check hx hc hb
      have hc₁ := hc.grow hcar
      obtain ⟨hgrow, hywf⟩ :=
        ih.check hy hc₁ ((Closure.Fits.grow hcdr hcar).apply (hc₁.eval hxwf hv) hd)
      exact ⟨hcar.next hgrow, Term.all_cons.2 ⟨hxwf, hywf⟩⟩
    · exact ih.checkInferred h hc hforced
  case h_4 =>
    split at h
    · exact ih.checkFields h hc (Value.all_classOf.1 hforced)
    · exact ih.checkInferred h hc hforced
  case h_5 =>
    split at h
    · exact ih.checkClass h hc
    · exact ih.checkInferred h hc hforced
  case h_6 =>
    simp only [Solver.yields_bind, Solver.yields_pure] at h
    obtain ⟨⟨inner, x, t', v⟩, s₁, hlet, b, _, hb, rfl, rfl⟩ := h
    obtain ⟨hgrow, ⟨htwf, hvwf⟩, c, w, hinner, hcfits, hw⟩ := ih.inferLet hlet hc
    dsimp only at hinner
    subst hinner
    obtain ⟨hbody, hbwf⟩ :=
      ih.check hb ((hc.grow hgrow).define hcfits hw _ _) ((hforced.grow hgrow).cons _)
    exact ⟨hgrow.next (hbody.outward (Context.names_cons _ ctx)),
      Term.all_letIn.2 ⟨htwf, hvwf, hbwf⟩⟩
  case h_7 => exact ih.checkInferred h hc hforced

theorem inferTarget_succ (ih : Elaborates strict given n) {target : Expr} {c : Chain}
    (h : (DependentClasses.inferTarget (n + 1) ctx target).Yields s c s')
    (hc : Coherent strict given ctx s) :
    s.GrowsTo strict (s.usedNames ctx) s' ∧ c.Fits strict given s' ctx := by
  unfold DependentClasses.inferTarget at h
  simp only [Solver.yields_bind, Solver.yields_force] at h
  obtain ⟨⟨t, a⟩, s₁, htype, b, _, ⟨hb, rfl⟩, h⟩ := h
  obtain ⟨hgrow, -, ha⟩ := ih.checkType htype hc
  split at h
  · obtain ⟨rfl, rfl⟩ := Solver.yields_pure.1 h
    exact ⟨hgrow, Value.all_classOf.1 ((hc.grow hgrow).force ha hb)⟩
  · simp at h

theorem checkAlong_succ (ih : Elaborates strict given n) {fields : List (Name × Expr)} {c : Chain}
    {r : List (Name × Term)}
    (h : (DependentClasses.checkAlong (n + 1) ctx fields c).Yields s r s')
    (hc : Coherent strict given ctx s) (hfits : c.Fits strict given s ctx) :
    s.GrowsTo strict (s.usedNames ctx) s' ∧ r.map Prod.fst = c.classLabels ∧
      ∀ f ∈ r, f.2.WellFormed strict := by
  unfold DependentClasses.checkAlong at h
  cases c with
  | nil =>
    obtain ⟨rfl, rfl⟩ := Solver.yields_pure.1 h
    exact ⟨.refl hc.sound _, rfl, by simp⟩
  | declared k a rest =>
    dsimp only at h
    split at h
    · simp at h
    · simp only [Solver.yields_bind, Solver.yields_within, Solver.yields_evaluate,
        Solver.yields_lift, Solver.yields_pure] at h
      obtain ⟨t, _, ht, v, _, ⟨hv, rfl⟩, d, s₁, ⟨hd, rfl⟩, more, _, hmore, rfl, rfl⟩ := h
      obtain ⟨hgrow, hwf⟩ := ih.check ht hc (Chain.all_declared.1 hfits).2.2.1
      have hc₁ := hc.grow hgrow
      obtain ⟨hdfits, hclass⟩ := hfits.rest hgrow (hc₁.eval hwf hv) hd
      obtain ⟨hlater, hlabels, hterms⟩ := ih.checkAlong hmore hc₁ hdfits
      exact ⟨hgrow.next hlater, by rw [← hclass, ← hlabels, List.map_cons],
        List.forall_mem_cons.2 ⟨hwf, hterms⟩⟩
  | fulfilled k a w rest =>
    obtain ⟨-, ha, hw, hrest⟩ := Chain.all_fulfilled.1 hfits
    have hlater {t : Term} {more : List (Name × Term)} {s₁ : Solution}
        (hgrow : s.GrowsTo strict (s.usedNames ctx) s₁)
        (hwf : t.WellFormed strict)
          (hmore : (DependentClasses.checkAlong n ctx fields rest).Yields s₁ more s') :
        s.GrowsTo strict (s.usedNames ctx) s' ∧
          ((k, t) :: more).map Prod.fst = (Chain.fulfilled k a w rest).classLabels ∧
          ∀ f ∈ (k, t) :: more, f.2.WellFormed strict := by
      obtain ⟨hlater, hlabels, hterms⟩ :=
        ih.checkAlong hmore (hc.grow hgrow) (Chain.Fits.grow hrest hgrow)
      exact ⟨hgrow.next hlater, by simp [hlabels, Chain.classLabels],
        List.forall_mem_cons.2 ⟨hwf, hterms⟩⟩
    dsimp only at h
    split at h
    · simp only [Solver.yields_bind, Solver.yields_within, Solver.yields_evaluate,
        Solver.yields_judging, Solver.yields_pure] at h
      obtain ⟨_, _, ⟨t, s₁, ht, v, _, ⟨-, rfl⟩, _, _, ⟨-, rfl⟩, rfl, rfl⟩, more, _,
        hmore, rfl, rfl⟩ := h
      obtain ⟨hgrow, hwf⟩ := ih.check ht hc ha
      exact hlater hgrow hwf hmore
    · simp only [Solver.yields_bind, Solver.yields_reify, Solver.yields_pure] at h
      obtain ⟨t, _, ⟨ht, rfl⟩, more, _, hmore, rfl, rfl⟩ := h
      exact hlater (.refl hc.sound _) (hc.reify hw ht) hmore

theorem checkFields_succ (ih : Elaborates strict given n) {fields : List (Name × Expr)}
    {c : Chain} {t : Term} (h : (DependentClasses.checkFields (n + 1) ctx fields c).Yields s t s')
    (hc : Coherent strict given ctx s) (hfits : c.Fits strict given s ctx) :
    s.GrowsTo strict (s.usedNames ctx) s' ∧ t.WellFormed strict := by
  unfold DependentClasses.checkFields at h
  simp only [Solver.yields_bind, Solver.yields_pure] at h
  obtain ⟨_, _, hdistinct, known, s₁, hknown, extra, _, hextra, rfl, rfl⟩ := h
  obtain ⟨hnodup, rfl⟩ := nodup_of_checkDistinct hdistinct
  obtain ⟨hgrow, hlabels, hterms⟩ := ih.checkAlong hknown hc hfits
  obtain ⟨hmore, hlabels', hterms'⟩ :=
    mapM_grows (R := fun _ t => Term.WellFormed strict t) (fun _ => id)
    (fun f _ s s' y hc hy => by
      simp only [Solver.yields_bind, Solver.yields_within, Solver.yields_pure] at hy
      obtain ⟨i, _, hi, rfl, rfl⟩ := hy
      obtain ⟨hgrow, hwf, -⟩ := ih.infer hi hc
      exact ⟨hgrow, rfl, hwf⟩) (hc.grow hgrow) hextra
  have hknownNodup : (known.map Prod.fst).Nodup := hlabels ▸ Chain.nodup_classLabels hfits
  have hextraNodup : (extra.map Prod.fst).Nodup := by
    rw [hlabels']
    exact hnodup.sublist (List.filter_sublist.map _)
  refine ⟨hgrow.next hmore, Term.all_object.2 ⟨?_, fun f hf => ?_⟩⟩
  · refine Part.WellFormed.of_nodup ?_
    rw [List.map_append]
    refine hknownNodup.append hextraNodup fun k hk hk' => ?_
    -- an extra field is one that the class does not have
    rw [hlabels'] at hk'
    obtain ⟨f, hf, rfl⟩ := List.mem_map.1 hk'
    have hnot := (List.mem_filter.1 hf).2
    simp only [decide_not, Bool.not_eq_true', decide_eq_false_iff_not] at hnot
    exact hnot hk
  · rcases List.mem_append.1 hf with hf | hf
    · exact hterms f hf
    · exact hterms' f hf

theorem checkArgsAlong_succ (ih : Elaborates strict given n) {args : List Expr} {c : Chain}
    {r : List (Name × Term) × List Expr}
    (h : (DependentClasses.checkArgsAlong (n + 1) ctx args c).Yields s r s')
    (hc : Coherent strict given ctx s) (hfits : c.Fits strict given s ctx) :
    s.GrowsTo strict (s.usedNames ctx) s' ∧ r.1.map Prod.fst = c.classLabels ∧
      ∀ f ∈ r.1, f.2.WellFormed strict := by
  unfold DependentClasses.checkArgsAlong at h
  cases c with
  | nil =>
    obtain ⟨rfl, rfl⟩ := Solver.yields_pure.1 h
    exact ⟨.refl hc.sound _, rfl, by simp⟩
  | declared k a rest =>
    dsimp only at h
    split at h
    · simp at h
    · simp only [Solver.yields_bind, Solver.yields_within, Solver.yields_evaluate,
        Solver.yields_lift, Solver.yields_pure] at h
      obtain ⟨t, _, ht, v, _, ⟨hv, rfl⟩, d, s₁, ⟨hd, rfl⟩, ⟨more, unused⟩, _, hmore, rfl, rfl⟩ := h
      obtain ⟨hgrow, hwf⟩ := ih.check ht hc (Chain.all_declared.1 hfits).2.2.1
      have hc₁ := hc.grow hgrow
      obtain ⟨hdfits, hclass⟩ := hfits.rest hgrow (hc₁.eval hwf hv) hd
      obtain ⟨hlater, hlabels, hterms⟩ := ih.checkArgsAlong hmore hc₁ hdfits
      exact ⟨hgrow.next hlater, by rw [← hclass, ← hlabels, List.map_cons],
        List.forall_mem_cons.2 ⟨hwf, hterms⟩⟩
  | fulfilled k a w rest =>
    simp only [Solver.yields_bind, Solver.yields_reify, Solver.yields_pure] at h
    obtain ⟨t, _, ⟨ht, rfl⟩, ⟨more, unused⟩, _, hmore, rfl, rfl⟩ := h
    obtain ⟨-, -, hw, hrest⟩ := Chain.all_fulfilled.1 hfits
    obtain ⟨hlater, hlabels, hterms⟩ := ih.checkArgsAlong hmore hc hrest
    exact ⟨hlater, by simpa [Chain.classLabels] using hlabels,
      List.forall_mem_cons.2 ⟨hc.reify hw ht, hterms⟩⟩

theorem checkArgs_succ (ih : Elaborates strict given n) {args : List Expr} {c : Chain} {t : Term}
    (h : (DependentClasses.checkArgs (n + 1) ctx args c).Yields s t s')
    (hc : Coherent strict given ctx s) (hfits : c.Fits strict given s ctx) :
    s.GrowsTo strict (s.usedNames ctx) s' ∧ t.WellFormed strict := by
  unfold DependentClasses.checkArgs at h
  simp only [Solver.yields_bind] at h
  obtain ⟨⟨known, unused⟩, s₁, hknown, h⟩ := h
  obtain ⟨hgrow, hlabels, hterms⟩ := ih.checkArgsAlong hknown hc hfits
  split at h
  · simp at h
  · obtain ⟨rfl, rfl⟩ := Solver.yields_pure.1 h
    exact ⟨hgrow, Term.all_object.2 ⟨.of_nodup (hlabels ▸ Chain.nodup_classLabels hfits), hterms⟩⟩

theorem fulfilNext_succ (ih : Elaborates strict given n) {c : Chain} {arg : Expr} {r : Option Chain}
    (h : (DependentClasses.fulfilNext (n + 1) ctx c arg).Yields s r s')
    (hc : Coherent strict given ctx s) (hfits : c.Fits strict given s ctx) :
    s.GrowsTo strict (s.usedNames ctx) s' ∧ ∀ d ∈ r, d.Fits strict given s' ctx ∧
      d.classLabels = c.classLabels := by
  unfold DependentClasses.fulfilNext at h
  cases c with
  | nil =>
    obtain ⟨rfl, rfl⟩ := Solver.yields_pure.1 h
    exact ⟨.refl hc.sound _, by simp⟩
  | declared k a rest =>
    simp only [Solver.yields_bind, Solver.yields_within, Solver.yields_evaluate, Solver.yields_lift,
      Solver.yields_pure] at h
    obtain ⟨t, _, ht, v, _, ⟨hv, rfl⟩, d, s₁, ⟨hd, rfl⟩, rfl, rfl⟩ := h
    obtain ⟨hgrow, hwf⟩ := ih.check ht hc (Chain.all_declared.1 hfits).2.2.1
    have hvalue := (hc.grow hgrow).eval hwf hv
    obtain ⟨hdfits, hlabels⟩ := hfits.rest hgrow hvalue hd
    obtain ⟨hl, -, ha, -⟩ := Chain.all_declared.1 hfits
    refine ⟨hgrow, fun e he => ?_⟩
    cases he
    have hdistinct : (k :: d.classLabels).Nodup := by rw [hlabels]; exact hl
    exact ⟨Chain.all_fulfilled.2 ⟨hdistinct, Value.Fits.grow ha hgrow, hvalue, hdfits⟩, hlabels⟩
  | fulfilled k a w rest =>
    simp only [Solver.yields_bind, Solver.yields_pure] at h
    obtain ⟨found, _, hfound, rfl, rfl⟩ := h
    obtain ⟨hl, ha, hw, hrest⟩ := Chain.all_fulfilled.1 hfits
    obtain ⟨hgrow, hnext⟩ := ih.fulfilNext hfound hc hrest
    refine ⟨hgrow, fun e he => ?_⟩
    obtain ⟨d, hd, rfl⟩ := Option.map_eq_some_iff.1 he
    obtain ⟨hd', hlabels⟩ := hnext d hd
    rw [Chain.classLabels, Chain.classLabels, hlabels]
    exact ⟨Chain.all_fulfilled.2 ⟨hlabels ▸ hl, Value.Fits.grow ha hgrow,
      Value.Fits.grow hw hgrow, hd'⟩, rfl⟩

theorem checkClassArg_succ (ih : Elaborates strict given n) {c d : Chain} {arg : Expr}
    (h : (DependentClasses.checkClassArg (n + 1) ctx c arg).Yields s d s')
    (hc : Coherent strict given ctx s) (hfits : c.Fits strict given s ctx) :
    s.GrowsTo strict (s.usedNames ctx) s' ∧ d.Fits strict given s' ctx := by
  unfold DependentClasses.checkClassArg at h
  simp only [Solver.yields_bind] at h
  obtain ⟨found, s₁, hfound, h⟩ := h
  obtain ⟨hgrow, hnext⟩ := ih.fulfilNext hfound hc hfits
  split at h
  · obtain ⟨rfl, rfl⟩ := Solver.yields_pure.1 h
    exact ⟨hgrow, (hnext _ rfl).1⟩
  · simp at h

theorem checkMembers_succ (ih : Elaborates strict given n) {members : List Member} {t : Term}
    (h : (DependentClasses.checkMembers (n + 1) ctx members).Yields s t s')
    (hc : Coherent strict given ctx s) (hnodup : (members.map Member.label).Nodup) :
    s.GrowsTo strict (s.usedNames ctx) s' ∧ t.WellFormed strict ∧ t.IsClass ∧
    t.classLabels = members.map Member.label := by
  unfold DependentClasses.checkMembers at h
  split at h
  · obtain ⟨rfl, rfl⟩ := Solver.yields_pure.1 h
    exact ⟨.refl hc.sound _, Term.all_emptyClass, True.intro, rfl⟩
  · next label type members =>
    simp only [Solver.yields_bind, Solver.yields_within, Solver.yields_evaluate,
      Solver.yields_bindFresh, Solver.yields_pure] at h
    obtain ⟨t, _, ht, a, _, ⟨ha, rfl⟩, _, _, ⟨rfl, rfl⟩, rest, _, hrest, rfl, rfl⟩ := h
    obtain ⟨hgrow, hwf⟩ := ih.check ht hc Value.all_type
    have hc₁ := hc.grow hgrow
    obtain ⟨hlater, hrestWF, hclass, hlabels⟩ :=
      ih.checkMembers hrest (hc₁.bind (hc₁.eval hwf ha) label _) (List.nodup_cons.1 hnodup).2
    have hall : (label :: rest.classLabels).Nodup := by rw [hlabels]; exact hnodup
    exact ⟨hgrow.next (hlater.outward (Context.names_cons _ ctx)),
      Term.all_declared.2 ⟨hall, hclass, hwf, hrestWF⟩,
      True.intro, by rw [Term.classLabels, hlabels]; rfl⟩
  · next label type value members =>
    have hlater {t v rest : Term} {a w : Value} {s₁ : Solution} {x : Name}
        (hgrow : s.GrowsTo strict (s.usedNames ctx) s₁) (ht : t.WellFormed strict)
        (ha : a.Fits strict given s₁ ctx) (hv : v.WellFormed strict)
        (hw : eval n (s₁.environment ctx) v = .ok w)
        (hrest : (DependentClasses.checkMembers n (ctx.define label x a w) members).Yields s₁ rest
          s') :
        s.GrowsTo strict (s.usedNames ctx) s' ∧
          (Term.fulfilled label x t v rest).WellFormed strict ∧
          (Term.fulfilled label x t v rest).IsClass ∧
          (Term.fulfilled label x t v rest).classLabels =
            (Member.fulfilled label type value :: members).map Member.label := by
      have hc₁ := hc.grow hgrow
      obtain ⟨hlater, hrestWF, hclass, hlabels⟩ :=
        ih.checkMembers hrest (hc₁.define ha (hc₁.eval hv hw) label x) (List.nodup_cons.1 hnodup).2
      have hall : (label :: rest.classLabels).Nodup := by rw [hlabels]; exact hnodup
      exact ⟨hgrow.next (hlater.outward (Context.names_cons _ ctx)),
        Term.all_fulfilled.2 ⟨hall, hclass, ht, hv, hrestWF⟩, True.intro, by
          rw [Term.classLabels, hlabels]; rfl⟩
    split at h
    · simp only [Solver.yields_bind, Solver.yields_within, Solver.yields_evaluate,
        Solver.yields_freshName, Solver.yields_pure] at h
      obtain ⟨t, s₁, ht, a, _, ⟨ha, rfl⟩, v, _, hv, _, _, ⟨rfl, rfl⟩, w, _, ⟨hw, rfl⟩, _, _,
        ⟨rfl, rfl⟩, rest, _, hrest, rfl, rfl⟩ := h
      obtain ⟨htype, htwf⟩ := ih.check ht hc Value.all_type
      have hafits := (hc.grow htype).eval htwf ha
      obtain ⟨hvalue, hvwf⟩ := ih.check hv (hc.grow htype) hafits
      exact hlater (htype.next hvalue) htwf (hafits.grow hvalue) hvwf hw hrest
    · simp only [Solver.yields_bind, Solver.yields_within, Solver.yields_reify,
        Solver.yields_evaluate, Solver.yields_freshName, Solver.yields_pure] at h
      obtain ⟨i, _, hi, t, _, ⟨ht, rfl⟩, _, _, ⟨rfl, rfl⟩, w, _, ⟨hw, rfl⟩, _, _,
        ⟨rfl, rfl⟩, rest, _, hrest, rfl, rfl⟩ := h
      obtain ⟨hgrow, hterm, htype⟩ := ih.infer hi hc
      exact hlater hgrow ((hc.grow hgrow).reify htype ht) htype hterm hw hrest

theorem checkClass_succ (ih : Elaborates strict given n) {members : List Member} {t : Term}
    (h : (DependentClasses.checkClass (n + 1) ctx members).Yields s t s')
    (hc : Coherent strict given ctx s) :
    s.GrowsTo strict (s.usedNames ctx) s' ∧ t.WellFormed strict := by
  unfold DependentClasses.checkClass at h
  simp only [Solver.yields_bind] at h
  obtain ⟨_, _, hdistinct, h⟩ := h
  obtain ⟨hnodup, rfl⟩ := nodup_of_checkDistinct hdistinct
  obtain ⟨hgrow, hwf, -⟩ := ih.checkMembers h hc hnodup
  exact ⟨hgrow, hwf⟩

/-- A function is applied to an argument of its domain. -/
theorem applied (ih : Elaborates strict given n) {p : Plicity} {f : Inferred} {a : Value}
    {b : Closure} {arg : Expr} {i : Inferred} (hc : Coherent strict given ctx s)
    (hf : f.term.WellFormed strict) (hpi : (Value.pi p a b).Fits strict given s ctx)
    (h : Solver.Yields (do
      let arg ← DependentClasses.check n ctx arg a
      let v ← Solver.evaluate n ctx arg
      let b ← b.apply n v
      pure (⟨.app p f.term arg, b⟩ : Inferred)) s i s') :
    s.GrowsTo strict (s.usedNames ctx) s' ∧ i.Fits strict given s' ctx := by
  simp only [Solver.yields_bind, Solver.yields_evaluate, Solver.yields_lift,
    Solver.yields_pure] at h
  obtain ⟨t, _, ht, v, _, ⟨hv, rfl⟩, r, _, ⟨hr, rfl⟩, rfl, rfl⟩ := h
  obtain ⟨ha, hb⟩ := Value.all_pi.1 hpi
  obtain ⟨hgrow, hwf⟩ := ih.check ht hc ha
  have hvalue := (hc.grow hgrow).eval hwf hv
  exact ⟨hgrow, Term.all_app.2 ⟨hf, hwf⟩, (Closure.Fits.grow hb hgrow).apply hvalue hr⟩

theorem inferForm_app (ih : Elaborates strict given n) {target arg : Expr} {i : Inferred}
    (h : (DependentClasses.inferForm (n + 1) ctx (.app .explicit target arg)).Yields s i s')
    (hc : Coherent strict given ctx s) :
    s.GrowsTo strict (s.usedNames ctx) s' ∧ i.Fits strict given s' ctx := by
  unfold DependentClasses.inferForm at h
  simp only [Solver.yields_bind, Solver.yields_force] at h
  obtain ⟨f, s₁, hf, g, s₂, hg, a, _, ⟨ha, rfl⟩, h⟩ := h
  obtain ⟨hinfer, hffits⟩ := ih.infer hf hc
  obtain ⟨himplicits, hgfits⟩ := applyImplicits_fits hg (hc.grow hinfer) hffits
  have hgrow := hinfer.next himplicits
  have hc' := hc.grow hgrow
  have htype := hc'.force hgfits.2 ha
  split at h
  · obtain ⟨hlater, hi⟩ :=
      ih.applied hc' hgfits.1 htype (by simpa only [Solver.yields_bind] using h)
    exact ⟨hgrow.next hlater, hi⟩
  · simp only [Solver.yields_bind, Solver.yields_evaluate, Solver.yields_force] at h
    obtain ⟨v, _, ⟨hv, rfl⟩, w, _, ⟨hw, rfl⟩, h⟩ := h
    have hclass := hc'.force (hc'.eval hgfits.1 hv) hw
    split at h
    · simp only [Solver.yields_bind, Solver.yields_reifyChain, Solver.yields_pure] at h
      obtain ⟨d, _, hd, t, _, ⟨ht, rfl⟩, rfl, rfl⟩ := h
      obtain ⟨hlater, hdfits⟩ := ih.checkClassArg hd hc' (Value.all_classOf.1 hclass)
      have hwf := hlater.sound.wellFormed.reifyChain ht hdfits.wellFormed
      exact ⟨hgrow.next hlater, hwf, Value.all_type⟩
    · simp at h
  · simp at h

theorem inferForm_object (ih : Elaborates strict given n)
    {fields : List (Name × Expr)} {i : Inferred}
    (h : (DependentClasses.inferForm (n + 1) ctx (.object fields)).Yields s i s')
    (hc : Coherent strict given ctx s) :
    s.GrowsTo strict (s.usedNames ctx) s' ∧ i.Fits strict given s' ctx := by
  unfold DependentClasses.inferForm at h
  simp only [Solver.yields_bind, Solver.yields_pure] at h
  obtain ⟨_, _, hdistinct, known, _, hknown, rfl, rfl⟩ := h
  obtain ⟨hnodup, rfl⟩ := nodup_of_checkDistinct hdistinct
  obtain ⟨hgrow, hlabels, hall⟩ := mapM_grows
    (R := fun s (r : Inferred × Value) => r.1.Fits strict given s ctx ∧ r.2.Fits strict given s ctx)
    (fun hg hr => ⟨hr.1.grow hg, hr.2.grow hg⟩)
    (fun f _ s s' y hc hy => by
      simp only [Solver.yields_bind, Solver.yields_within, Solver.yields_evaluate,
        Solver.yields_pure] at hy
      obtain ⟨j, _, hj, v, _, ⟨hv, rfl⟩, rfl, rfl⟩ := hy
      obtain ⟨hgrow, hfits⟩ := ih.infer hj hc
      exact ⟨hgrow, rfl, hfits, (hc.grow hgrow).eval hfits.1 hv⟩) hc hknown
  have hknownNodup : (known.map Prod.fst).Nodup := hlabels ▸ hnodup
  refine ⟨hgrow, Term.all_object.2 ⟨?_, fun f hf => ?_⟩,
    Value.all_classOf.2 (Chain.ofFulfilled_fits ?_ fun f hf => ?_).1⟩
  · exact .of_nodup (by simpa [List.map_map, Function.comp_def] using hknownNodup)
  · obtain ⟨g, hg, rfl⟩ := List.mem_map.1 hf
    exact (hall g hg).1.1
  · simpa [List.map_map, Function.comp_def] using hknownNodup
  · obtain ⟨g, hg, rfl⟩ := List.mem_map.1 hf
    exact ⟨(hall g hg).1.2, (hall g hg).2⟩

theorem inferForm_succ (ih : Elaborates strict given n) {form : Form} {i : Inferred}
    (h : (DependentClasses.inferForm (n + 1) ctx form).Yields s i s')
    (hc : Coherent strict given ctx s) :
    s.GrowsTo strict (s.usedNames ctx) s' ∧ i.Fits strict given s' ctx := by
  cases form with
  | app p target arg =>
    cases p with
    | explicit => exact ih.inferForm_app h hc
    | implicit =>
      unfold DependentClasses.inferForm at h
      simp only [Solver.yields_bind, Solver.yields_force] at h
      obtain ⟨f, s₁, hf, a, _, ⟨ha, rfl⟩, h⟩ := h
      obtain ⟨hgrow, hfits⟩ := ih.infer hf hc
      have hc' := hc.grow hgrow
      split at h
      · obtain ⟨hlater, hi⟩ := ih.applied hc' hfits.1 (hc'.force hfits.2 ha)
          (by simpa only [Solver.yields_bind] using h)
        exact ⟨hgrow.next hlater, hi⟩
      · simp at h
  | object fields => exact ih.inferForm_object h hc
  | var label =>
    unfold DependentClasses.inferForm at h
    dsimp only at h
    split at h
    · next e he =>
      obtain ⟨rfl, rfl⟩ := Solver.yields_pure.1 h
      exact ⟨.refl hc.sound _, Term.all_var, (hc.context e (List.mem_of_find?_eq_some he)).1⟩
    · simp at h
  | type | string | trivial | sole | quote text =>
    unfold DependentClasses.inferForm at h
    obtain ⟨rfl, rfl⟩ := Solver.yields_pure.1 h
    exact ⟨.refl hc.sound _, by simp [Term.WellFormed], by simp [Value.Fits]⟩
  | pi p label domain codomain =>
    unfold DependentClasses.inferForm at h
    simp only [Solver.yields_bind, Solver.yields_pure] at h
    obtain ⟨⟨x, a, b⟩, _, hbinder, rfl, rfl⟩ := h
    obtain ⟨hgrow, ha, hb⟩ := ih.inferBinder hbinder hc
    exact ⟨hgrow, Term.all_pi.2 ⟨ha, hb⟩, Value.all_type⟩
  | sigma label carType cdrType =>
    unfold DependentClasses.inferForm at h
    simp only [Solver.yields_bind, Solver.yields_pure] at h
    obtain ⟨⟨x, a, b⟩, _, hbinder, rfl, rfl⟩ := h
    obtain ⟨hgrow, ha, hb⟩ := ih.inferBinder hbinder hc
    exact ⟨hgrow, Term.all_sigma.2 ⟨ha, hb⟩, Value.all_type⟩
  | fn p label domain body =>
    unfold DependentClasses.inferForm at h
    cases domain with
    | some domain => exact ih.inferFn h hc
    | none => simp at h
  | cons car cdr =>
    unfold DependentClasses.inferForm at h
    simp at h
  | car pair =>
    unfold DependentClasses.inferForm at h
    simp only [Solver.yields_bind, Solver.yields_force] at h
    obtain ⟨p, s₁, hp, a, _, ⟨ha, rfl⟩, h⟩ := h
    obtain ⟨hgrow, hfits⟩ := ih.infer hp hc
    have htype := (hc.grow hgrow).force hfits.2 ha
    split at h
    · obtain ⟨rfl, rfl⟩ := Solver.yields_pure.1 h
      exact ⟨hgrow, Term.all_car.2 hfits.1, (Value.all_sigma.1 htype).1⟩
    · simp at h
  | cdr pair =>
    unfold DependentClasses.inferForm at h
    simp only [Solver.yields_bind, Solver.yields_force] at h
    obtain ⟨p, s₁, hp, a, _, ⟨ha, rfl⟩, h⟩ := h
    obtain ⟨hgrow, hfits⟩ := ih.infer hp hc
    have hc' := hc.grow hgrow
    have htype := hc'.force hfits.2 ha
    split at h
    · simp only [Solver.yields_bind, Solver.yields_evaluate, Solver.yields_lift,
        Solver.yields_pure] at h
      obtain ⟨v, _, ⟨hv, rfl⟩, w, _, ⟨hw, rfl⟩, r, _, ⟨hr, rfl⟩, rfl, rfl⟩ := h
      have hcar := Value.car_all hw (hc'.eval hfits.1 hv)
      exact ⟨hgrow, Term.all_cdr.2 hfits.1, Closure.Fits.apply (Value.all_sigma.1 htype).2 hcar hr⟩
    · simp at h
  | equal type left right =>
    unfold DependentClasses.inferForm at h
    simp only [Solver.yields_bind, Solver.yields_pure] at h
    obtain ⟨⟨t, a⟩, s₁, ht, l, s₂, hl, r, _, hr, rfl, rfl⟩ := h
    obtain ⟨hgrow, htwf, ha, hlwf⟩ := ih.ascribed ht hl hc
    obtain ⟨hright, hrwf⟩ := ih.check hr (hc.grow hgrow) ha
    exact ⟨hgrow.next hright, Term.all_equal.2 ⟨htwf, hlwf, hrwf⟩, Value.all_type⟩
  | same value =>
    unfold DependentClasses.inferForm at h
    simp only [Solver.yields_bind, Solver.yields_evaluate, Solver.yields_pure] at h
    obtain ⟨j, _, hj, v, _, ⟨hv, rfl⟩, rfl, rfl⟩ := h
    obtain ⟨hgrow, hfits⟩ := ih.infer hj hc
    have hvalue := (hc.grow hgrow).eval hfits.1 hv
    exact ⟨hgrow, Term.all_same.2 hfits.1, Value.all_equal.2 ⟨hfits.2, hvalue, hvalue⟩⟩
  | classOf members =>
    unfold DependentClasses.inferForm at h
    simp only [Solver.yields_bind, Solver.yields_pure] at h
    obtain ⟨t, _, ht, rfl, rfl⟩ := h
    obtain ⟨hgrow, hwf⟩ := ih.checkClass ht hc
    exact ⟨hgrow, hwf, Value.all_type⟩
  | dot target label =>
    unfold DependentClasses.inferForm at h
    simp only [Solver.yields_bind, Solver.yields_force] at h
    obtain ⟨j, s₁, hj, a, _, ⟨ha, rfl⟩, h⟩ := h
    obtain ⟨hgrow, hfits⟩ := ih.infer hj hc
    have hc' := hc.grow hgrow
    have htype := hc'.force hfits.2 ha
    split at h
    · simp only [Solver.yields_bind, Solver.yields_evaluate, Solver.yields_lift] at h
      obtain ⟨v, _, ⟨hv, rfl⟩, found, _, ⟨hfound, rfl⟩, h⟩ := h
      split at h
      · obtain ⟨rfl, rfl⟩ := Solver.yields_pure.1 h
        have hvalue := hc'.eval hfits.1 hv
        exact ⟨hgrow, Term.all_dot.2 hfits.1,
          Chain.typeOf_all hfound (Value.all_classOf.1 htype) hvalue⟩
      · simp at h
    · simp at h
  | new target fields =>
    unfold DependentClasses.inferForm at h
    simp only [Solver.yields_bind, Solver.yields_pure] at h
    obtain ⟨c, s₁, htarget, t, _, ht, rfl, rfl⟩ := h
    obtain ⟨hgrow, hcfits⟩ := ih.inferTarget htarget hc
    obtain ⟨hlater, hwf⟩ := ih.checkFields ht (hc.grow hgrow) hcfits
    exact ⟨hgrow.next hlater, hwf, Value.all_classOf.2 (hcfits.grow hlater)⟩
  | newWith target args =>
    unfold DependentClasses.inferForm at h
    simp only [Solver.yields_bind, Solver.yields_pure] at h
    obtain ⟨c, s₁, htarget, t, _, ht, rfl, rfl⟩ := h
    obtain ⟨hgrow, hcfits⟩ := ih.inferTarget htarget hc
    obtain ⟨hlater, hwf⟩ := ih.checkArgs ht (hc.grow hgrow) hcfits
    exact ⟨hgrow.next hlater, hwf, Value.all_classOf.2 (hcfits.grow hlater)⟩
  | the type value =>
    unfold DependentClasses.inferForm at h
    simp only [Solver.yields_bind, Solver.yields_pure] at h
    obtain ⟨⟨_, a⟩, s₁, htype, t, _, ht, rfl, rfl⟩ := h
    obtain ⟨hgrow, -, ha, hwf⟩ := ih.ascribed htype ht hc
    exact ⟨hgrow, hwf, ha⟩
  | letIn label type value body =>
    unfold DependentClasses.inferForm at h
    simp only [Solver.yields_bind, Solver.yields_pure] at h
    obtain ⟨⟨inner, x, t, v⟩, s₁, hlet, j, _, hj, rfl, rfl⟩ := h
    obtain ⟨hgrow, ⟨htwf, hvwf⟩, a, w, hinner, ha, hw⟩ := ih.inferLet hlet hc
    dsimp only at hinner
    subst hinner
    obtain ⟨hbody, hjwf, htype⟩ := ih.infer hj ((hc.grow hgrow).define ha hw _ _)
    -- the name of a local definition stands for its value, so that no type mentions it
    have houtside := Value.All.mono (Part.Within.mono fun y hy => Solution.Knows.of_define hy) htype
    exact ⟨hgrow.next (hbody.outward (Context.names_cons _ ctx)),
      Term.all_letIn.2 ⟨htwf, hvwf, hjwf⟩, houtside⟩

theorem all (n : Nat) : Elaborates strict given n := by
  induction n with
  | zero =>
    constructor <;> intros <;>
      simp_all [DependentClasses.infer, DependentClasses.check, DependentClasses.checkType,
        DependentClasses.inferForm,
        DependentClasses.inferLet, DependentClasses.inferBinder, DependentClasses.inferFn,
          DependentClasses.checkForm,
        DependentClasses.checkInferred, DependentClasses.checkFn, DependentClasses.inferTarget,
        DependentClasses.checkFields, DependentClasses.checkAlong, DependentClasses.checkArgs,
        DependentClasses.checkArgsAlong, DependentClasses.checkClassArg,
          DependentClasses.fulfilNext,
        DependentClasses.checkClass, DependentClasses.checkMembers]
  | succ n ih =>
    exact ⟨ih.infer_succ, ih.check_succ, ih.checkType_succ, ih.inferForm_succ, ih.inferLet_succ,
      ih.inferBinder_succ,
      ih.inferFn_succ, ih.checkForm_succ, ih.checkInferred_succ, ih.checkFn_succ,
        ih.inferTarget_succ,
      ih.checkFields_succ, ih.checkAlong_succ, ih.checkArgs_succ, ih.checkArgsAlong_succ,
        ih.checkClassArg_succ,
      ih.fulfilNext_succ, ih.checkClass_succ, ih.checkMembers_succ⟩

end Elaborates

end DependentClasses
