import DependentClasses.Proofs.Contexts
import DependentClasses.Proofs.FreshNames
import DependentClasses.Proofs.SimpleTypes
import DependentClasses.Proofs.SolverFuel
import Mathlib.Order.Filter.Finite

/-! Inclusion of simple types is structural subtyping. The relation is given by its rules, and
inclusion is shown to decide it: with enough fuel it comes to an end, whatever the context and
the solution, and it succeeds exactly if the rules allow it. -/
namespace DependentClasses

open Filter

mutual

/-- Structural subtyping of simple types. -/
inductive Simple.Le : Simple → Simple → Prop
  | type : Simple.Le .type .type
  | string : Simple.Le .string .string
  | trivial : Simple.Le .trivial .trivial
  | pi {p : Plicity} {x y : Name} {a b c d : Simple} :
      Simple.Le c a → Simple.Le b d → Simple.Le (.pi p x a b) (.pi p y c d)
  | sigma {x y : Name} {a b c d : Simple} :
      Simple.Le a c → Simple.Le b d → Simple.Le (.sigma x a b) (.sigma y c d)
  | classOf {c d : SimpleClass} : SimpleClass.Covers c d → Simple.Le (.classOf c) (.classOf d)

/-- Each property of the second class occurs in the first at an included type. Where the second
class fulfils it, so does the first, and with the same literal. -/
inductive SimpleClass.Covers : SimpleClass → SimpleClass → Prop
  | nil {c : SimpleClass} : SimpleClass.Covers c .nil
  | declared {c rest : SimpleClass} {label x : Name} {a : Simple} {p : SimpleProperty} :
      (label, p) ∈ c.properties → Simple.Le p.type a → SimpleClass.Covers c rest →
      SimpleClass.Covers c (.declared label x a rest)
  | fulfilled {c rest : SimpleClass} {label x : Name} {l : Literal} {p : SimpleProperty} :
      (label, p) ∈ c.properties → Simple.Le p.type l.type → p.literal = some l →
        SimpleClass.Covers c rest →
      SimpleClass.Covers c (.fulfilled label x l rest)

end

def SimpleProperty.Le (p q : SimpleProperty) : Prop :=
  p.type.Le q.type ∧ ∀ l ∈ q.literal, p.literal = some l

@[simp] theorem SimpleProperty.le_declared {p : SimpleProperty} {a : Simple} :
    p.Le (.declared a) ↔ p.type.Le a := by
  simp [SimpleProperty.Le]

@[simp] theorem SimpleProperty.le_fulfilled {p : SimpleProperty} {l : Literal} :
    p.Le (.fulfilled l) ↔ p.type.Le l.type ∧ p.literal = some l := by
  simp [SimpleProperty.Le]

section

variable {a b a' b' : Simple} {c d : SimpleClass} {p q : Plicity} {x y : Name}

@[simp] theorem Simple.le_pi : (pi p x a b).Le (pi q y a' b') ↔ p = q ∧ a'.Le a ∧ b.Le b' := by
  constructor
  · intro h
    cases h with
    | pi hdomain hcodomain => exact ⟨rfl, hdomain, hcodomain⟩
  · rintro ⟨rfl, hdomain, hcodomain⟩
    exact .pi hdomain hcodomain

@[simp] theorem Simple.le_sigma : (sigma x a b).Le (sigma y a' b') ↔ a.Le a' ∧ b.Le b' := by
  constructor
  · intro h
    cases h with
    | sigma hcar hcdr => exact ⟨hcar, hcdr⟩
  · rintro ⟨hcar, hcdr⟩
    exact .sigma hcar hcdr

@[simp] theorem Simple.le_classOf : (classOf c).Le (classOf d) ↔ c.Covers d := by
  constructor
  · intro h
    cases h with
    | classOf h => exact h
  · exact .classOf

@[simp] theorem SimpleClass.covers_nil : c.Covers .nil := .nil

theorem SimpleClass.covers_declared :
    c.Covers (.declared x y a d) ↔ (∃ p, (x, p) ∈ c.properties ∧ p.Le (.declared a)) ∧
      c.Covers d := by
  constructor
  · intro h
    cases h with
    | declared hp hle hrest => exact ⟨⟨_, hp, SimpleProperty.le_declared.2 hle⟩, hrest⟩
  · rintro ⟨⟨p, hp, hle⟩, hrest⟩
    exact .declared hp (SimpleProperty.le_declared.1 hle) hrest

theorem SimpleClass.covers_fulfilled {l : Literal} :
    c.Covers (.fulfilled x y l d) ↔ (∃ p, (x, p) ∈ c.properties ∧ p.Le (.fulfilled l)) ∧
      c.Covers d := by
  constructor
  · intro h
    cases h with
    | fulfilled hp hle hl hrest => exact ⟨⟨_, hp, SimpleProperty.le_fulfilled.2 ⟨hle, hl⟩⟩, hrest⟩
  · rintro ⟨⟨p, hp, hle⟩, hrest⟩
    obtain ⟨htype, hl⟩ := SimpleProperty.le_fulfilled.1 hle
    exact .fulfilled hp htype hl hrest

/-- A class is covered property by property. -/
theorem SimpleClass.covers_iff {d : SimpleClass} :
    c.Covers d ↔ ∀ q ∈ d.properties, ∃ p, (q.1, p) ∈ c.properties ∧ p.Le q.2 := by
  cases d with
  | nil => simp [SimpleClass.properties]
  | declared k x a d =>
    rw [covers_declared, covers_iff (d := d), SimpleClass.properties, List.forall_mem_cons]
  | fulfilled k x l d =>
    rw [covers_fulfilled, covers_iff (d := d), SimpleClass.properties, List.forall_mem_cons]

theorem SimpleClass.nodup_labels : {c : SimpleClass} → c.Distinct → c.labels.Nodup
  | .nil, _ => List.nodup_nil
  | .declared .., h => List.nodup_cons.2 ⟨h.1, nodup_labels h.2.2⟩
  | .fulfilled .., h => List.nodup_cons.2 ⟨h.1, nodup_labels h.2⟩

/-- A label stands for one property. -/
theorem SimpleClass.property_unique (hc : c.Distinct) {k : Name} {p q : SimpleProperty}
    (hp : (k, p) ∈ c.properties) (hq : (k, q) ∈ c.properties) : p = q :=
  congrArg Prod.snd (List.inj_on_of_nodup_map (nodup_labels hc) hp hq rfl)

theorem SimpleClass.distinct_of_mem :
    {c : SimpleClass} → c.Distinct → ∀ q ∈ c.properties, q.2.type.Distinct
  | .nil, _ => by simp [SimpleClass.properties]
  | .declared .., h => List.forall_mem_cons.2 ⟨h.2.1, distinct_of_mem h.2.2⟩
  | .fulfilled _ _ l _, h => List.forall_mem_cons.2 ⟨by cases l <;> trivial, distinct_of_mem h.2⟩

end

namespace Solver

variable {α β : Type} {x : Solver α} {f : α → Solver β} {s s₁ : Solution} {a : α} {P Q : Prop}

def Refuses (x : Solver α) (s : Solution) : Prop := ∃ f s', x.run.run s = .ok (.error f, s')

/-- The computation comes to an end, and succeeds exactly if `P`. -/
structure Decides (x : Solver Unit) (P : Prop) (s : Solution) : Prop where
  accepts : P → ∃ s', x.Yields s () s'
  refuses : ¬ P → x.Refuses s

namespace Refuses

theorem bind (h : x.Refuses s) (f : α → Solver β) : Refuses (x >>= f) s := by
  obtain ⟨e, s', h⟩ := h
  exact ⟨e, s', Eval.bind_eq_ok.2 ⟨_, h, rfl⟩⟩

theorem after (h : x.Yields s a s₁) (h' : (f a).Refuses s₁) : Refuses (x >>= f) s := by
  obtain ⟨e, s', h'⟩ := h'
  exact ⟨e, s', Eval.bind_eq_ok.2 ⟨_, h, h'⟩⟩

theorem throw (e : Failure) (s : Solution) : Refuses (throw e : Solver α) s := ⟨e, s, rfl⟩

theorem refuse (c : Cause) (s : Solution) : Refuses (refuse c : Solver α) s := throw _ s

theorem within (h : x.Refuses s) (frame : Frame) : (Solver.within frame x).Refuses s := by
  obtain ⟨e, s', h⟩ := h
  refine ⟨e.within frame, s', ?_⟩
  change (Except.mapError (Failure.within frame) <$> x.run).run s = _
  rw [StateT.run_map, h]
  rfl

/-- A handler that refuses does not save what is refused. -/
theorem tryCatch (h : x.Refuses s) {handler : Failure → Solver α}
    (hh : ∀ e s, (handler e).Refuses s) :
    Refuses (tryCatch x handler) s := by
  obtain ⟨e, s', h⟩ := h
  obtain ⟨e', s'', h'⟩ := hh e s'
  exact ⟨e', s'', Eval.bind_eq_ok.2 ⟨_, h, h'⟩⟩

end Refuses

namespace Decides

variable {x y : Solver Unit}

theorem congr (h : x.Decides P s) (hPQ : P ↔ Q) : x.Decides Q s :=
  ⟨fun hQ => h.accepts (hPQ.2 hQ), fun hQ => h.refuses fun hP => hQ (hPQ.1 hP)⟩

theorem of_yields {s' : Solution} (h : x.Yields s () s') (hP : P) : x.Decides P s :=
  ⟨fun _ => ⟨s', h⟩, fun hP' => absurd hP hP'⟩

theorem pure (h : P) (s : Solution) : Decides (pure ()) P s :=
  of_yields (yields_pure.2 ⟨rfl, rfl⟩) h

theorem of_refuses (h : x.Refuses s) (hP : ¬ P) : x.Decides P s :=
  ⟨fun h' => absurd h' hP, fun _ => h⟩

theorem after {x : Solver α} {f : α → Solver Unit} (h : x.Yields s a s₁) (h' : (f a).Decides P s₁) :
    Decides (x >>= f) P s where
  accepts hP := by
    obtain ⟨s', hs'⟩ := h'.accepts hP
    exact ⟨s', yields_bind.2 ⟨a, s₁, h, hs'⟩⟩
  refuses hP := .after h (h'.refuses hP)

theorem and (h : x.Decides P s) (h' : ∀ s', y.Decides Q s') :
    Decides (x >>= fun _ => y) (P ∧ Q) s := by
  by_cases hP : P
  · obtain ⟨s₁, h₁⟩ := h.accepts hP
    exact after h₁ ((h' s₁).congr (by simp [hP]))
  · exact of_refuses ((h.refuses hP).bind _) fun hPQ => hP hPQ.1

theorem within (h : x.Decides P s) (frame : Frame) : (Solver.within frame x).Decides P s where
  accepts hP := by
    obtain ⟨s', hs'⟩ := h.accepts hP
    exact ⟨s', yields_within.2 hs'⟩
  refuses hP := (h.refuses hP).within frame

theorem tryCatch (h : x.Decides P s) {handler : Failure → Solver Unit}
    (hh : ∀ e s, (handler e).Refuses s) :
    Decides (tryCatch x handler) P s where
  accepts hP := by
    obtain ⟨s', hs'⟩ := h.accepts hP
    exact ⟨s', Eval.bind_eq_ok.2 ⟨_, hs', rfl⟩⟩
  refuses hP := (h.refuses hP).tryCatch hh

/-- A traversal decides what each of its steps decides. What is traversed stands for `zs`. -/
theorem forM {γ δ : Type} {g : γ → Solver Unit} {R : γ → δ → Prop} {P : δ → Prop}
    {ys : List γ} {zs : List δ} (hyz : List.Forall₂ R ys zs)
    (h : ∀ y z, R y z → z ∈ zs → ∀ s, (g y).Decides (P z) s) :
    ∀ s, Decides (ys.forM g) (∀ z ∈ zs, P z) s := by
  induction hyz with
  | nil => exact fun s => .pure (by simp) s
  | cons hR _ ih =>
    intro s
    have hrest := ih fun y z hR hz => h y z hR (List.mem_cons_of_mem _ hz)
    exact ((h _ _ hR List.mem_cons_self s).and hrest).congr List.forall_mem_cons.symm

end Decides

end Solver

namespace SimpleClass

def onward (label : Name) : SimpleClass → SimpleClass
  | .nil => .nil
  | .declared k x a rest => if k = label then .declared k x a rest else rest.onward label
  | .fulfilled k x l rest => if k = label then .fulfilled k x l rest else rest.onward label

theorem labels_value (c : SimpleClass) :
    ∀ᶠ n in atTop, ∀ env, (c.value env).labels n = .ok c.labels := by
  cases c with
  | nil => exact eventually_of_succ (.of_forall fun _ _ => rfl)
  | declared k x a rest =>
    refine eventually_of_succ ?_
    filter_upwards [rest.applyChain_term, rest.labels_value] with n happly hrest env
    exact Eval.bind_eq_ok.2 ⟨_, happly _ _ _, Eval.bind_eq_ok.2 ⟨_, hrest _, rfl⟩⟩
  | fulfilled k x l rest =>
    refine eventually_of_succ ?_
    filter_upwards [rest.labels_value] with n hrest env
    exact Eval.bind_eq_ok.2 ⟨_, hrest _, rfl⟩

theorem seek_value (c : SimpleClass) : ∀ᶠ n in atTop, ∀ env s ctx label,
    ∃ ctx' env', (c.value env).seek n s ctx label = .ok (ctx', (c.onward label).value env') := by
  cases c with
  | nil => exact eventually_of_succ (.of_forall fun _ env s ctx label => ⟨ctx, env, rfl⟩)
  | declared k x a rest =>
    refine eventually_of_succ ?_
    filter_upwards [rest.applyChain_term, rest.seek_value] with n happly hrest env s ctx label
    rw [value, Chain.seek, onward]
    split
    · exact ⟨ctx, env, rfl⟩
    · obtain ⟨ctx', env', h⟩ := hrest _ s (s.witness ctx x (a.value env)).1 label
      exact ⟨ctx', env', Eval.bind_eq_ok.2 ⟨_, happly _ _ _, h⟩⟩
  | fulfilled k x l rest =>
    refine eventually_of_succ ?_
    filter_upwards [rest.seek_value] with n hrest env s ctx label
    rw [value, Chain.seek, onward]
    split
    · exact ⟨ctx, env, rfl⟩
    · exact hrest _ s ctx label

/-- What a class has is what its simple class lists. -/
def Presents (p : Name × Property) (q : Name × SimpleProperty) : Prop :=
  p.1 = q.1 ∧ (∃ env, p.2.type = q.2.type.value env) ∧ p.2.value = q.2.literal.map Literal.value

theorem Presents.exists_eq {k k' : Name} {P : Property} {p : SimpleProperty}
    (h : Presents (k, P) (k', p)) :
    ∃ env, P = ⟨p.type.value env, p.literal.map Literal.value⟩ := by
  obtain ⟨-, ⟨env, htype⟩, hvalue⟩ := h
  obtain ⟨a, v⟩ := P
  cases htype
  cases hvalue
  exact ⟨env, rfl⟩

theorem properties_value (c : SimpleClass) : ∀ᶠ n in atTop, ∀ env images,
    (∀ k ∈ c.labels, ∃ x, images.lookup k = some x) →
      ∃ ps, ((c.value env).properties n images).Yields ps ∧
      List.Forall₂ Presents ps c.properties := by
  cases c with
  | nil => exact eventually_of_succ (.of_forall fun _ _ _ _ => ⟨[], rfl, .nil⟩)
  | declared k x a rest =>
    refine eventually_of_succ ?_
    filter_upwards [rest.applyChain_term, rest.properties_value] with n happly hrest
      env images himages
    obtain ⟨⟨y, hy⟩, himages⟩ := List.forall_mem_cons.1 himages
    obtain ⟨ps, hps, hpresents⟩ := hrest ((x, .variable (a.value env) y) :: env) images himages
    refine ⟨(k, ⟨a.value env, none⟩) :: ps, ?_, .cons ⟨rfl, ⟨env, rfl⟩, rfl⟩ hpresents⟩
    simp only [value, Chain.properties, Verdict.yields_bind, Verdict.yields_lift,
      Verdict.yields_pure]
    exact ⟨y, by simp [Property.image, hy], _, happly _ _ _, ps, hps, rfl⟩
  | fulfilled k x l rest =>
    refine eventually_of_succ ?_
    filter_upwards [rest.properties_value] with n hrest env images himages
    obtain ⟨-, himages⟩ := List.forall_mem_cons.1 himages
    obtain ⟨ps, hps, hpresents⟩ := hrest ((x, l.value) :: env) images himages
    refine ⟨(k, ⟨l.typeValue, some l.value⟩) :: ps, ?_,
      .cons ⟨rfl, ⟨env, (l.value_type env).symm⟩, rfl⟩ hpresents⟩
    simp only [value, Chain.properties, Verdict.yields_bind, Verdict.yields_pure]
    exact ⟨ps, hps, rfl⟩

end SimpleClass

theorem Chain.ascending_iff_pairwise (is : List Nat) : ascending is ↔ is.Pairwise (· < ·) := by
  rw [← List.isChain_iff_pairwise]
  fun_induction ascending is with
  | case1 i j rest ih => simp [List.isChain_cons_cons, ih]
  | case2 is hshort =>
    match is with
    | [] => simp
    | [i] => simp
    | i :: j :: rest => exact absurd rfl (hshort i j rest)

/-- Labels that all occur, at ascending places, occur in the same order. -/
theorem Chain.sublist_of_ascending {among labels : List Name} (hall : ∀ k ∈ labels, k ∈ among)
    (h : ascending (places among labels)) : labels.Sublist among := by
  rw [ascending_iff_pairwise] at h
  -- the places that are left lie beyond those that have been passed
  have hdrop : ∀ j, (∀ i ∈ places among labels, j ≤ i) → labels.Sublist (among.drop j) := by
    induction labels with
    | nil => exact fun j _ => List.nil_sublist _
    | cons k labels ih =>
      intro j hj
      obtain ⟨i, hi⟩ : ∃ i, among.findIdx? (· = k) = some i := by
        have hk := hall k List.mem_cons_self
        exact Option.isSome_iff_exists.1 (by simpa using hk)
      have hplaces : places among (k :: labels) = i :: places among labels := by simp [places, hi]
      rw [hplaces] at h hj
      obtain ⟨hbeyond, h⟩ := List.pairwise_cons.1 h
      have hrest := ih (fun k hk => hall k (List.mem_cons_of_mem _ hk)) h (i + 1) hbeyond
      obtain ⟨hlt, hk, -⟩ := List.findIdx?_eq_some_iff_getElem.1 hi
      have hhere : among.drop i = k :: among.drop (i + 1) := by
        rw [List.drop_eq_getElem_cons hlt, of_decide_eq_true hk]
      calc (k :: labels).Sublist (among.drop i) := hhere ▸ hrest.cons_cons k
        List.Sublist _ (among.drop j) := List.drop_sublist_drop_left _ (hj i List.mem_cons_self)
  simpa using hdrop 0 (by simp)
section

variable {n : Nat} {ctx : Context} {s : Solution}

theorem Solver.cannotUnify_refuses {l r : Value} {t u : Term} (hl : s.reify n ctx l = .ok t)
    (hr : s.reify n ctx r = .ok u) : (Solver.cannotUnify n ctx l r : Solver Unit).Refuses s :=
  .after (yields_reify.2 ⟨hl, rfl⟩) (.after (yields_reify.2 ⟨hr, rfl⟩) (.refuse _ _))

end

/-- A fresh pattern variable takes any literal. -/
theorem Literal.unify_fresh (l : Literal) :
    ∀ᶠ n in atTop, ∀ (ctx : Context) (x : Name) (s : Solution), ∃ s',
    (unify n ctx l.typeValue (.variable l.typeValue x) l.value).Yields
    (s.create x l.typeValue ctx.names) () s' := by
  refine eventually_of_succ ?_
  filter_upwards [l.type.force_value, l.force_value, eventually_gt_atTop 0,
    l.reify_value, l.eval_term] with n htype hvalue hn hreify heval ctx x s
  have hfind : (s.create x l.typeValue ctx.names).find x = some
      (.unsolved l.typeValue ctx.names) := by
    simp [Solution.find_create]
  generalize s.create x l.typeValue ctx.names = s₁ at hfind ⊢
  have hvariable : (Value.variable l.typeValue x).force n s₁ = .ok (.variable l.typeValue x) := by
    obtain ⟨n, rfl⟩ := Nat.exists_eq_add_one.2 hn
    simp [Value.force, Value.variable, Neutral.resume, hfind]
  have hspine : (Value.variable l.typeValue x).patternSpine s₁ = some ⟨x, []⟩ := by
    simp [Value.variable, Value.patternSpine, Neutral.patternSpine, Solution.isUnsolved, hfind]
  have hsolve : (PatternSpine.solve n s₁ ctx ⟨x, []⟩ l.value).Yields (s₁.bind x l.value) := by
    unfold PatternSpine.solve
    simp only [Verdict.yields_bind, Verdict.yields_lift]
    refine ⟨[], rfl, l.term, hreify _ _, ?_⟩
    simp only [hfind, Verdict.yields_bind, Verdict.yields_lift, Verdict.yields_pure]
    have hfree : l.term.freeNames = [] := by cases l <;> rfl
    refine ⟨(), ?_, l.term, rfl, l.value, heval _, rfl⟩
    rw [hfree, Listing.arrange_nil, PatternSpine.checkScope, Verdict.yields_pure]
  refine ⟨s₁.bind x l.value, ?_⟩
  unfold unify
  refine Solver.yields_bind.2 ⟨_, _, Solver.yields_force.2 ⟨by simpa using htype [] s₁, rfl⟩, ?_⟩
  refine Solver.yields_bind.2 ⟨_, _, Solver.yields_force.2 ⟨hvariable, rfl⟩, ?_⟩
  refine Solver.yields_bind.2 ⟨_, _, Solver.yields_force.2 ⟨hvalue s₁, rfl⟩, ?_⟩
  refine Solver.yields_bind.2 ⟨_, _, Solver.yields_get.2 ⟨rfl, rfl⟩, ?_⟩
  have hnone : l.value.patternSpine s₁ = none := by cases l <;> rfl
  rw [hspine, hnone]
  exact Solver.yields_bind.2 ⟨_, _, Solver.yields_judging.2 ⟨hsolve, rfl⟩, Solver.yields_set.2 rfl⟩

theorem Literal.unify_decides (l r : Literal) (A : Simple) : ∀ᶠ n in atTop, ∀ ctx env s,
    (unify n ctx (A.value env) l.value r.value).Decides (l = r) s := by
  refine eventually_of_succ (eventually_of_succ ?_)
  filter_upwards [(tendsto_add_atTop_nat 1).eventually A.force_value,
    (tendsto_add_atTop_nat 1).eventually l.force_value,
    (tendsto_add_atTop_nat 1).eventually r.force_value,
    l.reify_value, r.reify_value] with n hA hl hr hl' hr' ctx env s
  have hrefuses : (Solver.cannotUnify n ctx l.value r.value : Solver Unit).Refuses s :=
    Solver.cannotUnify_refuses (hl' s _) (hr' s _)
  unfold unify
  refine .after (Solver.yields_force.2 ⟨hA env s, rfl⟩) (.after (Solver.yields_force.2 ⟨hl s, rfl⟩)
    (.after (Solver.yields_force.2 ⟨hr s, rfl⟩) (.after (Solver.yields_get.2 ⟨rfl, rfl⟩) ?_)))
  cases l with
  | quote t =>
    cases r with
    | quote u =>
      change Solver.Decides (if t = u then pure ()
        else Solver.cannotUnify n ctx (.quote t) (.quote u)) _ s
      split
      · next heq => exact .pure (by rw [heq]) s
      · next hne => exact .of_refuses hrefuses (by simpa using hne)
    | sole => exact .of_refuses hrefuses (by simp)
  | sole =>
    cases r with
    | quote u => exact .of_refuses hrefuses (by simp)
    | sole => exact .pure rfl s

/-- Types of unlike shapes are not equal. -/
theorem includeEqual_decides {A B : Simple}
    (h : ∀ used used', (A.renamed used).term.alphaEquivalent (B.renamed used').term ↔ A.Le B) :
    ∀ᶠ n in atTop, ∀ ctx env env' s, (includeEqual n ctx (A.value env) (B.value env')).Decides
      (A.Le B) s := by
  filter_upwards [A.reify_value, B.reify_value] with n hA hB ctx env env' s
  unfold includeEqual
  refine .after (Solver.yields_reify.2 ⟨hA env s _, rfl⟩)
    (.after (Solver.yields_reify.2 ⟨hB env' s _, rfl⟩) ?_)
  split
  · next heq => exact .pure ((h _ _).1 heq) s
  · next hne =>
    refine .after (Solver.yields_get.2 ⟨rfl, rfl⟩) ?_
    rw [Simple.unsolvedIn_term, Simple.unsolvedIn_term]
    exact .of_refuses (.refuse _ s) fun hle => hne ((h _ _).2 hle)

/-- Inclusion of the values of two simple types comes to an end, and decides whether one is a
subtype of the other. -/
def InclusionDecides (A B : Simple) : Prop :=
  ∀ᶠ n in atTop, ∀ ctx env env' s, (inclusion n ctx (A.value env) (B.value env')).Decides (A.Le B) s

/-- Inclusion is decided by the forms of the types. -/
theorem InclusionDecides.of_forms {A B : Simple}
    (h : ∀ᶠ n in atTop,
      ∀ ctx env env' s, (includeForms n ctx (A.value env) (B.value env')).Decides (A.Le B) s) :
    InclusionDecides A B := by
  refine eventually_of_succ ?_
  filter_upwards [h, A.force_value, B.force_value, A.reify_value, B.reify_value]
    with n hforms hA hB hA' hB' ctx env env' s
  unfold inclusion
  refine .after (Solver.yields_force.2 ⟨hA env s, rfl⟩)
    (.after (Solver.yields_force.2 ⟨hB env' s, rfl⟩) ?_)
  refine (hforms ctx env env' s).tryCatch fun e s => ?_
  exact .after (Solver.yields_reify.2 ⟨hA' env s _, rfl⟩)
    (.after (Solver.yields_reify.2 ⟨hB' env' s _, rfl⟩) (.throw _ s))

/-- No pattern variable stands at the head of a simple type. -/
theorem includeForms_decides {A B : Simple} {P : Prop} {n : Nat} {ctx : Context}
    {env env' : Environment} {s : Solution} {x : Solver Unit} (hx : x.Decides P s)
    (h : (includeForms (n + 1) ctx (A.value env) (B.value env')) = do
      let s ← get
      if s.isPatternHeaded (A.value env) || s.isPatternHeaded (B.value env') then
        unify n ctx .type (A.value env) (B.value env')
      else x) :
    (includeForms (n + 1) ctx (A.value env) (B.value env')).Decides P s := by
  rw [h]
  refine .after (Solver.yields_get.2 ⟨rfl, rfl⟩) ?_
  rw [Simple.isPatternHeaded_value, Simple.isPatternHeaded_value]
  exact hx

theorem InclusionDecides.pi {p : Plicity} {x y : Name} {a b c d : Simple}
    (hdomain : InclusionDecides c a) (hcodomain : InclusionDecides b d) :
    InclusionDecides (.pi p x a b) (.pi p y c d) := by
  refine .of_forms (eventually_of_succ ?_)
  filter_upwards [hdomain, hcodomain, b.apply_term, d.apply_term] with n hdomain hcodomain hb
    hd ctx env env' s
  refine includeForms_decides ?_ rfl
  simp only [Simple.value, ↓reduceIte, Simple.le_pi, true_and]
  refine (hdomain ctx env' env s).and fun s' => ?_
  refine .after (Solver.yields_witness.2 ⟨rfl, rfl⟩) ?_
  exact .after (Solver.yields_lift.2 ⟨hb _ _ _, rfl⟩)
    (.after (Solver.yields_lift.2 ⟨hd _ _ _, rfl⟩) (hcodomain _ _ _ s'))

theorem InclusionDecides.sigma {x y : Name} {a b c d : Simple} (hcar : InclusionDecides a c)
    (hcdr : InclusionDecides b d) :
    InclusionDecides (.sigma x a b) (.sigma y c d) := by
  refine .of_forms (eventually_of_succ ?_)
  filter_upwards [hcar, hcdr, b.apply_term, d.apply_term] with n hcar hcdr hb hd ctx env env' s
  refine includeForms_decides ?_ rfl
  simp only [Simple.value, Simple.le_sigma]
  refine (hcar ctx env env' s).and fun s' => ?_
  refine .after (Solver.yields_witness.2 ⟨rfl, rfl⟩) ?_
  exact .after (Solver.yields_lift.2 ⟨hb _ _ _, rfl⟩)
    (.after (Solver.yields_lift.2 ⟨hd _ _ _, rfl⟩) (hcdr _ _ _ s'))

inductive Simple.Shape
  | type
  | string
  | trivial
  | pi (p : Plicity)
  | sigma
  | classOf

namespace Simple

def shape : Simple → Shape
  | .type => .type
  | .string => .string
  | .trivial => .trivial
  | .pi p _ _ _ => .pi p
  | .sigma _ _ _ => .sigma
  | .classOf _ => .classOf

theorem Le.shape_eq {A B : Simple} (h : A.Le B) : A.shape = B.shape := by
  cases h <;> rfl

@[simp] theorem shape_renamed (A : Simple) (used : List Name) :
    (A.renamed used).shape = A.shape := by
  cases A <;> rfl

theorem shape_eq_of_alphaEquivalent {A B : Simple} (h : A.term.alphaEquivalent B.term) :
    A.shape = B.shape := by
  unfold Term.alphaEquivalent at h
  cases A with
  | type =>
    cases B with
    | type => rfl
    | classOf c => cases c <;> simp [term, SimpleClass.term, Term.alphaIn] at h
    | _ => simp [term, Term.alphaIn] at h
  | string =>
    cases B with
    | string => rfl
    | classOf c => cases c <;> simp [term, SimpleClass.term, Term.alphaIn] at h
    | _ => simp [term, Term.alphaIn] at h
  | trivial =>
    cases B with
    | trivial => rfl
    | classOf c => cases c <;> simp [term, SimpleClass.term, Term.alphaIn] at h
    | _ => simp [term, Term.alphaIn] at h
  | pi p x a b =>
    cases B with
    | pi => simp_all [term, Term.alphaIn, shape]
    | classOf c => cases c <;> simp [term, SimpleClass.term, Term.alphaIn] at h
    | _ => simp [term, Term.alphaIn] at h
  | sigma x a b =>
    cases B with
    | sigma => rfl
    | classOf c => cases c <;> simp [term, SimpleClass.term, Term.alphaIn] at h
    | _ => simp [term, Term.alphaIn] at h
  | classOf c =>
    cases B with
    | classOf d => rfl
    | _ => cases c <;> simp [term, SimpleClass.term, Term.alphaIn] at h

end Simple

/-- Types with nothing below their formers, or with different formers, have to be equal. -/
theorem InclusionDecides.of_includeEqual {A B : Simple}
    (hforms : ∀ n ctx env env', includeForms (n + 1) ctx (A.value env) (B.value env') = do
      let s ← get
      if s.isPatternHeaded (A.value env) || s.isPatternHeaded (B.value env') then
        unify n ctx .type (A.value env) (B.value env')
      else includeEqual n ctx (A.value env) (B.value env'))
    (h : ∀ used used', (A.renamed used).term.alphaEquivalent (B.renamed used').term ↔ A.Le B) :
    InclusionDecides A B := by
  refine .of_forms (eventually_of_succ ?_)
  filter_upwards [includeEqual_decides h] with n hequal ctx env env' s
  exact includeForms_decides (hequal ctx env env' s) (hforms n ctx env env')

theorem InclusionDecides.of_shape_ne {A B : Simple} (h : A.shape ≠ B.shape) :
    InclusionDecides A B := by
  refine .of_includeEqual (fun n ctx env env' => ?_) fun used used' =>
    ⟨fun heq => ?_, fun hle => ?_⟩
  · cases A with
    | type | string | trivial => cases B <;> rfl
    | pi p x a b =>
      cases B with
      | pi q y c d =>
        have hne : p ≠ q := fun heq => h (by rw [Simple.shape, Simple.shape, heq])
        simp only [includeForms, Simple.value, if_neg hne]
        rfl
      | _ => rfl
    | sigma x a b =>
      cases B with
      | sigma => exact absurd rfl h
      | _ => rfl
    | classOf c =>
      cases B with
      | classOf => exact absurd rfl h
      | _ => rfl
  · exact absurd (by simpa using Simple.shape_eq_of_alphaEquivalent heq) h
  · exact absurd hle.shape_eq h

theorem InclusionDecides.type : InclusionDecides .type .type :=
  .of_includeEqual (fun _ _ _ _ => rfl) fun _ _ => ⟨fun _ => .type, fun _ => rfl⟩

theorem InclusionDecides.string : InclusionDecides .string .string :=
  .of_includeEqual (fun _ _ _ _ => rfl) fun _ _ => ⟨fun _ => .string, fun _ => rfl⟩

theorem InclusionDecides.trivial : InclusionDecides .trivial .trivial :=
  .of_includeEqual (fun _ _ _ _ => rfl) fun _ _ => ⟨fun _ => .trivial, fun _ => rfl⟩

/-- A property is decided by its type and then by what fulfils it. -/
theorem includeProperty_decides {p q : SimpleProperty} (h : InclusionDecides p.type q.type) :
    ∀ᶠ n in atTop, ∀ ctx images label P Q s, (∃ x, images.lookup label = some x) →
      SimpleClass.Presents (label, P) (label, p) → SimpleClass.Presents (label, Q) (label, q) →
      (includeProperty n ctx images label P Q).Decides (p.Le q) s := by
  refine eventually_of_succ ?_
  cases p with
  | declared a =>
    cases q with
    | declared b =>
      filter_upwards [h] with n htype ctx images label P Q s himage hP hQ
      obtain ⟨env, rfl⟩ := hP.exists_eq
      obtain ⟨env', rfl⟩ := hQ.exists_eq
      exact (htype ctx env env' s).and fun s' => .pure (by simp) s'
    | fulfilled m =>
      filter_upwards [h] with n htype ctx images label P Q s himage hP hQ
      obtain ⟨env, rfl⟩ := hP.exists_eq
      obtain ⟨env', rfl⟩ := hQ.exists_eq
      exact (htype ctx env env' s).and fun s' => .of_refuses (.refuse _ s') (by simp)
  | fulfilled l =>
    cases q with
    | declared b =>
      filter_upwards [h, l.unify_fresh] with n htype hfresh ctx images label P Q s himage hP hQ
      obtain ⟨env, rfl⟩ := hP.exists_eq
      obtain ⟨env', rfl⟩ := hQ.exists_eq
      obtain ⟨x, hx⟩ := himage
      refine (htype ctx env env' s).and fun s' => ?_
      obtain ⟨s₁, hs₁⟩ := hfresh ctx x s'
      rw [← l.value_type env] at hs₁
      exact .after (Solver.yields_judging.2 ⟨by simp [Property.image, hx], rfl⟩)
        (.after (Solver.yields_create.2 ⟨rfl, rfl⟩) (.of_yields hs₁ (by simp)))
    | fulfilled m =>
      filter_upwards [h, m.unify_decides l m.type] with n htype hunify ctx images label P
        Q s himage hP hQ
      obtain ⟨env, rfl⟩ := hP.exists_eq
      obtain ⟨env', rfl⟩ := hQ.exists_eq
      exact (htype ctx env env' s).and fun s' => (hunify ctx env' s').congr (by simp [eq_comm])

namespace SimpleClass

def cons (label x : Name) : SimpleProperty → SimpleClass → SimpleClass
  | .declared a, rest => .declared label x a rest
  | .fulfilled l, rest => .fulfilled label x l rest

@[simp] theorem properties_cons (k x : Name) (p : SimpleProperty) (c : SimpleClass) :
    (cons k x p c).properties = (k, p) :: c.properties := by
  cases p <;> rfl

@[simp] theorem labels_cons (k x : Name) (p : SimpleProperty) (c : SimpleClass) :
    (cons k x p c).labels = k :: c.labels := by
  cases p <;> rfl

/-- A label that occurs before others is found, and the others come after it. -/
theorem onward_of_sublist {label : Name} {ks : List Name} :
    {c : SimpleClass} → c.Distinct → (label :: ks).Sublist c.labels →
      ∃ x p rest, c.onward label = cons label x p rest ∧
        (label, p) :: rest.properties <:+ c.properties ∧
        ks.Sublist rest.labels ∧ rest.Distinct
  | .nil, _, h => by cases h
  | .declared k x a rest, hc, h => by
    rw [onward]
    split
    · next heq =>
      subst heq
      exact ⟨x, .declared a, rest, rfl, List.suffix_rfl, List.cons_sublist_cons.1 h, hc.2.2⟩
    · next hne =>
      obtain ⟨y, p, c, honward, hsuffix, hrest⟩ :=
        onward_of_sublist hc.2.2 (h.of_cons_of_ne (Ne.symm hne))
      exact ⟨y, p, c, honward, hsuffix.trans (List.suffix_cons _ _), hrest⟩
  | .fulfilled k x l rest, hc, h => by
    rw [onward]
    split
    · next heq =>
      subst heq
      exact ⟨x, .fulfilled l, rest, rfl, List.suffix_rfl, List.cons_sublist_cons.1 h, hc.2⟩
    · next hne =>
      obtain ⟨y, p, c, honward, hsuffix, hrest⟩ :=
        onward_of_sublist hc.2 (h.of_cons_of_ne (Ne.symm hne))
      exact ⟨y, p, c, honward, hsuffix.trans (List.suffix_cons _ _), hrest⟩

/-- Properties that occur in the rest of a class need not be looked for in the whole of it. -/
theorem covers_of_suffix {c c' d : SimpleClass} (hc : c.Distinct)
    (hsuffix : c'.properties <:+ c.properties) (hlabels : d.labels ⊆ c'.labels) :
    c.Covers d ↔ c'.Covers d := by
  rw [covers_iff, covers_iff]
  refine forall₂_congr fun q hq => exists_congr fun p => and_congr_left fun _ => ?_
  refine ⟨fun hp => ?_, fun hp => hsuffix.subset hp⟩
  obtain ⟨⟨k, p'⟩, hp', rfl⟩ := List.mem_map.1 (hlabels (List.mem_map_of_mem hq))
  rwa [property_unique hc hp (hsuffix.subset hp')]

/-- What the first property of the second class asks for, and what the others do. -/
theorem covers_cons_iff {c c' d : SimpleClass} {k x : Name} {p q : SimpleProperty} (hc : c.Distinct)
    (hsuffix : (k, p) :: c'.properties <:+ c.properties) (hlabels : d.labels ⊆ c'.labels) :
    c.Covers (cons k x q d) ↔ p.Le q ∧ c'.Covers d := by
  have hfirst : (∃ p, (k, p) ∈ c.properties ∧ p.Le q) ↔ p.Le q := by
    have hp : (k, p) ∈ c.properties := hsuffix.subset List.mem_cons_self
    refine ⟨fun ⟨p', hp', hle⟩ => ?_, fun hle => ⟨p, hp, hle⟩⟩
    rwa [property_unique hc hp hp']
  rw [← covers_of_suffix hc ((List.suffix_cons _ _).trans hsuffix) hlabels, ← hfirst]
  cases q with
  | declared a => exact covers_declared
  | fulfilled l => exact covers_fulfilled

end SimpleClass

def PropertiesDecide (c d : SimpleClass) : Prop :=
  ∀ p ∈ c.properties, ∀ q ∈ d.properties, InclusionDecides p.2.type q.2.type

/-- Walking along a class decides whether it is covered by one that has its labels in the same
order. -/
def InStepDecides (d : SimpleClass) : Prop :=
  ∀ c : SimpleClass, c.Distinct → d.labels.Sublist c.labels → PropertiesDecide c d →
    ∀ᶠ n in atTop,
    ∀ ctx env env' s, (includeInStep n ctx (c.value env) (d.value env')).Decides (c.Covers d) s

theorem InStepDecides.cons {d : SimpleClass} (ih : InStepDecides d) (k y : Name)
    (q : SimpleProperty) :
    InStepDecides (.cons k y q d) := by
  intro c hc hsub htypes
  rw [SimpleClass.labels_cons] at hsub
  obtain ⟨x, p, c', honward, hsuffix, hsub', hc'⟩ := SimpleClass.onward_of_sublist hc hsub
  have hp := hsuffix.subset List.mem_cons_self
  have hsuffix' := (List.suffix_cons _ _).trans hsuffix
  unfold PropertiesDecide at htypes
  simp only [SimpleClass.properties_cons] at htypes
  have htype := htypes _ hp _ List.mem_cons_self
  have hrest :=
    ih c' hc' hsub' fun p hp q hq => htypes p (hsuffix'.subset hp) q (List.mem_cons_of_mem _ hq)
  have hcovers := SimpleClass.covers_cons_iff (x := y) (q := q) hc hsuffix hsub'.subset
  refine eventually_of_succ ?_
  cases q with
  | declared a =>
    cases p with
    | declared b =>
      filter_upwards [c.seek_value, htype, c'.applyChain_term, d.applyChain_term, hrest]
        with n hseek htype happly' happly hrest ctx env env' s
      obtain ⟨inner, env₁, hseek⟩ := hseek env s ctx k
      rw [SimpleClass.cons, SimpleClass.value, includeInStep, includeNext]
      refine .congr (.after (Solver.yields_reading.2 ⟨hseek, rfl⟩) ?_) hcovers.symm
      simp only [honward, SimpleClass.cons, SimpleClass.value, SimpleProperty.le_declared]
      refine ((htype _ _ _ s).within _).and fun s' => ?_
      refine .after (Solver.yields_witness.2 ⟨rfl, rfl⟩) ?_
      exact .after (Solver.yields_lift.2 ⟨happly' _ _ _, rfl⟩)
        (.after (Solver.yields_lift.2 ⟨happly _ _ _, rfl⟩) (hrest _ _ _ s'))
    | fulfilled l =>
      filter_upwards [c.seek_value, htype, l.unify_fresh, d.applyChain_term, hrest]
        with n hseek htype hfresh happly hrest ctx env env' s
      obtain ⟨inner, env₁, hseek⟩ := hseek env s ctx k
      rw [SimpleClass.cons, SimpleClass.value, includeInStep, includeNext]
      refine .congr (.after (Solver.yields_reading.2 ⟨hseek, rfl⟩) ?_) hcovers.symm
      simp only [honward, SimpleClass.cons, SimpleClass.value, SimpleProperty.le_declared]
      rw [← l.value_type env₁]
      refine ((htype _ _ _ s).within _).and fun s' => ?_
      obtain ⟨s₁, hs₁⟩ := hfresh inner (s'.freshName inner k) s'
      refine .after (Solver.yields_freshName.2 ⟨rfl, rfl⟩)
        (.after (Solver.yields_create.2 ⟨rfl, rfl⟩) ?_)
      rw [l.value_type]
      exact .after (Solver.yields_within.2 hs₁)
        (.after (Solver.yields_lift.2 ⟨happly _ _ _, rfl⟩) (hrest _ _ _ s₁))
  | fulfilled m =>
    cases p with
    | declared b =>
      filter_upwards [c.seek_value] with n hseek ctx env env' s
      obtain ⟨inner, env₁, hseek⟩ := hseek env s ctx k
      rw [SimpleClass.cons, SimpleClass.value, includeInStep, includeNext]
      refine .congr (.after (Solver.yields_reading.2 ⟨hseek, rfl⟩) ?_) hcovers.symm
      simp only [honward, SimpleClass.cons, SimpleClass.value, SimpleProperty.le_fulfilled]
      exact .of_refuses (.refuse _ s) (by simp)
    | fulfilled l =>
      filter_upwards [c.seek_value, htype, m.unify_decides l l.type, hrest]
        with n hseek htype hunify hrest ctx env env' s
      obtain ⟨inner, env₁, hseek⟩ := hseek env s ctx k
      rw [SimpleClass.cons, SimpleClass.value, includeInStep, includeNext]
      refine .congr (.after (Solver.yields_reading.2 ⟨hseek, rfl⟩) ?_) hcovers.symm
      simp only [honward, SimpleClass.cons, SimpleClass.value, SimpleProperty.le_fulfilled]
      rw [← l.value_type env₁, ← m.value_type env', SimpleProperty.literal_fulfilled,
        Option.some_inj, eq_comm]
      exact (((htype _ _ _ s).and fun s' => hunify _ _ s').within _).and fun s' => hrest _ _ _ s'

theorem includeInStep_decides (d : SimpleClass) : InStepDecides d := by
  cases d with
  | nil => exact fun _ _ _ _ => eventually_of_succ (.of_forall fun _ _ _ _ s => .pure .nil s)
  | declared k y a d => exact (includeInStep_decides d).cons k y (.declared a)
  | fulfilled k y l d => exact (includeInStep_decides d).cons k y (.fulfilled l)

theorem SimpleClass.labels_subset_of_covers {c d : SimpleClass} (h : c.Covers d) :
    d.labels ⊆ c.labels := by
  intro k hk
  obtain ⟨q, hq, rfl⟩ := List.mem_map.1 hk
  obtain ⟨p, hp, -⟩ := covers_iff.1 h q hq
  exact List.mem_map.2 ⟨_, hp, rfl⟩

theorem includeOrdered_decides {c d : SimpleClass} (hc : c.Distinct) (htypes : PropertiesDecide c d)
    (hordered : Chain.ascending (Chain.places c.labels d.labels)) :
    ∀ᶠ n in atTop, ∀ ctx env env' s, (includeOrdered n ctx (c.value env) (d.value env')).Decides
      (c.Covers d) s := by
  have hmissing : (d.labels.filter (· ∉ c.labels)).isEmpty ↔ d.labels ⊆ c.labels := by
    simp [List.subset_def]
  refine eventually_of_succ ?_
  by_cases hall : d.labels ⊆ c.labels
  · filter_upwards [c.labels_value, d.labels_value,
      includeInStep_decides d c hc (Chain.sublist_of_ascending hall hordered) htypes]
      with n hcl hdl hstep ctx env env' s
    unfold includeOrdered includeIfCovered
    refine .after (Solver.yields_lift.2 ⟨hcl env, rfl⟩)
      (.after (Solver.yields_lift.2 ⟨hdl env', rfl⟩) ?_)
    dsimp only
    rw [if_pos (hmissing.2 hall)]
    exact hstep ctx env env' s
  · filter_upwards [c.labels_value, d.labels_value] with n hcl hdl ctx env env' s
    unfold includeOrdered includeIfCovered
    refine .after (Solver.yields_lift.2 ⟨hcl env, rfl⟩)
      (.after (Solver.yields_lift.2 ⟨hdl env', rfl⟩) ?_)
    dsimp only
    rw [if_neg (hmissing.not.2 hall)]
    exact .of_refuses (.refuse _ s) fun h => hall (SimpleClass.labels_subset_of_covers h)

theorem SimpleClass.labels_presents {ps : List (Name × Property)}
    {qs : List (Name × SimpleProperty)} (h : List.Forall₂ Presents ps qs) :
    ps.map Prod.fst = qs.map Prod.fst := by
  induction h with
  | nil => rfl
  | cons hpq _ ih => rw [List.map_cons, List.map_cons, hpq.1, ih]

/-- What is looked up among the properties of a class is what its simple class lists. -/
theorem SimpleClass.lookup_presents {ps : List (Name × Property)}
    {qs : List (Name × SimpleProperty)} (h : List.Forall₂ Presents ps qs) (k : Name) :
    (ps.lookup k = none ∧ ∀ q, (k, q) ∉ qs) ∨ ∃ p q, ps.lookup k = some p ∧ (k, q) ∈ qs ∧
      Presents (k, p) (k, q) := by
  induction h with
  | nil => exact .inl ⟨rfl, by simp⟩
  | @cons p q ps qs hpq _ ih =>
    obtain ⟨j, p⟩ := p
    obtain ⟨j', q⟩ := q
    obtain rfl : j = j' := hpq.1
    rw [lookup_cons_ite]
    split
    · next heq =>
      subst heq
      exact .inr ⟨p, q, rfl, List.mem_cons_self, hpq⟩
    · next hne =>
      rcases ih with ⟨hnone, hnot⟩ | ⟨p', q', hp', hq', hpresents⟩
      · refine .inl ⟨hnone, fun r hr => ?_⟩
        rcases List.mem_cons.1 hr with heq | hr
        · exact hne (congrArg Prod.fst heq)
        · exact hnot r hr
      · exact .inr ⟨p', q', hp', List.mem_cons_of_mem _ hq', hpresents⟩

theorem Property.exists_bindAll {images : List (Name × Name)} {ps : List (Name × Property)}
    (h : ∀ p ∈ ps, ∃ x, images.lookup p.1 = some x) (ctx : Context) :
    ∃ ctx', (Property.bindAll images ctx ps).Yields ctx' := by
  induction ps generalizing ctx with
  | nil => exact ⟨ctx, rfl⟩
  | cons p ps ih =>
    obtain ⟨⟨x, hx⟩, hrest⟩ := List.forall_mem_cons.1 h
    unfold bindAll
    split
    · exact ih hrest ctx
    · obtain ⟨ctx', h'⟩ := ih hrest (ctx.bind x x p.2.type)
      exact ⟨ctx', Verdict.yields_bind.2 ⟨x, by simp [image, hx], h'⟩⟩

theorem eventually_forall_mem {α : Type} {P : Nat → α → Prop} {as : List α}
    (h : ∀ a ∈ as, ∀ᶠ n in atTop, P n a) :
    ∀ᶠ n in atTop, ∀ a ∈ as, P n a :=
  (eventually_all_finite as.finite_toSet).2 h

theorem includeUnordered_decides {c d : SimpleClass} (hc : c.Distinct)
    (htypes : PropertiesDecide c d) :
    ∀ᶠ n in atTop, ∀ ctx env env' s, (includeUnordered n ctx (c.value env) (d.value env')).Decides
      (c.Covers d) s := by
  have hproperties := eventually_forall_mem fun p hp =>
    eventually_forall_mem fun q hq => includeProperty_decides (htypes p hp q hq)
  refine eventually_of_succ ?_
  filter_upwards [c.labels_value, d.labels_value, c.properties_value,
    d.properties_value, hproperties] with n hcl hdl hcp hdp hproperties ctx env env' s
  have himages : ∀ k ∈ c.labels ++ d.labels, ∃ x,
      (Name.freshImages (s.usedNames ctx) (c.labels ++ d.labels)).lookup k = some x :=
    fun k hk => Name.exists_freshImage hk
  obtain ⟨ps, hps, hpresents⟩ := hcp env _ fun k hk => himages k (List.mem_append_left _ hk)
  obtain ⟨qs, hqs, hpresents'⟩ := hdp env' _ fun k hk => himages k (List.mem_append_right _ hk)
  have hbound : ∀ p ∈ ps, ∃ x,
      (Name.freshImages (s.usedNames ctx) (c.labels ++ d.labels)).lookup p.1 = some x := by
    intro p hp
    have hlabel : p.1 ∈ c.labels := by
      rw [SimpleClass.labels, ← SimpleClass.labels_presents hpresents]
      exact List.mem_map_of_mem hp
    exact himages p.1 (List.mem_append_left _ hlabel)
  obtain ⟨inner, hinner⟩ := Property.exists_bindAll hbound ctx
  unfold includeUnordered
  refine .after (Solver.yields_lift.2 ⟨hcl env, rfl⟩)
    (.after (Solver.yields_lift.2 ⟨hdl env', rfl⟩) ?_)
  refine .after (Solver.yields_get.2 ⟨rfl, rfl⟩) (.after (a := ⟨⟩) (Solver.yields_set.2 rfl) ?_)
  refine .after (Solver.yields_judging.2 ⟨hps, rfl⟩)
    (.after (Solver.yields_judging.2 ⟨hqs, rfl⟩) ?_)
  refine .after (Solver.yields_judging.2 ⟨hinner, rfl⟩) ?_
  refine .congr (.forM hpresents' ?_ _) SimpleClass.covers_iff.symm
  rintro ⟨k, Q⟩ ⟨k', q⟩ hQ hq s'
  obtain rfl : k = k' := hQ.1
  rcases SimpleClass.lookup_presents hpresents k with ⟨hnone, hnot⟩ | ⟨P, p, hsome, hp, hP⟩
  · dsimp only
    rw [hnone]
    refine .of_refuses (.refuse _ s') ?_
    rintro ⟨p, hp, -⟩
    exact hnot p hp
  · dsimp only
    rw [hsome]
    have himage := himages k (List.mem_append_right _ (List.mem_map_of_mem hq))
    have hproperty := hproperties _ hp _ hq inner _ k P Q s' himage hP hQ
    refine (hproperty.congr ⟨fun hle => ⟨p, hp, hle⟩, ?_⟩).within _
    rintro ⟨p', hp', hle⟩
    rwa [SimpleClass.property_unique hc hp hp']

theorem InclusionDecides.classOf {c d : SimpleClass} (hc : c.Distinct)
    (htypes : PropertiesDecide c d) :
    InclusionDecides (.classOf c) (.classOf d) := by
  refine .of_forms (eventually_of_succ ?_)
  have hordered : ∀ᶠ n in atTop, ∀ env env',
      (c.value env).isOrdered n (d.value env') =
      .ok (Chain.ascending (Chain.places c.labels d.labels)) := by
    filter_upwards [c.labels_value, d.labels_value] with n hcl hdl env env'
    exact Eval.bind_eq_ok.2 ⟨_, hcl env, Eval.bind_eq_ok.2 ⟨_, hdl env', rfl⟩⟩
  cases horder : Chain.ascending (Chain.places c.labels d.labels) with
  | true =>
    filter_upwards [hordered, includeOrdered_decides hc htypes horder] with n hordered
      hdecides ctx env env' s
    refine includeForms_decides ?_ rfl
    simp only [Simple.value, Simple.le_classOf]
    rw [horder] at hordered
    exact .after (Solver.yields_lift.2 ⟨hordered env env', rfl⟩) (hdecides ctx env env' s)
  | false =>
    filter_upwards [hordered, includeUnordered_decides hc htypes] with n hordered
      hdecides ctx env env' s
    refine includeForms_decides ?_ rfl
    simp only [Simple.value, Simple.le_classOf]
    rw [horder] at hordered
    exact .after (Solver.yields_lift.2 ⟨hordered env env', rfl⟩) (hdecides ctx env env' s)

/-- A type is compared with another in both directions, since the domains of functions are compared
the other way round. -/
def BothDecide (A B : Simple) : Prop := InclusionDecides A B ∧ InclusionDecides B A

theorem BothDecide.of_shape_ne {A B : Simple} (h : A.shape ≠ B.shape) : BothDecide A B :=
  ⟨.of_shape_ne h, .of_shape_ne h.symm⟩

theorem BothDecide.type (B : Simple) : BothDecide .type B := by
  cases B with
  | type => exact ⟨.type, .type⟩
  | _ => exact .of_shape_ne (by simp [Simple.shape])

theorem BothDecide.string (B : Simple) : BothDecide .string B := by
  cases B with
  | string => exact ⟨.string, .string⟩
  | _ => exact .of_shape_ne (by simp [Simple.shape])

theorem BothDecide.trivial (B : Simple) : BothDecide .trivial B := by
  cases B with
  | trivial => exact ⟨.trivial, .trivial⟩
  | _ => exact .of_shape_ne (by simp [Simple.shape])

mutual

theorem Simple.bothDecide : (A : Simple) → A.Distinct → (B : Simple) → B.Distinct → BothDecide A B
  | .type, _, B, _ => .type B
  | .string, _, B, _ => .string B
  | .trivial, _, B, _ => .trivial B
  | .pi p x a b, ⟨ha, hb⟩, B, hB => by
    cases B with
    | pi q y c d =>
      by_cases hpq : p = q
      · subst hpq
        obtain ⟨hac, hca⟩ := a.bothDecide ha c hB.1
        obtain ⟨hbd, hdb⟩ := b.bothDecide hb d hB.2
        exact ⟨.pi hca hbd, .pi hac hdb⟩
      · exact .of_shape_ne (by simpa [Simple.shape] using hpq)
    | _ => exact .of_shape_ne (by simp [Simple.shape])
  | .sigma x a b, ⟨ha, hb⟩, B, hB => by
    cases B with
    | sigma y c d =>
      obtain ⟨hac, hca⟩ := a.bothDecide ha c hB.1
      obtain ⟨hbd, hdb⟩ := b.bothDecide hb d hB.2
      exact ⟨.sigma hac hbd, .sigma hca hdb⟩
    | _ => exact .of_shape_ne (by simp [Simple.shape])
  | .classOf c, hc, B, hB => by
    cases B with
    | classOf d =>
      have hboth := c.bothDecide hc
      have hd : ∀ q ∈ d.properties, q.2.type.Distinct := SimpleClass.distinct_of_mem hB
      exact ⟨.classOf hc fun p hp q hq => (hboth p hp _ (hd q hq)).1,
        .classOf hB fun q hq p hp => (hboth p hp _ (hd q hq)).2⟩
    | _ => exact .of_shape_ne (by simp [Simple.shape])

theorem SimpleClass.bothDecide :
    (c : SimpleClass) → c.Distinct → ∀ p ∈ c.properties, ∀ B : Simple, B.Distinct →
      BothDecide p.2.type B
  | .nil, _ => by simp [SimpleClass.properties]
  | .declared k x a c, h =>
    List.forall_mem_cons.2 ⟨fun B hB => a.bothDecide h.2.1 B hB, c.bothDecide h.2.2⟩
  | .fulfilled k x (.quote text) c, h =>
    List.forall_mem_cons.2 ⟨fun B _ => .string B, c.bothDecide h.2⟩
  | .fulfilled k x .sole c, h => List.forall_mem_cons.2 ⟨fun B _ => .trivial B, c.bothDecide h.2⟩

end

/-- On simple types inclusion decides structural subtyping, in every context and under every
solution: what is included is a subtype, and with enough fuel for both types a subtype is included
and any other type refused. -/
theorem inclusion_decides_subtyping {A B : Simple} (hA : A.Distinct) (hB : B.Distinct) {k k' : Nat}
    {env env' : Environment} {v w : Value} (hv : eval k env A.term = .ok v)
    (hw : eval k' env' B.term = .ok w) :
    (∀ n ctx s s', (inclusion n ctx v w).Yields s () s' → A.Le B) ∧
    ∃ N, ∀ n ≥ N, ∀ (ctx : Context) (s : Solution),
      (A.Le B → ∃ s', (inclusion n ctx v w).Yields s () s') ∧
        (¬ A.Le B → ∃ f s', (inclusion n ctx v w).run.run s = .ok (.error f, s')) := by
  obtain ⟨m, hm⟩ := (A.eval_term.and B.eval_term).exists
  obtain rfl := eval_unique hv (hm.1 env)
  obtain rfl := eval_unique hw (hm.2 env')
  obtain ⟨N, hN⟩ := eventually_atTop.1 (A.bothDecide hA B hB).1
  constructor
  · intro n ctx s s' hincluded
    by_contra hnot
    obtain ⟨f, s₁, hrefused⟩ := (hN N le_rfl ctx env env' s).refuses hnot
    cases inclusion_unique hincluded hrefused
  · refine ⟨N, fun n hn ctx s => ?_⟩
    have hdecides := hN n hn ctx env env' s
    exact ⟨hdecides.accepts, hdecides.refuses⟩

namespace SwappedClass

def p : Name := ⟨"p", 0⟩
def q : Name := ⟨"q", 0⟩

def function : Simple := .pi .explicit .anonymous .type .trivial

/-- `class {q: String = "a", p: Type -> Trivial}` -/
def narrow : Simple := .classOf (.fulfilled q q (.quote "a") (.declared p p function .nil))

/-- `class {p: Type -> Trivial, q: String}` -/
def wide : Simple := .classOf (.declared p p function (.declared q q .string .nil))

theorem narrow_distinct : narrow.Distinct := by
  simp [narrow, function, Simple.Distinct, SimpleClass.Distinct, p, q]

theorem wide_distinct : wide.Distinct := by
  simp [wide, function, Simple.Distinct, SimpleClass.Distinct, p, q]

theorem narrow_le_wide : narrow.Le wide := by
  have hp : (p, .declared function) ∈
      (SimpleClass.fulfilled q q (.quote "a") (.declared p p function .nil)).properties :=
    List.mem_cons_of_mem _ List.mem_cons_self
  have hq : (q, .fulfilled (.quote "a")) ∈
      (SimpleClass.fulfilled q q (.quote "a") (.declared p p function .nil)).properties :=
      List.mem_cons_self
  exact .classOf (.declared hp (.pi .type .trivial) (.declared hq .string .nil))

theorem not_wide_le_narrow : ¬ wide.Le narrow := by
  intro h
  obtain ⟨r, hr, -, hl⟩ := (SimpleClass.covers_fulfilled.1 (Simple.le_classOf.1 h)).1
  simp [SimpleClass.properties, p, q] at hr
  subst hr
  exact absurd (hl _ rfl) (by simp)

end SwappedClass

open SwappedClass in
/-- A class with a fulfilled property is included in one without it, whatever the order, and not
conversely. -/
theorem swapped_class_included_one_way :
    ∃ N, ∀ n ≥ N, ∀ (ctx : Context) (s : Solution),
      (∃ s', (inclusion n ctx (narrow.value []) (wide.value [])).Yields s () s') ∧
        ∃ f s', (inclusion n ctx (wide.value []) (narrow.value [])).run.run s =
          .ok (.error f, s') := by
  have hnarrow : eval 5 [] narrow.term = .ok (narrow.value []) := rfl
  have hwide : eval 5 [] wide.term = .ok (wide.value []) := rfl
  obtain ⟨-, N, hN⟩ := inclusion_decides_subtyping narrow_distinct wide_distinct hnarrow hwide
  obtain ⟨-, N', hN'⟩ := inclusion_decides_subtyping wide_distinct narrow_distinct hwide hnarrow
  refine ⟨max N N', fun n hn ctx s => ⟨?_, ?_⟩⟩
  · exact (hN n (le_of_max_le_left hn) ctx s).1 narrow_le_wide
  · exact (hN' n (le_of_max_le_right hn) ctx s).2 not_wide_le_narrow

end DependentClasses
