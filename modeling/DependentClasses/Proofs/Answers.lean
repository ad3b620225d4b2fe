import DependentClasses.Proofs.Elaboration
import DependentClasses.Proofs.Relisting
import DependentClasses.Proofs.SortedNames
import DependentClasses.Proofs.Subexpressions
import DependentClasses.Toplevel

/-! Which names an answer may mention. Statements are run one after another in a scope that
stays coherent. An answer has no pattern variables left in it, so that a name in it is a name
of the scope, or one that a pattern variable has carried out of the place where it was a
parameter. -/
namespace DependentClasses

variable {strict : Prop}

section

variable {given : Name → Prop} {n : Nat} {lexicon : Lexicon} {ctx : Context} {s s' : Solution}

theorem Solver.yields_ensureResolved {t : Term} {u : Unit}
    (h : (ensureResolved lexicon t).Yields s u s') :
    s' = s ∧ ∀ y ∈ t.freeNames, s.isUnsolved y = false := by
  unfold ensureResolved at h
  simp only [Solver.yields_bind, Solver.yields_get] at h
  obtain ⟨_, _, ⟨rfl, rfl⟩, h⟩ := h
  split at h
  · simp at h
  · next hnone =>
    obtain ⟨-, rfl⟩ := Solver.yields_pure.1 h
    refine ⟨rfl, fun y hy => ?_⟩
    cases hu : s'.isUnsolved y with
    | false => rfl
    | true =>
      have hmem : y ∈ s'.unsolvedNames lexicon t := Lexicon.mem_sort.2 (List.mem_filter.2 ⟨hy, hu⟩)
      rw [hnone] at hmem
      cases hmem

/-- The free names of a normal form without unsolved variables are parameters, or mentioned by some
variable. -/
theorem Coherent.mem_freeNames_of_resolved (hc : Coherent strict (fun _ => False) ctx s)
    {ctx' : Context} {v : Value} {t : Term} {y : Name} (hv : v.Fits strict (fun _ => False) s ctx)
    (ht : s.reify n ctx' v = .ok t) (hresolved : ∀ y ∈ t.freeNames, s.isUnsolved y = false)
    (hy : y ∈ t.freeNames) :
    s.isPatternVariable y = false ∧ (ctx.HasParameter y ∨ s.Mentions y) := by
  obtain ⟨hknown, hsolved⟩ := hc.mem_freeNames hv ht hy
  have hpattern : s.isPatternVariable y = false := by
    cases hfind : s.find y with
    | none => simp [Solution.isPatternVariable, hfind]
    | some p =>
      cases p with
      | unsolved a scope => simpa [Solution.isUnsolved, hfind] using hresolved y hy
      | solved a w => exact absurd ⟨a, w, hfind⟩ hsolved
  refine ⟨hpattern, ?_⟩
  rcases hknown with hgiven | hparameter | hvariable | hmention
  · exact hgiven.elim
  · exact .inl hparameter
  · rw [hpattern] at hvariable; cases hvariable
  · exact .inr hmention

theorem bindUnknowns_coherent {unknowns : List (Name × Expr)} {r : Context × List (Name × Value)}
    (h : (bindUnknowns n ctx unknowns).Yields s r s') (hc : Coherent strict given ctx s) :
    s.GrowsTo strict (s.usedNames ctx) s' ∧ Coherent strict given r.1 s' ∧ ctx.names ⊆ r.1.names ∧
      ∀ f ∈ r.2, f.2.Fits strict given s' ctx := by
  induction unknowns generalizing ctx s r with
  | nil =>
    obtain ⟨rfl, rfl⟩ := Solver.yields_pure.1 h
    exact ⟨.refl hc.sound _, hc, fun _ => id, by simp⟩
  | cons unknown unknowns ih =>
    obtain ⟨label, type⟩ := unknown
    unfold bindUnknowns at h
    simp only [Solver.yields_bind, Solver.yields_freshName, Solver.yields_create,
      Solver.yields_pure] at h
    obtain ⟨⟨_, a⟩, _, htype, _, s₁, ⟨rfl, rfl⟩, _, _, ⟨rfl, rfl⟩, ⟨inner, vs⟩, _,
      hrest, rfl, rfl⟩ := h
    obtain ⟨hgrow, -, ha⟩ := (Elaborates.all n).checkType htype hc
    obtain ⟨hcreate, hv⟩ := (hc.grow hgrow).create ha label
    have hnew := hgrow.next hcreate
    obtain ⟨hlater, hinner, hnames, hvs⟩ := ih hrest ((hc.grow hnew).bind (ha.grow hcreate) label _)
    -- the new parameter is the pattern variable that was created with it
    have hknows : ∀ y, s'.Knows given (ctx.bind label (s₁.freshName ctx label) a) y →
        s'.Knows given ctx y := by
      rintro y (hgiven | ⟨e, he, hname, hvalue⟩ | hother)
      · exact .inl hgiven
      · rcases List.mem_cons.1 he with rfl | he
        · have hcreated : (s₁.create (s₁.freshName ctx label) a ctx.names).isPatternVariable y := by
            simp [Solution.isPatternVariable, Solution.find_create, ← hname]
          exact .inr (.inr (.inl (hlater.isPatternVariable hcreated)))
        · exact .inr (.inl ⟨e, he, hname, hvalue⟩)
      · exact .inr (.inr hother)
    have hsub : ctx.names ⊆ inner.names := fun y hy => hnames (Context.names_cons _ ctx hy)
    refine ⟨hnew.next (hlater.outward (Context.names_cons _ ctx)), hinner, hsub, ?_⟩
    exact List.forall_mem_cons.2
      ⟨hv.grow hlater, fun f hf => (hvs f hf).mono (Part.Within.mono hknows)⟩

theorem Equation.solve_growsTo {e : Equation} {u : Unit} (h : (e.solve n ctx).Yields s u s')
    (hc : Coherent strict given ctx s) : s.GrowsTo strict (s.usedNames ctx) s' := by
  unfold Equation.solve at h
  split at h
  · simp only [Solver.yields_bind, Solver.yields_evaluate] at h
    obtain ⟨⟨_, a⟩, s₁, htype, l, s₂, hl, r, _, hr, v, _, ⟨hv, rfl⟩, w, s₃, ⟨hw, rfl⟩, h⟩ := h
    obtain ⟨hleft, -, ha, hlwf⟩ := (Elaborates.all n).ascribed htype hl hc
    obtain ⟨hright, hrwf⟩ := (Elaborates.all n).check hr (hc.grow hleft) ha
    have hboth := hleft.next hright
    have hc' := hc.grow hboth
    have hunify :=
      unify_growsTo h hboth.sound hc.wellFormed ha.wellFormed (hc'.eval hlwf hv).wellFormed
      (hc'.eval hrwf hw).wellFormed
    exact hboth.next (hunify _)
  · simp only [Solver.yields_bind, Solver.yields_judging, Solver.yields_evaluate] at h
    obtain ⟨l, s₁, hl, r, _, hr, _, _, ⟨-, rfl⟩, v, _, ⟨hv, rfl⟩, w, s₂, ⟨hw, rfl⟩, h⟩ := h
    obtain ⟨hleft, hlwf, hltype⟩ := (Elaborates.all n).infer hl hc
    obtain ⟨hright, hrwf, -⟩ := (Elaborates.all n).infer hr (hc.grow hleft)
    have hboth := hleft.next hright
    have hc' := hc.grow hboth
    have hunify :=
      unify_growsTo h hboth.sound hc.wellFormed hltype.wellFormed (hc'.eval hlwf hv).wellFormed
      (hc'.eval hrwf hw).wellFormed
    exact hboth.next (hunify _)

theorem Equation.solveAll_growsTo {index : Nat} {es : List Equation} {u : Unit}
    (h : (Equation.solveAll n ctx index es).Yields s u s') (hc : Coherent strict given ctx s) :
    s.GrowsTo strict (s.usedNames ctx) s' := by
  induction es generalizing index s with
  | nil =>
    obtain ⟨-, rfl⟩ := Solver.yields_pure.1 h
    exact .refl hc.sound _
  | cons e es ih =>
    unfold solveAll at h
    simp only [Solver.yields_bind, Solver.yields_within] at h
    obtain ⟨_, s₁, he, h⟩ := h
    have hfirst := solve_growsTo he hc
    exact hfirst.next (ih h (hc.grow hfirst))

/-- The solutions of unknowns are read back in the solution that is found. -/
theorem mem_solutions {vs : List (Name × Value)} {solutions : List (Name × Term)}
    (h : Solver.Yields (vs.mapM fun (label, v) => do
      let t ← Solver.reify n ctx v
      ensureResolved lexicon t
      pure (label, t)) s solutions s') :
    s' = s ∧ ∀ f ∈ solutions, ∃ g ∈ vs, s.reify n ctx g.2 = .ok f.2 ∧
      ∀ y ∈ f.2.freeNames, s.isUnsolved y = false := by
  induction vs generalizing s solutions with
  | nil =>
    rw [List.mapM_nil, Solver.yields_pure] at h
    obtain ⟨rfl, rfl⟩ := h
    exact ⟨rfl, by simp⟩
  | cons g vs ih =>
    obtain ⟨f, s₁, rest, hf, hrest, rfl⟩ := Solver.yields_mapM_cons.1 h
    simp only [Solver.yields_bind, Solver.yields_reify, Solver.yields_pure] at hf
    obtain ⟨t, _, ⟨ht, rfl⟩, _, _, hresolved, rfl, rfl⟩ := hf
    obtain ⟨rfl, hresolved⟩ := Solver.yields_ensureResolved hresolved
    obtain ⟨rfl, hall⟩ := ih hrest
    refine ⟨rfl, List.forall_mem_cons.2 ⟨⟨g, List.mem_cons_self, ht, hresolved⟩, fun f hf => ?_⟩⟩
    obtain ⟨g', hg', hread⟩ := hall f hf
    exact ⟨g', List.mem_cons_of_mem g hg', hread⟩

/-- A definition with a type and a term that fit leaves the scope coherent. -/
theorem Coherent.defined (hc : Coherent strict given ctx s) {label : Name} {t : Term} {a : Value}
    {r : Context × Option Answer} (ht : t.WellFormed strict) (ha : a.Fits strict given s ctx)
    (h : Solver.Yields (do
      let v ← Solver.evaluate n ctx t
      let u ← Solver.reify n ctx a
      ensureResolved lexicon u
      let w ← Solver.reify n ctx v
      ensureResolved lexicon w
      let a ← Solver.evaluate n ctx u
      let x ← Solver.freshName ctx label
      pure (ctx.define label x a v, none)) s r s') :
    s' = s ∧ Coherent strict given r.1 s' ∧ r.2 = none := by
  simp only [Solver.yields_bind, Solver.yields_evaluate, Solver.yields_reify,
    Solver.yields_freshName, Solver.yields_pure] at h
  obtain ⟨v, _, ⟨hv, rfl⟩, u, _, ⟨hu, rfl⟩, _, _, hresolved, w, _, ⟨-, rfl⟩, _, _, hresolved', b, _,
    ⟨hb, rfl⟩, _, _, ⟨rfl, rfl⟩, rfl, rfl⟩ := h
  obtain ⟨rfl, -⟩ := Solver.yields_ensureResolved hresolved
  obtain ⟨rfl, -⟩ := Solver.yields_ensureResolved hresolved'
  exact ⟨rfl, hc.define (hc.eval (hc.reify ha hu) hb) (hc.eval ht hv) label _, rfl⟩

/-- What a statement does to a coherent scope, and which names its answer mentions. -/
theorem Statement.run_coherent {st : Statement} {r : Context × Option Answer}
    (h : (st.run n lexicon ctx).Yields s r s') (hc : Coherent strict (fun _ => False) ctx s) :
    s.GrowsTo strict (s.usedNames ctx) s' ∧ Coherent strict (fun _ => False) r.1 s' ∧
    ∀ a ∈ r.2, ∀ t ∈ a.terms, ∀ y ∈ t.freeNames,
      s'.isPatternVariable y = false ∧ (ctx.HasParameter y ∨ s'.Mentions y) := by
  unfold Statement.run at h
  cases st with
  | define label type value =>
    cases type with
    | some type =>
      rw [Solver.yields_bind] at h
      obtain ⟨⟨_, a⟩, s₁, htype, h⟩ := h
      rw [Solver.yields_bind] at h
      obtain ⟨t, s₂, ht, h⟩ := h
      obtain ⟨hgrow, -, ha, hwf⟩ := (Elaborates.all n).ascribed htype ht hc
      obtain ⟨rfl, hc', hnone⟩ := (hc.grow hgrow).defined hwf ha h
      exact ⟨hgrow, hc', by simp [hnone]⟩
    | none =>
      rw [Solver.yields_bind] at h
      obtain ⟨i, s₁, hi, h⟩ := h
      obtain ⟨hgrow, hwf, ha⟩ := (Elaborates.all n).infer hi hc
      obtain ⟨rfl, hc', hnone⟩ := (hc.grow hgrow).defined hwf ha h
      exact ⟨hgrow, hc', by simp [hnone]⟩
  | check value type =>
    simp only [Solver.yields_bind, Solver.yields_evaluate, Solver.yields_reify,
      Solver.yields_pure] at h
    obtain ⟨⟨_, a⟩, s₁, htype, t, _, ht, v, _, ⟨-, rfl⟩, w, _, ⟨-, rfl⟩, _, _,
      hresolved, rfl, rfl⟩ := h
    obtain ⟨rfl, -⟩ := Solver.yields_ensureResolved hresolved
    obtain ⟨hgrow, -⟩ := (Elaborates.all n).ascribed htype ht hc
    exact ⟨hgrow, hc.grow hgrow, by simp⟩
  | compute value =>
    simp only [Solver.yields_bind, Solver.yields_evaluate, Solver.yields_reify,
      Solver.yields_pure] at h
    obtain ⟨i, _, hi, v, _, ⟨hv, rfl⟩, t, _, ⟨ht, rfl⟩, u, _, ⟨hu, rfl⟩, _, _, hresolved,
      _, _, hresolved', rfl, rfl⟩ := h
    obtain ⟨rfl, hresolved⟩ := Solver.yields_ensureResolved hresolved
    obtain ⟨rfl, hresolved'⟩ := Solver.yields_ensureResolved hresolved'
    obtain ⟨hgrow, hwf, htype⟩ := (Elaborates.all n).infer hi hc
    have hc' := hc.grow hgrow
    refine ⟨hgrow, hc', fun a ha w hw y hy => ?_⟩
    cases ha
    rcases List.mem_pair.1 hw with rfl | rfl
    · exact hc'.mem_freeNames_of_resolved (hc'.eval hwf hv) ht hresolved hy
    · exact hc'.mem_freeNames_of_resolved htype hu hresolved' hy
  | solve unknowns equations =>
    simp only [Solver.yields_bind, Solver.yields_pure] at h
    obtain ⟨⟨inner, vs⟩, s₁, hunknowns, _, s₂, hequations, solutions, _, hsolutions, rfl, rfl⟩ := h
    obtain ⟨hbound, hinner, hnames, hvs⟩ := bindUnknowns_coherent hunknowns hc
    have hsolved := Equation.solveAll_growsTo hequations hinner
    have hgrow := hbound.next (hsolved.outward hnames)
    obtain ⟨rfl, hread⟩ := mem_solutions hsolutions
    have hc' := hc.grow hgrow
    refine ⟨hgrow, hc', fun a ha t ht y hy => ?_⟩
    cases ha
    obtain ⟨f, hf, rfl⟩ := List.mem_map.1 ht
    obtain ⟨g, hg, hreify, hresolved⟩ := hread f hf
    exact hc'.mem_freeNames_of_resolved ((hvs g hg).grow hsolved) hreify hresolved hy

end

namespace Toplevel

/-- What a statement that succeeds leaves. -/
theorem answer_eq_ok {n : Nat} {m m' : Toplevel} {st : Statement} {a : Option Answer}
    (h : m.answer n st = .ok (a, m')) :
    (st.run n m.lexicon m.context).Yields m.solution (m'.context, a) m'.solution ∧
      m'.lexicon = m.lexicon := by
  unfold answer solve at h
  split at h
  · next hrun => cases h; exact ⟨hrun, rfl⟩
  · cases h
  · cases h

/-- Scopes that programs lead to. Symbols are noted when a program is read, and a statement that
fails leaves the scope as it was. Each statement may look at names in an order of its own. -/
inductive Reachable : Toplevel → Prop
  | start : Reachable {}
  | note {m : Toplevel} (symbols : List String) : Reachable m →
      Reachable { m with lexicon := m.lexicon.noteAll symbols }
  | relist {m : Toplevel} (l : Listing) : Reachable m →
      Reachable { m with solution := m.solution.relist l }
  | answer {m m' : Toplevel} {n : Nat} {st : Statement} {a : Option Answer} : Reachable m →
      m.answer n st = .ok (a, m') → Reachable m'

namespace Reachable

variable {m m' : Toplevel}

theorem runAll (h : m.Reachable) (n : Nat) (sts : List Statement) :
    (m.runAll n sts).2.Reachable := by
  induction sts generalizing m with
  | nil => exact h
  | cons st sts ih =>
    unfold Toplevel.runAll
    split
    · exact h
    · next output m₁ hstep =>
      have hm₁ : m₁.Reachable := by
        unfold step at hstep
        cases ha : m.answer n st with
        | error e => rw [ha] at hstep; cases hstep
        | ok r => rw [ha] at hstep; cases hstep; exact h.answer ha
      have hrest := ih hm₁
      split
      · next hrun => rw [hrun] at hrest; exact hrest
      · next hrun => rw [hrun] at hrest; exact hrest

/-- Programs that are read and run lead to reachable scopes. -/
theorem execute (h : m.Reachable) (n : Nat) (source : String) :
    (m.execute n source).2.Reachable := by
  unfold Toplevel.execute
  dsimp only
  split
  · exact h.note _
  · exact (h.note _).runAll n _

/-- Nothing is known beforehand. -/
theorem coherent (h : m.Reachable) : Coherent True (fun _ => False) m.context m.solution := by
  induction h with
  | start =>
    exact ⟨⟨fun y p hy => by simp at hy, fun y p hy => by simp at hy⟩, fun e he => by cases he⟩
  | note symbols _ ih => exact ih
  | relist l _ ih => exact ⟨⟨ih.sound.named, ih.sound.wellFormed⟩, ih.context⟩
  | answer _ ha ih => exact (Statement.run_coherent (answer_eq_ok ha).1 ih).2.1

end Reachable

end Toplevel

/-- A pattern variable mentions `y`, which is neither a name of the context nor a pattern
variable. -/
def Solution.Strays (s : Solution) (ctx : Context) (y : Name) : Prop :=
  s.Mentions y ∧ s.isPatternVariable y = false ∧ y ∉ ctx.names

/-- An answer mentions only names of the scope, exactly if it mentions no stray name. -/
theorem answer_in_scope_iff {m m' : Toplevel} (h : m.Reachable) {n : Nat}
    {st : Statement} {a : Answer} (ha : m.answer n st = .ok (some a, m')) :
    (∀ t ∈ a.terms, t.freeNames ⊆ m.context.names) ↔
      ∀ y, m'.solution.Strays m.context y → ∀ t ∈ a.terms, y ∉ t.freeNames := by
  obtain ⟨-, -, hnames⟩ := Statement.run_coherent (Toplevel.answer_eq_ok ha).1 h.coherent
  constructor
  · intro hscope y hstray t ht hy
    exact hstray.2.2 (hscope t ht hy)
  · intro hstray t ht y hy
    obtain ⟨hpattern, hparameter | hmention⟩ := hnames a rfl t ht y hy
    · obtain ⟨e, he, hname, -⟩ := hparameter
      exact List.mem_map.2 ⟨e, he, hname⟩
    · by_contra hout
      exact hstray y ⟨hmention, hpattern, hout⟩ t ht hy

namespace EscapedParameter

def A : Name := ⟨"A", 0⟩
def f : Name := ⟨"f", 0⟩
def typeOf : Name := ⟨"typeOf", 0⟩
def x : Name := ⟨"x", 0⟩

open Form (bare)

def function (p : Plicity) (label : Name) (domain : Form) (body : Form) : Form :=
  .fn p label (some (bare domain)) (bare body)

def apply (target arg : Form) : Form := .app .explicit (bare target) (bare arg)

def typeOfDefinition : Statement :=
  .define typeOf none (bare (function .implicit A .type (function .explicit x (.var A) (.var A))))

/-- A function that asks for the type of its argument: the implicit argument is solved by the
parameter `A`. -/
def fDefinition : Statement :=
  .define f none
    (bare (function .explicit A .type
    (function .explicit x (.var A) (apply (.var typeOf) (.var x)))))

def application : Statement := .compute (bare (apply (apply (.var f) .string) (.quote "a")))

def scope : Toplevel := (Toplevel.runAll 30 {} [typeOfDefinition, fDefinition]).2

theorem exists_escape :
    ∃ (a : Answer) (m' : Toplevel), scope.answer 30 application = .ok (some a, m') ∧
    ¬ ∀ t ∈ a.terms, t.freeNames ⊆ scope.context.names := by
  have h : gives (scope.answer 30 application) fun r => r.1.any fun a =>
      a.terms.any fun t => t.freeNames.any fun y => y ∉ scope.context.names := by decide +kernel
  obtain ⟨⟨o, m'⟩, ha, h⟩ := exists_of_gives h
  obtain ⟨a, rfl, h⟩ := (Option.any_eq_true _ _).1 h
  refine ⟨a, m', ha, fun hscope => ?_⟩
  obtain ⟨t, ht, hany⟩ := List.any_eq_true.1 h
  obtain ⟨y, hy, hout⟩ := List.any_eq_true.1 hany
  exact of_decide_eq_true hout (hscope t ht hy)

end EscapedParameter

/-- The parameter of a function that was applied is left in the answer, and is a stray name. -/
theorem escaped_parameter_strays :
    EscapedParameter.scope.Reachable ∧ ∃ (a : Answer) (m' : Toplevel),
      EscapedParameter.scope.answer 30 EscapedParameter.application = .ok (some a, m') ∧
      (¬ ∀ t ∈ a.terms, t.freeNames ⊆ EscapedParameter.scope.context.names) ∧
      ∃ y, m'.solution.Strays EscapedParameter.scope.context y ∧
      ∃ t ∈ a.terms, y ∈ t.freeNames := by
  have hreachable : EscapedParameter.scope.Reachable := Toplevel.Reachable.start.runAll 30 _
  obtain ⟨a, m', ha, hescape⟩ := EscapedParameter.exists_escape
  refine ⟨hreachable, a, m', ha, hescape, ?_⟩
  by_contra hnone
  exact hescape ((answer_in_scope_iff hreachable ha).2 fun y hy t ht hfree =>
    hnone ⟨y, hy, t, ht, hfree⟩)

end DependentClasses
