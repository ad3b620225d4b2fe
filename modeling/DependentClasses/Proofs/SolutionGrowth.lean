import DependentClasses.Proofs.Answers

/-! The checks that may extend a solution, each as it is called from outside. Whatever is called,
in whatever context, the solution only grows, and the pattern variables that are new have names
that nothing was called before. All that has to be known of the start is that its classes have
distinct labels and that its pattern variables are listed among its names. -/
namespace DependentClasses

inductive Call
  | infer (e : Expr)
  | check (e : Expr) (a : Value)
  | checkType (e : Expr)
  | checkClass (members : List Member)
  | checkFields (fields : List (Name × Expr)) (c : Chain)
  | checkArgs (args : List Expr) (c : Chain)
  | applyImplicits (i : Inferred)
  | inclusion (sub super : Value)
  | unify (a l r : Value)
  | solve (e : Equation)

namespace Call

def ignoring {α : Type} (x : Solver α) : Solver Unit := do
  let _ ← x

theorem yields_ignoring {α : Type} {x : Solver α} {s s' : Solution} {u : Unit} :
    (ignoring x).Yields s u s' ↔ ∃ a, x.Yields s a s' := by
  unfold ignoring
  simp only [Solver.yields_bind, Solver.yields_pure]
  constructor
  · rintro ⟨a, _, h, -, rfl⟩
    exact ⟨a, h⟩
  · rintro ⟨a, h⟩
    exact ⟨a, s', h, trivial, rfl⟩

def run (n : Nat) (ctx : Context) : Call → Solver Unit
  | .infer e => ignoring (DependentClasses.infer n ctx e)
  | .check e a => ignoring (DependentClasses.check n ctx e a)
  | .checkType e => ignoring (DependentClasses.checkType n ctx e)
  | .checkClass members => ignoring (DependentClasses.checkClass n ctx members)
  | .checkFields fields c => ignoring (DependentClasses.checkFields n ctx fields c)
  | .checkArgs args c => ignoring (DependentClasses.checkArgs n ctx args c)
  | .applyImplicits i => ignoring (DependentClasses.applyImplicits n ctx i)
  | .inclusion sub super => DependentClasses.inclusion n ctx sub super
  | .unify a l r => DependentClasses.unify n ctx a l r
  | .solve e => e.solve n ctx

def WellFormed (strict : Prop) : Call → Prop
  | .infer _ => True
  | .check _ a => a.WellFormed strict
  | .checkType _ => True
  | .checkClass _ => True
  | .checkFields _ c => c.WellFormed strict
  | .checkArgs _ c => c.WellFormed strict
  | .applyImplicits i => i.term.WellFormed strict ∧ i.type.WellFormed strict
  | .inclusion sub super => sub.WellFormed strict ∧ super.WellFormed strict
  | .unify a l r => a.WellFormed strict ∧ l.WellFormed strict ∧ r.WellFormed strict
  | .solve _ => True

end Call

namespace PatternVariable.Becomes

variable {p q : PatternVariable}

theorem type_eq (h : p.Becomes q) : q.type = p.type := by
  cases h with
  | same => rfl
  | solved a scope v => rfl

theorem eq_of_solved {a v : Value} (h : (PatternVariable.solved a v).Becomes q) :
    q = .solved a v := by
  cases h
  rfl

end PatternVariable.Becomes

section

variable {strict : Prop} {s s' : Solution} {ctx : Context}

/-- If all names are given, only well-formedness is left to ask for. -/
theorem Part.WellFormed.within {X : Name → Prop} (hX : ∀ y, X y) (q : Part) :
    WellFormed strict q → Within strict X q :=
  Part.Within.mono (fun y _ => hX y) q

theorem Solution.knows_given (s : Solution) (ctx : Context) (y : Name) :
    s.Knows (fun _ => True) ctx y :=
  .inl trivial

theorem Value.WellFormed.fits {v : Value} (h : v.WellFormed strict) :
    v.Fits strict (fun _ => True) s ctx :=
  h.mono (Part.WellFormed.within (s.knows_given ctx))

theorem Chain.WellFormed.fits {c : Chain} (h : c.WellFormed strict) :
    c.Fits strict (fun _ => True) s ctx :=
  fun q hq => (h q hq).within (s.knows_given ctx)

theorem Solution.Sound.coherent (hs : s.Sound strict) (hctx : ctx.WellFormed strict) :
    Coherent strict (fun _ => True) ctx s :=
  ⟨hs, hctx.mono (Part.WellFormed.within (s.knows_given ctx))⟩

theorem Call.run_growsTo {n : Nat} {call : Call} {u : Unit} (h : (call.run n ctx).Yields s u s')
    (hs : s.Sound strict) (hctx : ctx.WellFormed strict) (hcall : call.WellFormed strict) :
    s.GrowsTo strict (s.usedNames ctx) s' := by
  have hc := hs.coherent hctx
  have helaborates : Elaborates strict (fun _ => True) n := Elaborates.all n
  cases call with
  | infer e =>
    obtain ⟨i, h⟩ := yields_ignoring.1 h
    exact (helaborates.infer h hc).1
  | check e a =>
    obtain ⟨t, h⟩ := yields_ignoring.1 h
    exact (helaborates.check h hc (Value.WellFormed.fits hcall)).1
  | checkType e =>
    obtain ⟨r, h⟩ := yields_ignoring.1 h
    exact (helaborates.checkType h hc).1
  | checkClass members =>
    obtain ⟨t, h⟩ := yields_ignoring.1 h
    exact (helaborates.checkClass h hc).1
  | checkFields fields c =>
    obtain ⟨t, h⟩ := yields_ignoring.1 h
    exact (helaborates.checkFields h hc (Chain.WellFormed.fits hcall)).1
  | checkArgs args c =>
    obtain ⟨t, h⟩ := yields_ignoring.1 h
    exact (helaborates.checkArgs h hc (Chain.WellFormed.fits hcall)).1
  | applyImplicits i =>
    obtain ⟨j, h⟩ := yields_ignoring.1 h
    exact (applyImplicits_fits h hc ⟨hcall.1, hcall.2.fits⟩).1
  | inclusion sub super => exact (IncludesByGrowth.all n).inclusion h hs hctx hcall.1 hcall.2
  | unify a l r => exact unify_growsTo h hs hctx hcall.1 hcall.2.1 hcall.2.2 _
  | solve e => exact Equation.solve_growsTo h hc

end

/-- A solution only grows, and grows with fresh names. -/
theorem Call.solution_grows_freshly {n : Nat} {ctx : Context} {call : Call}
    {s s' : Solution} {u : Unit} (h : (call.run n ctx).Yields s u s') (hnamed : s.NamedIn s.names)
    (hs : s.WellFormed False) (hctx : ctx.WellFormed False) (hcall : call.WellFormed False) :
    (∀ x p, s.find x = some p → ∃ q, s'.find x = some q ∧ q.type = p.type) ∧
      (∀ x a v, s.find x = some (.solved a v) → s'.find x = some (.solved a v)) ∧
      s.names ⊆ s'.names ∧ s'.NamedIn s'.names ∧
      ∀ x q, s'.find x = some q → s.find x = none → x ∉ s.names ∧ x ∉ ctx.names := by
  have hgrow := Call.run_growsTo h ⟨hnamed, hs⟩ hctx hcall
  refine ⟨fun x p hx => ?_, fun x a v hx => ?_, hgrow.names, hgrow.sound.named,
    fun x q hx hnone => ?_⟩
  · obtain ⟨q, hq, hpq⟩ := hgrow.kept x p hx
    exact ⟨q, hq, hpq.type_eq⟩
  · obtain ⟨q, hq, hpq⟩ := hgrow.kept x _ hx
    rw [hq, hpq.eq_of_solved]
  · have hfresh := hgrow.fresh x q hx hnone
    exact ⟨fun hmem => hfresh (List.mem_append_right _ hmem),
      fun hmem => hfresh (List.mem_append_left _ hmem)⟩

namespace ImplicitArgument

def f : Name := ⟨"f", 0⟩
def A : Name := ⟨"A", 0⟩
def m : Name := ⟨"m", 0⟩

def onAny : Value := .pi .implicit .type ⟨[], A, .pi .explicit .anonymous (.var A) (.var A)⟩

def ctx : Context := (Context.bind [] A A .string).bind f f onAny

def start : Solution where
  entries := [(m, .solved .type .string)]
  names := [m]

def call : Call := .infer ⟨⟨0, 5⟩, .app .explicit ⟨⟨0, 1⟩, .var f⟩ ⟨⟨2, 4⟩, .quote ""⟩⟩

def final : Solution := (call.run 20 ctx).final start

theorem eq_of_find {x : Name} {p : PatternVariable} (h : start.find x = some p) :
    x = m ∧ p = .solved .type .string := by
  simpa [start] using mem_of_lookup h

theorem start_named : start.NamedIn start.names := by
  intro x p hx
  simp [start, (eq_of_find hx).1]

theorem start_wellFormed : start.WellFormed False := by
  intro x p hx
  rw [(eq_of_find hx).2]
  exact ⟨Value.all_type, Value.all_string⟩

theorem ctx_wellFormed : ctx.WellFormed False := by
  have hclosure : Closure.WellFormed False ⟨[], A, .pi .explicit .anonymous (.var A) (.var A)⟩ :=
    Closure.all_iff.2 ⟨by simp, fun y _ _ => ⟨by simp, fun _ => trivial⟩⟩
  have hparameter : (Context.bind [] A A .string).WellFormed False :=
    Context.WellFormed.bind (fun e he => by cases he) Value.all_string A A
  exact hparameter.bind (Value.all_pi.2 ⟨Value.all_type, hclosure⟩) f f

end ImplicitArgument

open ImplicitArgument in
/-- The implicit argument of a function is a new pattern variable. Its name is not that of the
parameter. -/
theorem implicit_argument_is_fresh :
    (∃ u, (call.run 20 ctx).Yields start u final) ∧ (∃ q, final.find ⟨"A", 1⟩ = some q) ∧
      start.find ⟨"A", 1⟩ = none ∧ final.find m = some (.solved .type .string) ∧
      ∀ x q, final.find x = some q → start.find x = none → x ∉ start.names ∧ x ∉ ctx.names := by
  have hsucceeds : (call.run 20 ctx).succeeds start := by decide +kernel
  have hnew : (final.find ⟨"A", 1⟩).isSome := by decide +kernel
  obtain ⟨u, hyields⟩ := Solver.yields_final hsucceeds
  obtain ⟨-, hsolved, -, -, hfresh⟩ :=
    Call.solution_grows_freshly hyields start_named start_wellFormed ctx_wellFormed trivial
  exact ⟨⟨u, hyields⟩, Option.isSome_iff_exists.1 hnew, rfl, hsolved m _ _ rfl, hfresh⟩

end DependentClasses
