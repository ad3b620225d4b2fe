import DependentClasses.Proofs.Persistence

/-! Pattern variables that are applied to parameters. The solution is the function of these
parameters that gives the normal form of the other side. Applied to them again it evaluates that
normal form anew, and so it gives the other side back exactly if the normal form is steady. -/
namespace DependentClasses

/-- A normal form is repeated exactly if it is steady. -/
theorem WellBuilt.repeats_iff_steady {s : Solution} {ctx : Context} {n : Nat} (h : WellBuilt ctx s)
    {v w : Value} {t u : Term} (hv : v.Over (s.Visible ctx)) (ht : v.ReadsAs s ctx t)
    (hw : eval n (s.environment ctx) t = .ok w) (hu : w.ReadsAs s ctx u) :
    t.alphaEquivalent u ↔ t.Steady s (.top s ctx) := by
  obtain ⟨m, ht⟩ := ht
  obtain ⟨k, hu⟩ := hu
  have hnamed := h.named.usedNames ctx
  have hnormal := (ReadsNormal.all s m).value h.solution.keeps hnamed ht hv
  refine (decided s t).value (p := .top s ctx) (hnormal.normal fun _ => h.mem_usedNames)
    ⟨hnamed, fun y hy => ?_⟩ hw hu
  obtain ⟨hvisible, hsolved⟩ := hnormal.free y hy
  obtain ⟨a, hlookup⟩ := hvisible.lookup hsolved
  exact ⟨a, y, hlookup, by simp [Place.top, Term.sameVariable], h.mem_usedNames hvisible, hsolved⟩

namespace Binding

variable (b : Binding)

theorem solvedIn : b.before.SolvedIn b.after := by
  intro y a v hy
  have hne : y ≠ b.head := fun heq => b.not_isSolved_head (heq ▸ ⟨a, v, hy⟩)
  rw [b.find_of_ne hne, hy]

theorem visible {y : Name} (h : b.before.Visible b.ctx y) : b.after.Visible b.ctx y :=
  h.imp_left fun hy => Solution.isPatternVariable_bind.trans hy

/-- The names of the other side mean the same after the binding. -/
theorem lookup_body (h : WellBuilt b.ctx b.after) {y : Name} (hy : y ∈ b.body.freeNames) :
    Option.Rel (Value.Similar (.only (b.after.Visible b.ctx)))
      ((b.before.environment b.ctx).lookup y)
      ((b.after.environment b.ctx).lookup y) := by
  have hsame : (b.before.environment b.ctx).lookup y = (b.after.environment b.ctx).lookup y := by
    rw [Solution.lookup_environment, Solution.lookup_environment, b.find_of_ne (b.of_mem_body hy).1]
  rw [hsame]
  cases hw : (b.after.environment b.ctx).lookup y with
  | none => exact .none
  | some w => exact .some (h.environment_over y w hw).similar

end Binding

def Value.applyAll (n : Nat) : Value → List PatternSpine.Arg → Eval Value
  | f, [] => pure f
  | f, a :: args => do
    let g ← f.app n a.plicity a.value
    g.applyAll n args

namespace PatternSpine

variable {n : Nat} {s : Solution} {ctx : Context}

/-- The argument is a parameter, as the context has it. Another value may turn out to be the
parameter as well, once the pattern variable that it is stuck on is solved. -/
def Arg.Direct (s : Solution) (ctx : Context) (a : Arg) : Prop :=
  ∃ x, ctx.isAbstract x ∧ s.isPatternVariable x = false ∧
    (s.environment ctx).lookup x = some a.value

def bound : List (Arg × Name) → Environment → Environment
  | [], env => env
  | (a, x) :: params, env => bound params ((x, a.value) :: env)

/-- A function of parameters that is applied to arguments computes its body with these. -/
theorem eval_body {params : List (Arg × Name)} {body t : Term}
    (ht : abstracted n s ctx params body = .ok t) {k m : Nat} {env : Environment} {v w : Value}
    (hv : eval k env t = .ok v) (hw : v.applyAll m (params.map Prod.fst) = .ok w) :
    ∃ j, eval j (bound params env) body = .ok w := by
  induction params generalizing t k env v with
  | nil =>
    cases Eval.pure_eq_ok.1 ht
    cases Eval.pure_eq_ok.1 hw
    exact ⟨k, hv⟩
  | cons p params ih =>
    obtain ⟨a, x⟩ := p
    simp only [abstracted, Eval.bind_eq_ok, Eval.pure_eq_ok] at ht
    obtain ⟨inner, hinner, domain, -, rfl⟩ := ht
    obtain ⟨k, d, -, rfl⟩ := eval_fn hv
    obtain ⟨g, hg, hw⟩ := Eval.bind_eq_ok.1 hw
    cases m with
    | zero => simp [Value.app] at hg
    | succ m =>
      simp only [Value.app, if_true] at hg
      exact ih hinner hg hw

theorem lookup_bound {params : List (Arg × Name)} {env : Environment}
    (h : ∀ p ∈ params, env.lookup p.2 = some p.1.value) (y : Name) :
    (bound params env).lookup y = env.lookup y := by
  induction params generalizing env with
  | nil => rfl
  | cons p params ih =>
    obtain ⟨a, x⟩ := p
    have hx : env.lookup x = some a.value := h (a, x) List.mem_cons_self
    have hsame (z : Name) : List.lookup z ((x, a.value) :: env) = env.lookup z := by
      rw [lookup_cons_ite]
      split
      · next hz => rw [hz, hx]
      · rfl
    rw [bound, ih fun p hp => (hsame p.2).trans (h p (List.mem_cons_of_mem _ hp)), hsame]

/-- The arguments come down to distinct parameters of the context. -/
theorem parameters_forced {head : Name} {seen xs : List Name} {args : List Arg}
    (h : (parameters n s ctx head seen args).Yields xs) (hseen : seen.Nodup) :
    xs.Nodup ∧ ∃ ys, xs = seen ++ ys ∧
      List.Forall₂ (fun a y => ctx.isAbstract y ∧
        ∃ b, a.value.Forces s (.variable b y)) args ys := by
  induction args generalizing seen with
  | nil =>
    rw [parameters, Verdict.yields_pure] at h
    subst h
    exact ⟨hseen, [], by simp, .nil⟩
  | cons a args ih =>
    unfold parameters at h
    simp only [Verdict.yields_bind, Verdict.yields_lift] at h
    obtain ⟨v, hv, h⟩ := h
    split at h
    · next b y =>
      split at h
      · next hy =>
        simp only [Bool.and_eq_true, decide_eq_true_eq] at hy
        have hnodup : (seen ++ [y]).Nodup := List.nodup_append.2 ⟨hseen, by simp, by grind⟩
        obtain ⟨hxs, ys, rfl, hys⟩ := ih h hnodup
        exact ⟨hxs, y :: ys, by simp, .cons ⟨hy.1.1, b, n, hv⟩ hys⟩
      · simp at h
    · simp at h

/-- A parameter is not forced to anything else. -/
theorem Arg.Direct.lookup {a : Arg} (h : a.Direct s ctx) {b : Value} {y : Name}
    (hy : a.value.Forces s (.variable b y)) :
    (s.environment ctx).lookup y = some a.value := by
  obtain ⟨x, habstract, hpattern, hlookup⟩ := h
  have hsolved : ¬ s.IsSolved x := by
    rintro ⟨c, w, hfind⟩
    simp [Solution.isPatternVariable, hfind] at hpattern
  obtain ⟨c, hvariable⟩ := Solution.Visible.lookup (.inr habstract) hsolved
  have hvalue : a.value = .variable c x := Option.some.inj (hlookup.symm.trans hvariable)
  have hforced : (Value.variable c x).force 1 s = .ok (.variable c x) := by
    simp [Value.variable, Value.force, Neutral.resume_eq_none (e := .var x) hsolved, pure,
      Except.pure, bind, Except.bind]
  rw [hvalue] at hy
  cases hy.unique ⟨1, hforced⟩
  exact hlookup

end PatternSpine

namespace Binding

variable (b : Binding)

theorem visible_over (h : WellBuilt b.ctx b.before) {n : Nat} {t : Term} {v : Value}
    (hv : eval n (b.before.environment b.ctx) t = .ok v) : v.Over (b.after.Visible b.ctx) :=
  (h.eval_over hv).mono fun _ => b.visible

/-- The normal form of the other side is as it was. -/
theorem readsAs_body (h : WellBuilt b.ctx b.before) (h' : WellBuilt b.ctx b.after) :
    b.other.ReadsAs b.after b.ctx b.body := by
  refine ⟨b.fuel, (KeepsReadings.all b.solvedIn b.fuel).value (h'.named.usedNames b.ctx)
    b.body_eq fun y hy => ?_⟩
  rintro ⟨a, v, hfind⟩
  rw [b.find_of_ne (b.of_mem_body hy).1] at hfind
  exact b.not_isSolved_of_mem_body h.named hy ⟨a, v, hfind⟩

theorem parameters_forced : b.parameters.Nodup ∧ List.Forall₂ (fun a y => b.ctx.isAbstract y ∧
    ∃ c, a.value.Forces b.before (.variable c y)) b.spine.args b.parameters := by
  obtain ⟨hnodup, ys, hys, hforced⟩ := PatternSpine.parameters_forced b.parameters_eq .nil
  rw [List.nil_append] at hys
  exact ⟨hnodup, hys ▸ hforced⟩

/-- The solution, applied to the arguments, computes the body with these for the parameters. -/
theorem eval_applied {m : Nat} {w : Value} (hw : b.value.applyAll m b.spine.args = .ok w) :
    ∃ j, eval j (PatternSpine.bound (b.spine.args.zip b.parameters) (b.before.environment b.ctx))
      b.body = .ok w := by
  have hargs : (b.spine.args.zip b.parameters).map Prod.fst = b.spine.args :=
    List.map_fst_zip (Nat.le_of_eq b.parameters_forced.2.length_eq)
  exact PatternSpine.eval_body b.term_eq b.value_eq (hargs.symm ▸ hw)

/-- The solution, applied to the parameters, is read back as the other side exactly if nothing in
that comes open. -/
theorem applied_iff (h : WellBuilt b.ctx b.before) (h' : WellBuilt b.ctx b.after)
    (hother : b.other.Over (b.after.Visible b.ctx))
    (hdirect : ∀ a ∈ b.spine.args, a.Direct b.before b.ctx) {m : Nat} {w : Value} {u : Term}
    (hw : b.value.applyAll m b.spine.args = .ok w) (hu : w.ReadsAs b.after b.ctx u) :
    b.body.alphaEquivalent u ↔ b.body.Steady b.after (.top b.after b.ctx) := by
  obtain ⟨j, hj⟩ := b.eval_applied hw
  -- The names of the body mean what they mean in the environment after the binding.
  have hlookup (y : Name) :
      (PatternSpine.bound (b.spine.args.zip b.parameters) (b.before.environment b.ctx)).lookup y =
      (b.before.environment b.ctx).lookup y :=
    PatternSpine.lookup_bound (fun p hp => by
      obtain ⟨-, c, hforced⟩ := List.forall₂_zip b.parameters_forced.2 hp
      exact (hdirect p.1 (List.of_mem_zip hp).1).lookup hforced) y
  have henvironment : Environment.Similar (.only (b.after.Visible b.ctx)) Eq
      (PatternSpine.bound (b.spine.args.zip b.parameters) (b.before.environment b.ctx))
      (b.after.environment b.ctx) b.body b.body := by
    refine ⟨.refl b.body, ?_⟩
    rintro y hy _ - rfl
    rw [hlookup]
    exact b.lookup_body h' hy
  obtain ⟨w', hw', hsimilar⟩ :=
    (ComputesSimilarly.all (.only (b.after.Visible b.ctx)) j).eval henvironment w hj
  obtain ⟨i, hu⟩ := hu
  have hnamed := h'.named.usedNames b.ctx
  obtain ⟨u', hu', halpha⟩ :=
    hsimilar.reify h'.solution (fun y hy => ⟨h'.mem_usedNames hy, h'.mem_usedNames hy⟩)
    hnamed hnamed hu
  rw [← h'.repeats_iff_steady hother (b.readsAs_body h h') hw' ⟨i, hu'⟩]
  exact ⟨fun hbody => Term.alphaEquivalent_trans hbody halpha,
    fun hbody => Term.alphaEquivalent_trans hbody (Term.alphaEquivalent_symm halpha)⟩

end Binding

/-- What solving a pattern does. The solution changes in nothing but that the pattern variable is
solved, and the other side keeps its normal form. The arguments come down to distinct parameters,
and the solution applied to them computes that normal form, with the arguments for the parameters.
If they are the parameters as the context has them, the result is read back as the normal form
exactly if the normal form is steady: evaluated anew, no selection in it comes open, or what does so
is read back as it stands. -/
theorem solved_pattern_applies_iff {ctx : Context} {s s' : Solution} (hs : Built ctx s) {k n : Nat}
    {d : Term} {r : Value} (hr : eval k (s.environment ctx) d = .ok r) {spine : PatternSpine}
    (h : (spine.solve n s ctx r).Yields s') :
    ∃ a scope v body xs, s.find spine.head = some (.unsolved a scope) ∧ s' = s.bind spine.head v ∧
      s'.find spine.head = some (.solved a v) ∧ (∀ y, y ≠ spine.head → s'.find y = s.find y) ∧
      s'.names = s.names ∧
      r.ReadsAs s ctx body ∧ r.ReadsAs s' ctx body ∧ xs.Nodup ∧
      List.Forall₂ (fun a x => ctx.isAbstract x ∧
        ∃ b, a.value.Forces s (.variable b x)) spine.args xs ∧
      ∀ m w, v.applyAll m spine.args = .ok w →
        (∃ j, eval j (PatternSpine.bound (spine.args.zip xs) (s.environment ctx)) body = .ok w) ∧
        ∀ u, w.ReadsAs s' ctx u → (∀ a ∈ spine.args, a.Direct s ctx) →
          (body.alphaEquivalent u ↔ body.Steady s' (.top s' ctx)) := by
  obtain ⟨b, rfl, rfl, rfl, rfl, rfl⟩ := PatternSpine.exists_binding h
  have hbefore := hs.wellBuilt
  have hafter : WellBuilt b.ctx b.after := (Built.solve b.head hs b.value_eq).wellBuilt
  refine ⟨b.type, b.scope, b.value, b.body, b.parameters, b.unsolved, rfl, b.find_head,
    fun y hy => b.find_of_ne hy, rfl,
    ⟨b.fuel, b.body_eq⟩, b.readsAs_body hbefore hafter, b.parameters_forced.1,
      b.parameters_forced.2, fun m w hw => ?_⟩
  refine ⟨b.eval_applied hw, fun u hu hdirect => ?_⟩
  exact b.applied_iff hbefore hafter (b.visible_over hbefore hr) hdirect hw hu

namespace AppliedToParameter

def c : Name := ⟨"c", 0⟩
def m : Name := ⟨"m", 0⟩

def ctx : Context := Context.bind [] c c .string

/-- `m` may not mention `c` but as its argument. -/
def s : Solution := Solution.create {} m (.pi .explicit .string ⟨ctx.environment, c, .type⟩) []

def spine : PatternSpine := ⟨m, [⟨.explicit, .string, .variable .string c⟩]⟩

/-- The parameter and a function whose normal form is not stable. -/
def pair : Term := .cons (.var c) OpenedSelection.selecting

def trip : Eval (Value × Solution × Value × Term × Term) := do
  let r ← eval 20 (s.environment ctx) pair
  let outcome ← (spine.solve 20 s ctx r).run
  match outcome with
  | .error _ => Eval.outOfFuel
  | .ok s' =>
    match s'.find m with
    | some (.solved _ v) => do
      let body ← s'.reify 20 ctx r
      let w ← v.applyAll 20 spine.args
      let u ← s'.reify 20 ctx w
      pure (r, s', w, body, u)
    | _ => Eval.outOfFuel

theorem built : Built ctx s := by
  have hctx : Built ctx {} := .bind (n := 1) (t := .string) c c .empty (by simp [Context.names]) rfl
  exact .create (n := 2) (t := .pi .explicit c .string .type) m [] hctx rfl

theorem direct : ∀ a ∈ spine.args, a.Direct s ctx := by
  intro a ha
  cases List.mem_singleton.1 ha
  exact ⟨c, by decide, by decide, rfl⟩

theorem exists_trip :
    ∃ r s' a v w body u, eval 20 (s.environment ctx) pair = .ok r ∧
      (spine.solve 20 s ctx r).Yields s' ∧
    s'.find m = some (.solved a v) ∧ r.ReadsAs s' ctx body ∧ v.applyAll 20 spine.args = .ok w ∧
    w.ReadsAs s' ctx u ∧
    body.alphaEquivalent u = false := by
  have h : (match trip with
      | .ok (_, _, _, body, u) => !body.alphaEquivalent u
      | .error _ => false) = true := by decide +kernel
  cases htrip : trip with
  | error e => rw [htrip] at h; cases h
  | ok results =>
    obtain ⟨r, s', w, body, u⟩ := results
    rw [htrip] at h
    unfold trip at htrip
    obtain ⟨_, hr, htrip⟩ := Eval.bind_eq_ok.1 htrip
    obtain ⟨outcome, hsolve, htrip⟩ := Eval.bind_eq_ok.1 htrip
    split at htrip
    · cases htrip
    · split at htrip
      · next a v hfind =>
        simp only [Eval.bind_eq_ok, Eval.pure_eq_ok] at htrip
        obtain ⟨_, hbody, _, hw, _, hu, heq⟩ := htrip
        cases heq
        exact ⟨r, s', a, v, w, body, u, hr, hsolve, hfind, ⟨20, hbody⟩, hw,
          ⟨20, hu⟩, by simpa using h⟩
      · cases htrip

end AppliedToParameter

open AppliedToParameter in
/-- A pattern variable is solved by a pair, one component of which has no stable normal form.
Applied to its argument again, the solution is read back as another pair. -/
theorem unstable_solution_not_steady :
    Built ctx s ∧ (∀ a ∈ spine.args, a.Direct s ctx) ∧ ∃ r s' a v w body u,
      eval 20 (s.environment ctx) pair = .ok r ∧ (spine.solve 20 s ctx r).Yields s' ∧
      s'.find m = some (.solved a v) ∧
      r.ReadsAs s' ctx body ∧ v.applyAll 20 spine.args = .ok w ∧ w.ReadsAs s' ctx u ∧
      ¬ body.alphaEquivalent u ∧
      ¬ body.Steady s' (.top s' ctx) := by
  obtain ⟨r, s', a, v, w, body, u, hr, hsolve, hfind, hbody, hw, hu, hunequal⟩ := exists_trip
  have hne : ¬ body.alphaEquivalent u := by simp [hunequal]
  refine ⟨built, direct, r, s', a, v, w, body, u, hr, hsolve, hfind, hbody, hw, hu, hne,
    fun hsteady => hne ?_⟩
  obtain ⟨_, _, v', body', _, -, -, hfind', -, -, -, hbody', -, -, happlies⟩ :=
    solved_pattern_applies_iff built hr hsolve
  cases hfind.symm.trans hfind'
  cases hbody.unique hbody'
  exact ((happlies 20 w hw).2 u hu direct).2 hsteady

end DependentClasses
