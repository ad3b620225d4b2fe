import DependentClasses.Proofs.Runs

/-! When solutions stay in scope. Each binding is checked against the scope of the variable
that it solves, but a variable in it may be solved later, and that solution is checked
against another scope. -/
namespace DependentClasses

open Relation

/-- The scope check has looked at `z` when it checked the binding of `m`. -/
def Binding.Examined (b : Binding) (m z : Name) : Prop :=
  b.head = m ∧ z ∈ b.body.freeNames ∧ z ∉ b.parameters

/-- What the solution mentions lies in `scope`, the scope of `m`, unless it is a pattern variable of
`s` or the scope check has looked at it. -/
def Binding.Respects (b : Binding) (s : Solution) (m : Name) (scope : List Name) : Prop :=
  ∀ z, b.value.Has (.name z) → s.isPatternVariable z = false → ¬ b.Examined m z → z ∈ scope

namespace Solution

variable {s : Solution} {m : Name} {scope : List Name}

/-- All that the solution of `m` leads to lies in `scope`, or is a pattern variable. -/
def Confined (s : Solution) (m : Name) (scope : List Name) : Prop :=
  ∀ z, TransGen s.DependsOn m z → s.isPatternVariable z = false → z ∈ scope

/-- The normal form of a confined solution mentions names in scope and unsolved variables. -/
theorem Confined.reading (h : s.Confined m scope) {a v : Value}
    (hm : s.find m = some (.solved a v)) {n : Nat} {used : List Name} (hu : s.NamedIn used)
    {t : Term} (ht : v.reify n s used = .ok t) {y : Name} (hy : y ∈ t.freeNames) :
    y ∈ scope ∨ s.isUnsolved y := by
  obtain ⟨hlead, hy⟩ :=
    ((ReadsNormal.all s n).value (s.keeps_leads m) hu ht (over_leads hm)).free y hy
  cases hfind : s.find y with
  | none => exact .inl (h y hlead (by simp [isPatternVariable, hfind]))
  | some p =>
    cases p with
    | unsolved b scope' => exact .inr (by simp [isUnsolved, hfind])
    | solved b w => exact absurd ⟨b, w, hfind⟩ hy

end Solution

/-- A variable is confined to its scope exactly if each binding that its solution leads to respects
that scope. -/
theorem Logged.confined_iff {may : Solution → Name → Prop} {σ : Scopes}
    {log : List Binding} {s : Solution} (h : Logged may σ log s) {m : Name} {scope : List Name}
    (hm : σ.lookup m = some scope) :
    s.Confined m scope ↔ ∀ b ∈ log, ReflTransGen s.DependsOn m b.head → b.Respects s m scope := by
  constructor
  · intro hconf b hb hlead z hz hpv _
    exact hconf z (.tail' hlead ⟨_, _, h.find_head hb, hz⟩) hpv
  · intro hresp z hlead hpv
    obtain ⟨k, hmk, a, v, hk, hz⟩ := TransGen.tail'_iff.1 hlead
    obtain ⟨b, hb, rfl, -, rfl⟩ := h.find_eq_solved_iff.1 hk
    by_cases hexamined : b.Examined m z
    · obtain ⟨rfl, hbody, hparam⟩ := hexamined
      have hscope : b.scope = scope := Option.some.inj ((h.lookup_head hb).symm.trans hm)
      rcases (b.of_mem_body hbody).2 with hz | hz | hz
      · exact absurd hz hparam
      · exact hscope ▸ hz
      · rw [h.isPatternVariable_of_before hb hz] at hpv
        cases hpv
    · exact hresp b hb hmk z hz hpv hexamined

namespace Binding

/-- What the context has for a name that the scope check lets through mentions only such names. -/
def ScopeClosed (b : Binding) : Prop :=
  ∀ y w, y ∈ b.scope ∨ b.before.isPatternVariable y →
    (b.before.environment b.ctx).lookup y = some w →
      w.Over fun z => z ∈ b.scope ∨ b.before.isPatternVariable z

/-- The scope check of a variable that stands alone has seen all that its solution mentions. -/
theorem ScopeClosed.value_over {b : Binding} (h : b.ScopeClosed) (hargs : b.spine.args = []) :
    b.value.Over fun z => z ∈ b.scope ∨ b.before.isPatternVariable z := by
  have hterm := b.term_eq
  rw [hargs, List.zip_nil_left, PatternSpine.abstracted, Eval.pure_eq_ok] at hterm
  have hparameters := b.parameters_eq
  rw [hargs, PatternSpine.parameters, Verdict.yields_pure] at hparameters
  refine (AddsNoParts.all _ b.fuel).eval b.value_eq ⟨b.term.all_named, fun y hy w hw => ?_,
    fun _ _ _ => trivial⟩
  rw [hterm] at hy
  rcases (b.of_mem_body hy).2 with hy | hy
  · rw [hparameters] at hy
    cases hy
  · exact h y w hy hw

end Binding

/-- Nested scopes are enough: a variable is confined to its scope if the variables that its solution
leads to stand alone and have no larger scopes. -/
theorem Logged.confined_of_nested {may : Solution → Name → Prop} {σ : Scopes} {log : List Binding}
    {s : Solution} (h : Logged may σ log s) {m : Name} {scope : List Name}
    (hlog : ∀ b ∈ log, ReflTransGen s.DependsOn m b.head →
      b.spine.args = [] ∧ b.ScopeClosed ∧ b.scope ⊆ scope) : s.Confined m scope := by
  intro z hlead hpattern
  obtain ⟨k, hmk, a, v, hk, hz⟩ := TransGen.tail'_iff.1 hlead
  obtain ⟨b, hb, rfl, -, rfl⟩ := h.find_eq_solved_iff.1 hk
  obtain ⟨hargs, hclosed, hscope⟩ := hlog b hb hmk
  rcases hclosed.value_over hargs (.name z) hz with hz | hz
  · exact hscope hz
  · rw [h.isPatternVariable_of_before hb hz] at hpattern
    cases hpattern

/-- Solutions stay in scope where every binding respects the scopes of all variables whose solutions
lead to it. -/
theorem solutions_in_scope_of_respecting {σ : Scopes} {s : Solution}
    (h : Reached (fun _ _ => True) σ s) :
    ∃ log, Logged (fun _ _ => True) σ log s ∧ ∀ m scope, σ.lookup m = some scope →
      (s.Confined m scope ↔ ∀ b ∈ log, ReflTransGen s.DependsOn m b.head → b.Respects s m scope) ∧
      (s.Confined m scope → ∀ a v n ctx t, s.find m = some (.solved a v) → s.reify n ctx v = .ok t →
        ∀ y ∈ t.freeNames, y ∈ scope ∨ s.isUnsolved y) := by
  obtain ⟨log, hlog⟩ := h.exists_log
  refine ⟨log, hlog, fun m scope hm => ⟨hlog.confined_iff hm, ?_⟩⟩
  intro hconf a v n ctx t hfind ht y hy
  exact hconf.reading hfind (hlog.namedIn.usedNames ctx) ht hy

namespace LateSolution

def m : Name := ⟨"m", 0⟩
def n : Name := ⟨"n", 0⟩
def y : Name := ⟨"y", 0⟩

def ctx : Context := Context.bind [] y y .type

/-- Two types are asked for: `m`, which may mention nothing, and `n`, which may mention `y`. -/
def opened : Solution := (Solution.create {} m .type []).create n .type [y]

def first : Solver Unit := unify 20 ctx .type (.variable .type m) (.variable .type n)

def second : Solver Unit := unify 20 ctx .type (.variable .type n) (.variable .type y)

def escaped : Solution := second.final (first.final opened)

theorem reached : Reached (fun _ _ => True) [(n, [y]), (m, [])] escaped := by
  have hfirst : first.succeeds opened := by decide +kernel
  have hsecond : second.succeeds (first.final opened) := by decide +kernel
  obtain ⟨_, hfirst⟩ := Solver.yields_final hfirst
  obtain ⟨_, hsecond⟩ := Solver.yields_final hsecond
  exact .solve (.solve (.create _ _ (.create _ _ .start trivial) trivial) hfirst) hsecond

/-- The normal form of the solution of `m` mentions `y`. -/
theorem reading_mentions_later :
    ∃ a v t, escaped.find m = some (.solved a v) ∧ escaped.reify 20 ctx v = .ok t ∧
      y ∈ t.freeNames := by
  have h : (escaped.find m).any fun
      | .solved _ v => gives (escaped.reify 20 ctx v) fun t => y ∈ t.freeNames
      | .unsolved _ _ => false := by decide +kernel
  obtain ⟨p, hp, h⟩ := (Option.any_eq_true _ _).1 h
  cases p with
  | unsolved => cases h
  | solved a v =>
    obtain ⟨t, ht, h⟩ := exists_of_gives h
    exact ⟨a, v, t, hp, ht, of_decide_eq_true h⟩

end LateSolution

/-- A variable with an empty scope whose solution comes to mention a name, and the binding that did
not respect it. -/
theorem late_solution_not_respecting :
    Reached (fun _ _ => True) [(LateSolution.n, [LateSolution.y]), (LateSolution.m, [])]
      LateSolution.escaped ∧
      ¬ LateSolution.escaped.Confined LateSolution.m [] ∧
      ∃ log, Logged (fun _ _ => True) [(LateSolution.n, [LateSolution.y]), (LateSolution.m, [])] log
          LateSolution.escaped ∧
        ¬ ∀ b ∈ log, ReflTransGen LateSolution.escaped.DependsOn LateSolution.m b.head →
          b.Respects LateSolution.escaped LateSolution.m [] := by
  obtain ⟨log, hlog, hscope⟩ := solutions_in_scope_of_respecting LateSolution.reached
  obtain ⟨hiff, hreading⟩ := hscope LateSolution.m [] (by decide)
  obtain ⟨a, v, t, hfind, ht, hy⟩ := LateSolution.reading_mentions_later
  have hsettled : LateSolution.escaped.isUnsolved LateSolution.y = false := by decide +kernel
  have hescape : ¬ LateSolution.escaped.Confined LateSolution.m [] := by
    intro hconf
    rcases hreading hconf a v 20 LateSolution.ctx t hfind ht LateSolution.y hy with h | h
    · simp at h
    · rw [hsettled] at h
      cases h
  exact ⟨LateSolution.reached, hescape, log, hlog, fun h => hescape (hiff.2 h)⟩

end DependentClasses
