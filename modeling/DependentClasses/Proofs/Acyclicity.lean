import DependentClasses.Proofs.Runs

/-! When solutions go round in a circle. A solved variable depends on the variables that its
solution mentions, anywhere in it. The occurs check keeps a binding from closing a circle
through its body; a circle can close only through names that the check does not look at. -/
namespace DependentClasses

open Relation

namespace Solution

variable {s : Solution}

/-- No variable depends on itself, at once or through others. -/
def Acyclic (s : Solution) : Prop := ∀ m, ¬ TransGen s.DependsOn m m

/-- The solution without what is known about `m`. -/
def forget (s : Solution) (m : Name) : Solution := { s with entries := s.entries.filter (·.1 ≠ m) }

theorem find_forget {m y : Name} : (s.forget m).find y = if y = m then none else s.find y := by
  unfold find forget
  induction s.entries with
  | nil => simp
  | cons e entries ih =>
    obtain ⟨z, p⟩ := e
    by_cases hz : z = m
    · simp only [List.filter_cons, hz, ne_eq, not_true_eq_false, decide_false,
        Bool.false_eq_true, if_false, lookup_cons_ite, ih]
      split <;> rfl
    · simp only [List.filter_cons, hz, ne_eq, not_false_eq_true, decide_true, if_true,
        lookup_cons_ite, ih]
      split
      · next h => rw [if_neg (h ▸ hz)]
      · rfl

theorem dependsOn_congr {s' : Solution}
    (h : ∀ m a v, s'.find m = some (.solved a v) ↔ s.find m = some (.solved a v)) :
    s'.DependsOn = s.DependsOn := by
  funext m k
  exact propext (exists_congr fun a => exists_congr fun v => and_congr_left fun _ => h m a v)

/-- An unsolved variable leads to nothing but itself. -/
theorem eq_of_leads {m k : Name} (hm : ¬ s.IsSolved m) (h : ReflTransGen s.DependsOn m k) :
    m = k := by
  rcases ReflTransGen.cases_head h with rfl | ⟨c, hc, -⟩
  · rfl
  · exact absurd hc.isSolved hm

/-- In an acyclic solution, what is found out about `m` plays no part in reading its own
solution. -/
theorem Acyclic.reading (h : s.Acyclic) {m : Name} {a v : Value}
    (hm : s.find m = some (.solved a v)) (n : Nat) {used : List Name} (hu : s.NamedIn used) :
    v.force n (s.forget m) = v.force n s ∧ v.reify n (s.forget m) used = v.reify n s used ∧
      ∀ t, v.reify n (s.forget m) used = .ok t → m ∉ t.freeNames := by
  have hkeeps := s.keeps_leads m
  have hover := Solution.over_leads hm
  have hfind : ∀ k, TransGen s.DependsOn m k → s.find k = (s.forget m).find k := by
    intro k hk
    rw [find_forget, if_neg]
    rintro rfl
    exact h k hk
  have hu' : (s.forget m).NamedIn used := by
    intro y p hy
    rw [find_forget] at hy
    split at hy
    · cases hy
    · exact hu y p hy
  have hread := (SameReadings.all s (s.forget m) n).value ⟨hkeeps, hu, hu', hfind⟩ hover
  refine ⟨(Value.force_congr hkeeps hfind hover).symm, hread.symm, fun t ht hmem => ?_⟩
  rw [← hread] at ht
  exact (((ReadsNormal.all s n).value hkeeps hu ht hover).free m hmem).2 ⟨a, v, hm⟩

end Solution

namespace Binding

variable (b : Binding)

/-- No name that the solution mentions outside its body leads back to the variable that is
solved. -/
def Clear : Prop :=
  ∀ z, b.value.Has (.name z) → z ∉ b.body.freeNames → ¬ ReflTransGen b.before.DependsOn z b.head

theorem dependsOn_after {m k : Name} :
    b.after.DependsOn m k ↔ b.before.DependsOn m k ∨ m = b.head ∧ b.value.Has (.name k) := by
  unfold Solution.DependsOn
  rw [b.find_after]
  split
  · next hm =>
    constructor
    · rintro ⟨a, v, h, hk⟩
      cases h
      exact .inr ⟨hm, hk⟩
    · rintro (⟨a, v, h, -⟩ | ⟨-, hk⟩)
      · exact absurd ⟨a, v, hm ▸ h⟩ b.not_isSolved_head
      · exact ⟨b.type, b.value, rfl, hk⟩
  · next hm => simp [hm]

/-- A path to the variable that is solved needs none of the new dependencies, which start there. -/
theorem leads_before {z : Name} (h : ReflTransGen b.after.DependsOn z b.head) :
    ReflTransGen b.before.DependsOn z b.head := by
  induction h using ReflTransGen.head_induction_on with
  | refl => exact .refl
  | head hzc _ ih =>
    rcases b.dependsOn_after.1 hzc with hzc | ⟨rfl, -⟩
    · exact .head hzc ih
    · exact .refl

/-- A new path goes through the variable that is solved. -/
theorem transGen_after {m k : Name} (h : TransGen b.after.DependsOn m k) :
    TransGen b.before.DependsOn m k ∨
      ReflTransGen b.after.DependsOn m b.head ∧ TransGen b.after.DependsOn b.head k := by
  induction h using TransGen.head_induction_on with
  | single hmk =>
    rcases b.dependsOn_after.1 hmk with hold | ⟨rfl, -⟩
    · exact .inl (.single hold)
    · exact .inr ⟨.refl, .single hmk⟩
  | head hmc hck ih =>
    rcases b.dependsOn_after.1 hmc with hold | ⟨rfl, -⟩
    · exact ih.imp (fun h => .head hold h) fun h => ⟨.head hmc h.1, h.2⟩
    · exact .inr ⟨.refl, .head hmc hck⟩

/-- A binding closes a circle exactly if something that the solution mentions leads back. -/
theorem acyclic_after :
    b.after.Acyclic ↔
      b.before.Acyclic ∧ ∀ z, b.value.Has (.name z) →
      ¬ ReflTransGen b.before.DependsOn z b.head := by
  have hmono : ∀ m k, b.before.DependsOn m k → b.after.DependsOn m k :=
    fun m k h => b.dependsOn_after.2 (.inl h)
  have hnew : ∀ z, b.value.Has (.name z) → b.after.DependsOn b.head z :=
    fun z hz => b.dependsOn_after.2 (.inr ⟨rfl, hz⟩)
  constructor
  · intro h
    refine ⟨fun m hm => h m (TransGen.mono hmono m m hm), fun z hz hlead => h b.head ?_⟩
    exact .head' (hnew z hz) (ReflTransGen.mono hmono z b.head hlead)
  · rintro ⟨hold, hclear⟩ m hm
    rcases b.transGen_after hm with hm | ⟨hm, hback⟩
    · exact hold m hm
    · -- the circle passes through the head, so it can be read as one that starts there
      obtain ⟨z, hz, hlead⟩ := TransGen.head'_iff.1 (hback.trans_left hm)
      rcases b.dependsOn_after.1 hz with hz | ⟨-, hz⟩
      · exact b.not_isSolved_head hz.isSolved
      · exact hclear z hz (b.leads_before hlead)

/-- The occurs check covers the names of the body. -/
theorem clear_iff (hnamed : b.before.NamedIn b.before.names) :
    (∀ z, b.value.Has (.name z) → ¬ ReflTransGen b.before.DependsOn z b.head) ↔ b.Clear := by
  refine ⟨fun h z hz _ => h z hz, fun h z hz hlead => ?_⟩
  by_cases hbody : z ∈ b.body.freeNames
  · have heq := Solution.eq_of_leads (b.not_isSolved_of_mem_body hnamed hbody) hlead
    exact (b.of_mem_body hbody).1 heq
  · exact h z hz hbody hlead

end Binding

/-- A variable with an unused name is created. -/
def Unused (s : Solution) (x : Name) : Prop := x ∉ s.names

theorem Logged.acyclic_iff {σ : Scopes} {log : List Binding} {s : Solution}
    (h : Logged Unused σ log s) :
    s.Acyclic ↔ ∀ b ∈ log, b.Clear := by
  induction h with
  | start =>
    simp only [List.not_mem_nil, false_implies, implies_true, iff_true]
    intro m hm
    obtain ⟨k, ⟨a, v, hfind, -⟩, -⟩ := TransGen.head'_iff.1 hm
    cases hfind
  | @create σ log s x a scope hlog hx ih =>
    have hfree : s.find x = none :=
      Option.eq_none_iff_forall_ne_some.2 fun p hp => hx (hlog.namedIn x p hp)
    have hdep : (s.create x a scope).DependsOn = s.DependsOn := by
      refine Solution.dependsOn_congr fun m b v => ?_
      rw [Solution.find_create]
      split
      · next hm => simp [hm, hfree]
      · rfl
    have hkeep : log.filter (·.head ≠ x) = log := by
      refine List.filter_eq_self.2 fun b hb => decide_eq_true fun hbx => ?_
      have hsolved := hlog.find_eq_solved_iff.2 ⟨b, hb, rfl, rfl, rfl⟩
      rw [hbx, hfree] at hsolved
      cases hsolved
    rw [hkeep, ← ih]
    unfold Solution.Acyclic
    rw [hdep]
  | reserve xs _ ih => exact ih
  | bind b hlog ih =>
    rw [b.acyclic_after, ih, b.clear_iff hlog.namedIn, List.forall_mem_cons, and_comm]

/-- Solutions are acyclic exactly if no binding mentions, in an annotation or a type that it
records, a name that leads back to its variable. Then no variable plays a part in reading its own
solution. -/
theorem acyclic_iff_bindings_clear {σ : Scopes} {s : Solution} (h : Reached Unused σ s) :
    ∃ log, Logged Unused σ log s ∧ (s.Acyclic ↔ ∀ b ∈ log, b.Clear) ∧
      (s.Acyclic → ∀ m a v, s.find m = some (.solved a v) → ∀ n used, s.NamedIn used →
        v.force n (s.forget m) = v.force n s ∧ v.reify n (s.forget m) used = v.reify n s used ∧
          ∀ t, v.reify n (s.forget m) used = .ok t → m ∉ t.freeNames) := by
  obtain ⟨log, hlog⟩ := h.exists_log
  exact ⟨log, hlog, hlog.acyclic_iff, fun hacyclic m a v hm n used hu => hacyclic.reading hm n hu⟩

namespace AnnotationCycle

def m : Name := ⟨"m", 0⟩
def n : Name := ⟨"n", 0⟩
def p : Name := ⟨"p", 0⟩
def x : Name := ⟨"x", 0⟩

def toType (a : Value) : Value := .pi .explicit a ⟨[], .anonymous, .type⟩

def ctx : Context := Context.bind [] p p (toType (.classOf .nil))

/-- A type `n` and a function `m` from it are asked for. -/
def opened : Solution := (Solution.create {} n .type [p]).create m (toType (.variable .type n)) [p]

/-- `n` is the type of an object that holds `m`. -/
def first : Solver Unit :=
  unify 20 ctx .type (.variable .type n)
    (.neutral .type
    (.app .explicit (.var p) (.classOf .nil)
      (.object [(m, .variable (toType (.variable .type n)) m)])))

/-- `m` is constant. Its argument is annotated with the type `n`. -/
def second : Solver Unit :=
  unify 20 (ctx.bind x x (.variable .type n)) .type
    (.neutral .type (.app .explicit (.var m) (.variable .type n) (.variable (.variable .type n) x)))
    .string

def closed : Solution := second.final (first.final opened)

theorem reached : Reached Unused [(m, [p]), (n, [p])] closed := by
  have hn : Unused {} n := by simp [Unused]
  have hm : Unused (Solution.create {} n .type [p]) m := by unfold Unused; decide
  have hfirst : first.succeeds opened := by decide +kernel
  have hsecond : second.succeeds (first.final opened) := by decide +kernel
  obtain ⟨_, hfirst⟩ := Solver.yields_final hfirst
  obtain ⟨_, hsecond⟩ := Solver.yields_final hsecond
  exact .solve (.solve (.create _ _ (.create _ _ .start hn) hm) hfirst) hsecond

def annotatedWithSelf : Option PatternVariable → Bool
  | some (.solved _ (.fn _ (.neutral _ (.app _ _ _ (.object [(_, .neutral _ (.var y))]))) _)) =>
    y = m
  | _ => false

theorem dependsOn_self : closed.DependsOn m m := by
  have h : annotatedWithSelf (closed.find m) := by decide +kernel
  unfold annotatedWithSelf at h
  split at h
  · next hfind =>
    obtain rfl := of_decide_eq_true h
    exact ⟨_, _, hfind,
      .fnDomain (.neutralSpine (.appArg (.objectField List.mem_cons_self (.neutralSpine .var))))⟩
  · cases h

end AnnotationCycle

/-- A circle through the annotation of a solution, and the binding that closed it. -/
theorem annotation_cycle_not_clear :
    Reached Unused [(AnnotationCycle.m, [AnnotationCycle.p]),
        (AnnotationCycle.n, [AnnotationCycle.p])]
        AnnotationCycle.closed ∧
      ¬ AnnotationCycle.closed.Acyclic ∧
      ∃ log, Logged Unused [(AnnotationCycle.m, [AnnotationCycle.p]),
        (AnnotationCycle.n, [AnnotationCycle.p])] log
        AnnotationCycle.closed ∧ ¬ ∀ b ∈ log, b.Clear := by
  have hcycle : ¬ AnnotationCycle.closed.Acyclic :=
    fun h => h AnnotationCycle.m (.single AnnotationCycle.dependsOn_self)
  obtain ⟨log, hlog, hiff, -⟩ := acyclic_iff_bindings_clear AnnotationCycle.reached
  exact ⟨AnnotationCycle.reached, hcycle, log, hlog, fun h => hcycle (hiff.2 h)⟩

end DependentClasses
