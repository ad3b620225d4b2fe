import DependentClasses.Proofs.StandardElaboration
import DependentClasses.Proofs.Tidiness

/-! Programs in tidy scopes. Nothing is untidy at the start, and statements leave a tidy scope tidy,
so whatever programs lead to is tidy: none of them is refused for an internal reason, and none finds
a class that goes on with something else. -/
namespace DependentClasses

/-- The term is well formed and its type is tidy. -/
structure Inferred.Tidy (i : Inferred) : Prop where
  term : i.term.WellFormed True
  type : i.type.Tidy

def Answer.WellFormed (a : Answer) : Prop := ∀ t ∈ a.terms, t.WellFormed True

namespace Toplevel

/-- The definitions and the pattern variables of a scope are tidy. -/
structure Tidy (m : Toplevel) : Prop where
  context : m.context.Tidy
  solution : m.solution.Tidy

theorem Tidy.keeps {m : Toplevel} (h : m.Tidy) : m.Keeps Tidiness.standard :=
  ⟨h.context, h.solution⟩

theorem Tidy.answer {m m' : Toplevel} (h : m.Tidy) {n : Nat} {st : Statement} {a : Option Answer}
    (ha : m.answer n st = .ok (a, m')) : m'.Tidy :=
  let hkeeps := h.keeps.answer (fun _ _ => True.intro) ha
  ⟨hkeeps.context, hkeeps.solution⟩

theorem Tidy.note {m : Toplevel} (h : m.Tidy) {α : Type} (r : Reading α) : (m.note r).Tidy :=
  ⟨h.context, h.solution⟩

theorem Reachable.tidy {m : Toplevel} (h : m.Reachable) : m.Tidy := by
  induction h with
  | start => exact ⟨fun _ he => (List.not_mem_nil he).elim, .empty⟩
  | note symbols _ ih => exact ⟨ih.context, ih.solution⟩
  | relist l _ ih => exact ⟨ih.context, ih.solution⟩
  | answer _ ha ih => exact ih.answer ha

/-- A statement that is refused in a tidy scope is not refused for an internal reason. -/
theorem Tidy.failure {m : Toplevel} (h : m.Tidy) {n : Nat} {st : Statement} {f : Failure}
    (hf : m.answer n st = .error (.failure f)) : f.cause.isInternal = false :=
  h.keeps.failure (fun _ _ => True.intro) hf

/-- A step prints the answer of its statement, and has no answer only if the statement has none. -/
theorem step_eq (n : Nat) (m : Toplevel) (st : Statement) :
    m.step n st = (m.answer n st).map fun r => (r.1.map Answer.text, r.2) := by
  unfold step
  cases m.answer n st <;> rfl

theorem Tidy.failure_runAll {m : Toplevel} (h : m.Tidy) {n : Nat}
    {sts : List Statement} {f : Failure} (hf : (m.runAll n sts).1 = .error (.failure f)) :
    f.cause.isInternal = false := by
  induction sts generalizing m with
  | nil => cases hf
  | cons st sts ih =>
    unfold Toplevel.runAll at hf
    rw [step_eq] at hf
    cases ha : m.answer n st with
    | error t =>
      rw [ha] at hf
      cases hf
      exact h.failure ha
    | ok r =>
      -- What is refused later is refused in the scope that this statement leaves behind.
      refine ih (h.answer ha) ?_
      rw [ha] at hf
      dsimp only [Except.map] at hf
      split at hf
      · cases hf
      · next hrun =>
        cases hf
        rw [hrun]

theorem Tidy.failure_execute {m : Toplevel} (h : m.Tidy) {n : Nat} {source : String} {f : Failure}
    (hf : (m.execute n source).1 = .error (.failure f)) : f.cause.isInternal = false := by
  unfold Toplevel.execute at hf
  dsimp only at hf
  split at hf
  · cases hf
  · exact (h.note (Statement.listOfSource source)).failure_runAll hf

/-- The scope that programs leave behind when they are run one after another, each to its own depth
and whether it succeeds or not. -/
def afterAll (programs : List (Nat × String)) : Toplevel :=
  programs.foldl (fun m p => (m.execute p.1 p.2).2) {}

theorem reachable_afterAll (programs : List (Nat × String)) : (afterAll programs).Reachable := by
  have hall : ∀ m : Toplevel, m.Reachable →
      (programs.foldl (fun m p => (m.execute p.1 p.2).2) m).Reachable := by
    induction programs with
    | nil => exact fun m h => h
    | cons p programs ih =>
      intro m h
      rw [List.foldl_cons]
      exact ih _ (h.execute p.1 p.2)
  exact hall {} .start

end Toplevel

/-- No failure is internal: not of a program, whatever programs were run before it in the same
scope, and not of a statement in a scope that statements lead to. -/
theorem failures_never_internal :
    (∀ programs n source f, ((Toplevel.afterAll programs).execute n source).1 =
      .error (.failure f) →
      f.cause.isInternal = false) ∧
    ∀ m : Toplevel, m.Reachable → ∀ n st f, m.answer n st = .error (.failure f) →
      f.cause.isInternal = false := by
  constructor
  · exact fun programs n source f hf =>
      (Toplevel.reachable_afterAll programs).tidy.failure_execute hf
  · exact fun m hm n st f hf => hm.tidy.failure hf

namespace SwappedProperties

/-- A function with an implicit parameter, which every use of it has to solve. -/
def identity : String := "let id = (implicit T: Type, x: T) => x"

/-- The classes have their properties in different orders, and fulfil one of them with different
values. -/
def mismatch : String :=
  "check (p) => id(p): class \x7by: String = \"a\", x: String\x7d -> class \x7bx: String, y: String = \"b\"\x7d"

def refused : Bool :=
  match ((Toplevel.afterAll [(40, identity)]).execute 40 mismatch).1 with
  | .error (.failure _) => true
  | _ => false

theorem exists_failure :
    ∃ f, ((Toplevel.afterAll [(40, identity)]).execute 40 mismatch).1 = .error (.failure f) := by
  have h : refused := by decide +kernel
  unfold refused at h
  split at h
  · next f hf => exact ⟨f, hf⟩
  · cases h

end SwappedProperties

open SwappedProperties in
/-- A program that solves a pattern variable and compares classes out of order is refused, for a
reason that can be told. -/
theorem swapped_properties_told :
    ∃ f, ((Toplevel.afterAll [(40, identity)]).execute 40 mismatch).1 = .error (.failure f) ∧
      f.cause.isInternal = false := by
  obtain ⟨f, hf⟩ := exists_failure
  exact ⟨f, hf, failures_never_internal.1 [(40, identity)] 40 mismatch f hf⟩

/-- Classes and objects stay as they are represented. In a tidy scope, the terms that elaboration
and reading back find are well formed: the rest of a class is a class, and no class and no object
has a label twice. What they add to the context and to the solution is tidy again, also where they
are refused, and no class is ever found to go on with something else. -/
theorem representation_of_classes_kept {ctx : Context} (hctx : ctx.Tidy) {s : Solution}
    (hs : s.Tidy) (n : Nat) :
    (∀ e, (infer n ctx e).EndsFrom tidiness s Inferred.Tidy) ∧
    (∀ e a, Value.Tidy a → (check n ctx e a).EndsFrom tidiness s (Term.WellFormed True)) ∧
    (∀ members, (checkClass n ctx members).EndsFrom tidiness s (Term.WellFormed True)) ∧
    (∀ fields c, Chain.Tidy c →
      (checkFields n ctx fields c).EndsFrom tidiness s (Term.WellFormed True)) ∧
    (∀ args c, Chain.Tidy c → (checkArgs n ctx args c).EndsFrom tidiness s (Term.WellFormed True)) ∧
    (∀ label type value, (inferLet n ctx label type value).EndsFrom tidiness s
      fun r => r.1.Tidy ∧ r.2.2.1.WellFormed True ∧ r.2.2.2.WellFormed True) ∧
    (∀ v, Value.Tidy v → (s.reify n ctx v).Ends (· ≠ .brokenChain) (Term.WellFormed True)) ∧
    (∀ c, Chain.Tidy c → (s.reifyChain n ctx c).Ends (· ≠ .brokenChain) (Term.WellFormed True)) ∧
    ∀ lexicon st, (Statement.run n lexicon ctx st).EndsFrom tidiness s fun r => r.1.Tidy ∧
    ∀ a ∈ r.2, a.WellFormed := by
  have hall := ElaboratesKeeping.all Tidiness.standard n
  refine ⟨fun e => ?_, fun e a ha => ?_, fun members => ?_, fun fields c hc => ?_,
    fun args c hc => ?_,
    fun label type value => ?_, fun v hv => ?_, fun c hc => ?_, fun lexicon st => ?_⟩
  · exact (hall.infer hctx True.intro).mono (fun _ h => ⟨h.term, h.type⟩) s hs
  · exact hall.check hctx True.intro ha s hs
  · exact hall.checkClass hctx (fun _ _ => True.intro) s hs
  · exact hall.checkFields hctx (fun _ _ => True.intro) hc s hs
  · exact hall.checkArgs hctx (fun _ _ => True.intro) hc s hs
  · exact hall.inferLet label hctx (fun _ _ => True.intro) True.intro s hs
  · exact Tidiness.standard.reify n ctx hs hv
  · exact Tidiness.standard.reifyChain n ctx hs hc
  · exact Statement.run_keeps (S := Tidiness.standard) n lexicon hctx (fun _ _ => True.intro) s hs

namespace AddedProperty

def C : Name := ⟨"C", 0⟩
def x : Name := ⟨"x", 0⟩
def y : Name := ⟨"y", 0⟩
def z : Name := ⟨"z", 0⟩

def scope : Toplevel :=
  Toplevel.afterAll [(40, "let C = class \x7bx: String, y: String = \"a\"\x7d")]

open Form (bare)

def object : Expr := bare (.new (bare (.var C)) [(z, bare .sole), (x, bare (.quote "b"))])

def isComplete : Term → Bool
  | .object fields => fields.map Prod.fst = [x, y, z]
  | _ => false

theorem exists_object : ∃ fields a s,
    (infer 40 scope.context object).run.run scope.solution = .ok (.ok ⟨.object fields, a⟩, s) ∧
      fields.map Prod.fst = [x, y, z] := by
  have h : (infer 40 scope.context object).gives scope.solution fun i _ => isComplete i.term := by
    decide +kernel
  obtain ⟨⟨t, a⟩, s, hrun, h⟩ := Solver.exists_of_gives h
  unfold isComplete at h
  split at h
  · next fields ht =>
    dsimp only at ht
    subst ht
    exact ⟨fields, a, s, hrun, of_decide_eq_true h⟩
  · cases h

end AddedProperty

open AddedProperty in
/-- An object with the properties of its class and one of its own. -/
theorem extra_property_well_formed :
    scope.context.Tidy ∧ scope.solution.Tidy ∧ ∃ fields a s,
      (infer 40 scope.context object).run.run scope.solution = .ok (.ok ⟨.object fields, a⟩, s) ∧
        fields.map Prod.fst = [x, y, z] ∧ (Term.object fields).WellFormed True ∧
        a.Tidy ∧ s.Tidy := by
  have hscope : scope.Tidy := (Toplevel.reachable_afterAll _).tidy
  obtain ⟨fields, a, s, hrun, hlabels⟩ := exists_object
  obtain ⟨hs, hi⟩ :=
    ((representation_of_classes_kept hscope.context hscope.solution _).1 object).of_ok hrun
  exact ⟨hscope.context, hscope.solution, fields, a, s, hrun, hlabels, hi.term, hi.type, hs⟩

end DependentClasses
