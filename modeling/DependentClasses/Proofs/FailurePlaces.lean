import DependentClasses.Proofs.StandardElaboration
import DependentClasses.Proofs.Success
import DependentClasses.Surface.Source

/-! Where failures of elaboration are placed. Values know nothing of the text that they come from:
comparing, unifying and including them is refused without a place. Such a refusal gets the place of
the innermost expression that is being elaborated, and keeps it on its way out through the
expressions around. -/
namespace DependentClasses

/-- A failure that has a place has that of an expression inside `root`. Nothing else is asked of a
computation. -/
def placedIn (root : Expr) : Discipline :=
  ⟨fun _ => True, fun _ => True, fun f => ∀ span, f.span = some span →
    ∃ sub : Expr, sub.Within root ∧ sub.span = span⟩

theorem Eval.ends_any {α : Type} (x : Eval α) : x.Ends (fun _ => True) fun _ => True := by
  rcases x with (_ | _) | _ <;> exact True.intro

section

variable {root : Expr}

/-- Nothing is asked of the things that a failure has no place from. -/
def placement (root : Expr) : Requirements where
  toDiscipline := placedIn root
  value _ := True
  spine _ := True
  chain _ := True
  closure _ := True
  term _ := True
  context _ := True
  applied _ := True
  parted := True
  selected _ := True
  asked _ := True
  labelled := False

theorem placement_computing : (placement root).OfComputations := by
  constructor <;> intros <;> exact (Eval.ends_any _).mono (by simp [placement])

/-- A failure that is given a place keeps the one that it has. -/
theorem placedIn_locate {e : Expr} {f : Failure} (he : e.Within root)
    (hf : (placedIn root).failure f) :
    (placedIn root).failure (f.locate e.span) := by
  intro span hspan
  cases hplace : f.span with
  | none =>
    rw [Failure.locate, hplace] at hspan
    exact ⟨e, he, Option.some.inj hspan⟩
  | some place =>
    rw [Failure.locate, hplace] at hspan
    exact hf span (hplace.trans hspan)

def placedStandard (root : Expr) : WrittenStandard where
  toRequirements := placement root
  values := by constructor <;> simp [placement]
  terms := by constructor <;> simp [placement]
  scopes := by constructor <;> simp [placement, placedIn]
  refusals := ⟨fun _ => nofun, fun _ _ => nofun, fun _ hf => hf⟩
  computing := placement_computing
  expr e := e.Within root
  form f := ∀ part ∈ f.parts, part.Within root
  member m := ∀ part ∈ m.parts, part.Within root
  form_of_expr he _ hpart := he.part hpart
  parts := id
  members h m hm part hpart := h part (List.mem_flatMap.2 ⟨m, hm, hpart⟩)
  member_parts := id
  pi _ _ := True.intro
  fn _ := True.intro
  app _ := True.intro
  car _ := True.intro
  cdr _ := True.intro
  dot _ := True.intro
  declared _ := True.intro
  locate := placedIn_locate

/-- A failure that leaves an expression has a place. -/
theorem Solver.Ends.exists_place {α : Type} {span : Span} {x : Solver α} {Q : α → Prop}
    (h : (Solver.locating span x).Ends (placedIn root) Q) {s s' : Solution} {f : Failure}
    (hf : (Solver.locating span x).run.run s = .ok (.error f, s')) :
    ∃ sub : Expr, sub.Within root ∧ f.span = some sub.span := by
  have hplaced := ((h s True.intro).of_refused hf).2
  obtain ⟨place, hspan⟩ : ∃ place, f.span = some place := by
    rw [Solver.run_locating] at hf
    obtain ⟨r, -, hr⟩ := Eval.map_eq_ok.1 hf
    cases hfailed : r.1 with
    | ok a => simp [hfailed, Except.mapError] at hr
    | error g =>
      obtain ⟨rfl, -⟩ : f = g.locate span ∧ s' = r.2 := by simpa [hfailed, Except.mapError] using hr
      exact ⟨_, rfl⟩
  obtain ⟨sub, hsub, hsame⟩ := hplaced place hspan
  exact ⟨sub, hsub, by rw [hspan, hsame]⟩

end

/-- Where elaboration fails, the failure has the place of the expression that is elaborated, or of
one inside of it. -/
theorem failures_point_into_expression (n : Nat) (ctx : Context) (e : Expr) (s : Solution) :
    (∀ f s', (infer n ctx e).run.run s = .ok (.error f, s') → ∃ sub : Expr, sub.Within e ∧
      f.span = some sub.span) ∧
      ∀ a f s', (check n ctx e a).run.run s = .ok (.error f, s') →
        ∃ sub : Expr, sub.Within e ∧ f.span = some sub.span := by
  have hplaced := ElaboratesKeeping.all (placedStandard e) n
  cases n with
  | zero =>
    refine ⟨fun f s' hf => ?_, fun a f s' hf => ?_⟩
    · rw [infer] at hf; cases hf
    · rw [check] at hf; cases hf
  | succ n =>
    refine ⟨fun f s' hf => ?_, fun a f s' hf => ?_⟩
    · have hinfer : (infer (n + 1) ctx e).Ends (placedIn e) _ := hplaced.infer True.intro (.refl e)
      rw [infer] at hf hinfer
      exact hinfer.exists_place hf
    · have hcheck : (check (n + 1) ctx e a).Ends (placedIn e) _ :=
        hplaced.check True.intro (.refl e) True.intro
      rw [check] at hf hcheck
      exact hcheck.exists_place hf

namespace SuppliedParameter

/-- A function without the implicit parameter that its type has. What it returns is not of the
promised type. -/
def text : String := "the((implicit T: Type, x: T) -> T, (x) => \"é\")"

def places : Option (Span × Option Span) :=
  match (Expr.ofSource text).outcome with
  | .ok e =>
    match (infer 40 [] e).run.run {} with
    | .ok (.error f, _) => some (e.span, f.span)
    | _ => none
  | .error _ => none

theorem exists_failure : ∃ e f s, (Expr.ofSource text).outcome = .ok e ∧
    (infer 40 [] e).run.run {} = .ok (.error f, s) ∧ e.span = ⟨0, 47⟩ ∧ f.span = some ⟨42, 46⟩ := by
  have h : places = some (⟨0, 47⟩, some ⟨42, 46⟩) := by decide +kernel
  unfold places at h
  split at h
  · next e he =>
    split at h
    · next f s hf =>
      obtain ⟨hspan, hplace⟩ := Prod.mk.inj (Option.some.inj h)
      exact ⟨e, f, s, he, hf, hspan, hplace⟩
    · cases h
  · cases h

end SuppliedParameter

open SuppliedParameter in
/-- The body is checked below a parameter that is supplied. The types do not fit, and the failure
has the place of the body, not that of the function, which is checked twice. -/
theorem supplied_parameter_placed : ∃ e f s, (Expr.ofSource text).outcome = .ok e ∧
    (infer 40 [] e).run.run {} = .ok (.error f, s) ∧ f.span = some ⟨42, 46⟩ ∧
      ∃ sub : Expr, sub.Within e ∧ sub ≠ e ∧ f.span = some sub.span := by
  obtain ⟨e, f, s, he, hf, hspan, hplace⟩ := exists_failure
  obtain ⟨sub, hsub, hsame⟩ := (failures_point_into_expression 40 [] e {}).1 f s hf
  refine ⟨e, f, s, he, hf, hplace, sub, hsub, ?_, hsame⟩
  rintro rfl
  rw [hplace, hspan] at hsame
  exact absurd hsame (by decide)

end DependentClasses
