import DependentClasses.Proofs.Fuel
import DependentClasses.Proofs.SimilarReadings

/-! The value of a term does not depend on the names of its binders, nor on what the environment
holds for names that do not occur free in it. Values that come from such terms are similar without
any renaming, and only the names of the variables that occur in them have to be avoided when they
are read back. -/
namespace DependentClasses

def Item.Has : Item → Part → Prop
  | .value v, q => v.Has q
  | .spine e, q => e.Has q
  | .chain c, q => c.Has q
  | .closure c, q => c.Has q

/-- A renaming matters only for the variables that occur. -/
theorem Similar.restrict {ρ ρ' : Renaming} {i j : Item} (h : Similar ρ i j)
    (hρ : ∀ y y', i.Has (.name y) → ρ y y' → ρ' y y') : Similar ρ' i j := by
  induction h with
  | type | string | quote | trivial | sole | nil => constructor
  | var hx => exact .var (hρ _ _ .var hx)
  | neutral _ _ iha ihe =>
    exact .neutral (iha fun y y' hy => hρ y y' (.neutralType hy))
      (ihe fun y y' hy => hρ y y' (.neutralSpine hy))
  | pi _ _ iha ihc =>
    exact .pi (iha fun y y' hy => hρ y y' (.piDomain hy))
      (ihc fun y y' hy => hρ y y' (.piCodomain hy))
  | fn _ _ iha ihc =>
    exact .fn (iha fun y y' hy => hρ y y' (.fnDomain hy)) (ihc fun y y' hy => hρ y y' (.fnBody hy))
  | sigma _ _ iha ihc =>
    exact .sigma (iha fun y y' hy => hρ y y' (.sigmaCar hy))
      (ihc fun y y' hy => hρ y y' (.sigmaCdr hy))
  | cons _ _ iha ihb =>
    exact .cons (iha fun y y' hy => hρ y y' (.consCar hy))
      (ihb fun y y' hy => hρ y y' (.consCdr hy))
  | equal _ _ _ iha ihl ihr =>
    exact .equal (iha fun y y' hy => hρ y y' (.equalType hy))
      (ihl fun y y' hy => hρ y y' (.equalLeft hy)) (ihr fun y y' hy => hρ y y' (.equalRight hy))
  | same _ ih => exact .same (ih fun y y' hy => hρ y y' (.same hy))
  | classOf _ ih => exact .classOf (ih fun y y' hy => hρ y y' (.classOf hy))
  | object hlabels _ ih =>
    refine .object hlabels fun i f f' hf hf' => ih i f f' hf hf' fun y y' hy => ?_
    exact hρ y y' (.objectField (List.mem_of_getElem? hf) hy)
  | app _ _ _ ihe iha ihv =>
    exact .app (ihe fun y y' hy => hρ y y' (.appTarget hy))
      (iha fun y y' hy => hρ y y' (.appType hy)) (ihv fun y y' hy => hρ y y' (.appArg hy))
  | car _ ih => exact .car (ih fun y y' hy => hρ y y' (.car hy))
  | cdr _ ih => exact .cdr (ih fun y y' hy => hρ y y' (.cdr hy))
  | dot _ ih => exact .dot (ih fun y y' hy => hρ y y' (.dot hy))
  | declared _ _ iha ihc =>
    exact .declared (iha fun y y' hy => hρ y y' (.declaredType hy))
      (ihc fun y y' hy => hρ y y' (.declaredClosure hy))
  | fulfilled _ _ _ iha ihv ihc =>
    exact .fulfilled (iha fun y y' hy => hρ y y' (.fulfilledType hy))
      (ihv fun y y' hy => hρ y y' (.fulfilledValue hy))
      (ihc fun y y' hy => hρ y y' (.fulfilledRest hy))
  | closure halike _ hmissing ih =>
    -- what is kept for a name that does not occur in the body is not compared
    refine .closure halike (fun z hz hne z' hz' hne' hθ w w' hw hw' => ?_) hmissing
    exact ih z hz hne z' hz' hne' hθ w w' hw hw' fun y y' hy => hρ y y' (.kept hz hne hw hy)

/-- Values that are similar without renaming may be compared on the names that one of them
mentions. -/
theorem Value.Similar.only {X : Name → Prop} {v v' : Value} (h : v.Similar Eq v') (hv : v.Over X) :
    v.Similar (.only X) v' :=
  h.restrict fun y _ hy heq => ⟨heq, hv (.name y) hy⟩

section

variable {c c' : Term} {env env' : Environment} {n : Nat}

/-- Terms that are equal up to the names of binders have similar values, if the environments agree
on the names that occur free. -/
theorem eval_similar_of_agree (h : c.alphaEquivalent c')
    (henv : ∀ y ∈ c.freeNames, env.lookup y = env'.lookup y) {v : Value}
    (hv : eval n env c = .ok v) : ∃ v', eval n env' c' = .ok v' ∧ v.Similar Eq v' := by
  refine (ComputesSimilarly.all Eq n).eval (θ := Eq) ⟨Term.alphaEquivalent_iff.1 h, ?_⟩ v hv
  rintro y hy _ - rfl
  rw [← henv y hy]
  exact lookup_similar_self env y fun _ _ _ _ => rfl

/-- Evaluation respects the renaming of binders and looks only at free names. Whenever the value of
a term has a normal form, every term that is equal to it up to the names of binders has a value with
the same normal form, in every environment that agrees on the free names. The binders of normal
forms have to avoid the names of the variables that the value and the solution mention. -/
theorem evaluation_respects_alpha (h : c.alphaEquivalent c')
    (henv : ∀ y ∈ c.freeNames, env.lookup y = env'.lookup y) {s : Solution} {ctx : Context}
    (hnamed : s.NamedIn s.names) (hstored : s.Over (· ∈ s.usedNames ctx)) {v : Value}
    (hv : eval n env c = .ok v) (hnames : v.Over (· ∈ s.usedNames ctx)) {m : Nat} {t : Term}
    (ht : s.reify m ctx v = .ok t) :
    (∃ v' t', eval n env' c' = .ok v' ∧ s.reify m ctx v' = .ok t' ∧ t.alphaEquivalent t') ∧
      ∀ n' m' v' t', eval n' env' c' = .ok v' → s.reify m' ctx v' = .ok t' →
      t.alphaEquivalent t' := by
  obtain ⟨w, hw, hsimilar⟩ := eval_similar_of_agree h henv hv
  have hused := hnamed.usedNames ctx
  obtain ⟨u, hu, halpha⟩ :=
    (hsimilar.only hnames).reify hstored (fun _ hy => ⟨hy, hy⟩) hused hused ht
  refine ⟨⟨w, u, hw, hu, halpha⟩, fun n' m' v' t' hv' ht' => ?_⟩
  cases eval_unique hw hv'
  cases Value.reify_unique hu ht'
  exact halpha

end

namespace ShadowedBinder

def P : Name := ⟨"P", 0⟩
def k : Name := ⟨"k", 0⟩
def l : Name := ⟨"l", 0⟩
def x : Name := ⟨"x", 0⟩
def y : Name := ⟨"y", 0⟩
def z : Name := ⟨"z", 0⟩

def family : Value := .pi .explicit .type ⟨[], x, .type⟩

/-- One of the names that are in use is also the name of binders. -/
def ctx : Context := (Context.bind [] x x .type).bind P P family

/-- The name of the binder, of its body's binder and of a property is the same. -/
def shadowing : Term :=
  .fn .explicit x .type (.fn .explicit x (.app .explicit (.var P) (.var x))
    (.declared k x .type (.declared l y (.app .explicit (.var P) (.var x)) .emptyClass)))

/-- The same function, with a name of its own for each binder. -/
def separate : Term :=
  .fn .explicit z .type (.fn .explicit y (.app .explicit (.var P) (.var z))
    (.declared k x .type (.declared l l (.app .explicit (.var P) (.var x)) .emptyClass)))

/-- What is held for the names of binders does not matter. -/
def other : Environment := [(y, .sole), (P, .variable family P)]

def normalForm : Option (Value × Term) :=
  match eval 10 ctx.environment shadowing with
  | .error _ => none
  | .ok v =>
    match Solution.reify 10 {} ctx v with
    | .error _ => none
    | .ok t => some (v, t)

theorem exists_normalForm :
    ∃ v t, eval 10 ctx.environment shadowing = .ok v ∧ Solution.reify 10 {} ctx v = .ok t := by
  have h : normalForm.isSome := by decide +kernel
  unfold normalForm at h
  split at h
  · cases h
  · next v hv =>
    split at h
    · cases h
    · next t ht => exact ⟨v, t, hv, ht⟩

theorem over_ctx {n : Nat} {v : Value} (hv : eval n ctx.environment shadowing = .ok v) :
    v.Over (· ∈ Solution.usedNames {} ctx) := by
  refine (AddsNoParts.all _ n).eval hv ⟨Term.all_named _, fun w hw u hu => ?_, fun _ _ _ => trivial⟩
  have hP : w = P := List.mem_singleton.1 ((by decide : shadowing.freeNames = [P]) ▸ hw)
  subst hP
  cases hu
  refine Value.all_variable.2 ⟨Value.all_pi.2 ⟨Value.all_type, ?_⟩, List.mem_cons_self⟩
  exact Closure.all_iff.2 ⟨Term.all_type, fun _ hy => by cases hy⟩

end ShadowedBinder

open ShadowedBinder in
/-- A function whose binders hide each other, and the same function with other names, in
environments that agree on `P` only. -/
theorem shadowing_binders_agree :
    shadowing.alphaEquivalent separate ∧ ctx.environment.lookup y ≠ other.lookup y ∧
      ∃ v t, eval 10 ctx.environment shadowing = .ok v ∧ Solution.reify 10 {} ctx v = .ok t ∧
        ∃ v' t', eval 10 other separate = .ok v' ∧ Solution.reify 10 {} ctx v' = .ok t' ∧
        t.alphaEquivalent t' := by
  have halpha : shadowing.alphaEquivalent separate := by decide
  have hagree : ∀ w ∈ shadowing.freeNames, ctx.environment.lookup w = other.lookup w := by
    intro w hw
    have hP : w = P := List.mem_singleton.1 ((by decide : shadowing.freeNames = [P]) ▸ hw)
    subst hP
    rfl
  have hempty (x : Name) (p : PatternVariable) (hx : ({} : Solution).find x = some p) : False := by
    simp at hx
  obtain ⟨v, t, hv, ht⟩ := exists_normalForm
  refine ⟨halpha, nofun, v, t, hv, ht, ?_⟩
  exact (evaluation_respects_alpha halpha hagree (fun x p hx => (hempty x p hx).elim)
    (fun x p hx => (hempty x p hx).elim) hv (over_ctx hv) ht).1

end DependentClasses
