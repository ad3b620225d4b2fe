import DependentClasses.Proofs.ClosedValues
import DependentClasses.Proofs.Standards

/-! Tidy values: whatever they reach, classes go on with classes, and neither a class nor an object
has a label twice. Computing keeps values tidy, and never finds a class that goes on with something
else. -/
namespace DependentClasses

/-- The value is built from well-formed terms only. -/
def Value.Tidy (v : Value) : Prop := v.Every (Part.WellFormed True)

def Neutral.Tidy (e : Neutral) : Prop := e.Every (Part.WellFormed True)

def Chain.Tidy (c : Chain) : Prop := c.Every (Part.WellFormed True)

def Closure.Tidy (c : Closure) : Prop := c.Every (Part.WellFormed True)

def Environment.Tidy (env : Environment) : Prop := env.Every (Part.WellFormed True)

def PatternVariable.Tidy : PatternVariable → Prop
  | .unsolved a _ => a.Tidy
  | .solved a v => a.Tidy ∧ v.Tidy

def Solution.Tidy (s : Solution) : Prop := ∀ x p, s.find x = some p → p.Tidy

structure Context.Entry.Tidy (e : Context.Entry) : Prop where
  type : e.type.Tidy
  value : ∀ v ∈ e.value, v.Tidy

def Context.Tidy (ctx : Context) : Prop := ∀ e ∈ ctx, e.Tidy

/-- Solutions stay tidy, no class is found to go on with something else and no failure is
internal. -/
def tidiness : Discipline where
  solution := Solution.Tidy
  fault cause := cause ≠ .brokenChain
  failure f := f.cause.isInternal = false

theorem Eval.Ends.tidy {α : Type} {x : Eval α} {Q : α → Prop}
    (h : x.Ends (Fault.Within (Part.WellFormed True)) Q) :
    x.Ends tidiness.fault Q := by
  refine h.imp ?_ fun _ => id
  rintro cause hcause rfl
  obtain ⟨t, hclass, hrest⟩ := hcause
  exact hclass hrest

theorem Value.Tidy.variable {a : Value} (h : a.Tidy) (x : Name) : (Value.variable a x).Tidy :=
  Value.every_variable.2 ⟨h, True.intro⟩

theorem Chain.Tidy.nodup {c : Chain} (h : c.Tidy) : c.classLabels.Nodup :=
  Chain.nodup_classLabels h.all

theorem Chain.tidy_fulfilled {k : Name} {a v : Value} {c : Chain} :
    (Chain.fulfilled k a v c).Tidy ↔ k ∉ c.classLabels ∧ a.Tidy ∧ v.Tidy ∧ c.Tidy := by
  refine Chain.every_fulfilled.trans ⟨?_, ?_⟩
  · rintro ⟨hlabels, ha, hv, hc⟩
    exact ⟨(List.nodup_cons.1 hlabels).1, ha, hv, hc⟩
  · rintro ⟨hk, ha, hv, hc⟩
    exact ⟨List.nodup_cons.2 ⟨hk, Chain.Tidy.nodup hc⟩, ha, hv, hc⟩

namespace Context.Tidy

variable {ctx : Context} {a v : Value}

theorem bind (h : ctx.Tidy) (ha : a.Tidy) (label x : Name) : (ctx.bind label x a).Tidy :=
  List.forall_mem_cons.2 ⟨⟨ha, by simp⟩, h⟩

theorem define (h : ctx.Tidy) (ha : a.Tidy) (hv : v.Tidy) (label x : Name) :
    (ctx.define label x a v).Tidy :=
  List.forall_mem_cons.2 ⟨⟨ha, by simpa using hv⟩, h⟩

theorem find (h : ctx.Tidy) {label : Name} {e : Entry} (he : ctx.find label = some e) : e.Tidy :=
  h e (List.mem_of_find?_eq_some he)

theorem reading (h : ctx.Tidy) {e : Entry} (he : e ∈ ctx) : e.reading.Tidy := by
  unfold Entry.reading
  cases hv : e.value with
  | none => exact (h e he).type.variable e.name
  | some v => exact (h e he).value v hv

end Context.Tidy

namespace Solution.Tidy

variable {s : Solution} {ctx : Context} {x : Name}

theorem empty : Solution.Tidy {} := fun _ _ h => by simp at h

theorem create (h : s.Tidy) {a : Value} (ha : a.Tidy) (x : Name) (scope : List Name) :
    (s.create x a scope).Tidy := by
  intro y p hp
  rw [Solution.find_create] at hp
  split at hp
  · cases hp; exact ha
  · exact h y p hp

theorem bind (h : s.Tidy) {v : Value} (hv : v.Tidy) (x : Name) : (s.bind x v).Tidy := by
  intro y p hp
  by_cases hy : y = x
  · subst hy
    cases hold : s.find y with
    | none =>
      rw [Solution.find_bind, hold] at hp
      simp at hp
    | some old =>
      rw [Solution.find_bind_self hold] at hp
      cases hp
      have hold := h y old hold
      cases old with
      | unsolved a scope => exact ⟨hold, hv⟩
      | solved a w => exact ⟨hold.1, hv⟩
  · rw [Solution.find_bind_of_ne hy] at hp
    exact h y p hp

theorem environment (h : s.Tidy) (hctx : ctx.Tidy) : (s.environment ctx).Tidy := by
  intro y w hw
  rw [Solution.lookup_environment] at hw
  split at hw
  · next p hp =>
    cases hw
    have hp := h y p hp
    cases p with
    | unsolved a scope => exact Value.Tidy.variable hp y
    | solved a v => exact hp.2
  · rw [Context.lookup_environment, Option.map_eq_some_iff] at hw
    obtain ⟨e, he, rfl⟩ := hw
    exact hctx.reading (List.mem_of_find?_eq_some he)

end Solution.Tidy

/-- What a class goes on with is a class, and has the labels that are written. -/
theorem Closure.applyChain_tidy (n : Nat) {c : Closure} {v : Value}
    (hclass : c.body.IsClass) (hc : c.Tidy) (hv : v.Tidy) :
    (c.applyChain n v).Ends tidiness.fault fun d => d.Tidy ∧ d.classLabels = c.body.classLabels :=
  ((EvaluatesWithin.all _ n).applyChain hclass hc hv).tidy.and_of_ok fun _ =>
    Closure.applyChain_classLabels hclass

namespace Tidiness

def requirements : Requirements where
  toDiscipline := tidiness
  value := Value.Tidy
  spine := Neutral.Tidy
  chain := Chain.Tidy
  closure := Closure.Tidy
  term := Term.WellFormed True
  context := Context.Tidy
  applied _ := True
  parted := True
  selected _ := True
  asked _ := True
  labelled := True

theorem values_tidy : requirements.OfValues where
  type := Value.every_type
  string := Value.every_string
  trivial := Value.every_trivial
  parameter x h := h.variable x
  neutral := Value.every_neutral.1
  pi h := ⟨fun _ => True.intro, Value.every_pi.1 h⟩
  fn h := ⟨True.intro, Value.every_fn.1 h⟩
  sigma := Value.every_sigma.1
  cons := Value.every_cons.1
  equal := Value.every_equal
  same := Value.every_same.1
  classOf := Value.every_classOf
  object := Value.every_object.1
  app h := ⟨True.intro, Neutral.every_app.1 h⟩
  car h := ⟨True.intro, Neutral.every_car.1 h⟩
  cdr h := ⟨True.intro, Neutral.every_cdr.1 h⟩
  dot h := ⟨True.intro, Neutral.every_dot.1 h⟩
  nil := Chain.every_nil
  declared h := ⟨True.intro, (Chain.every_declared.1 h).2.2.1⟩
  fulfilled :=
    Chain.tidy_fulfilled.trans (and_congr_left fun _ => ⟨fun h _ => h, fun h => h True.intro⟩)
  distinct h _ := h.nodup

theorem terms_wellFormed : requirements.OfTerms where
  var _ := Term.all_var
  type := Term.all_type
  pi _ ha hb := Term.all_pi.2 ⟨ha, hb⟩
  fn _ ha hb := Term.all_fn.2 ⟨ha, hb⟩
  app _ hf ha := Term.all_app.2 ⟨hf, ha⟩
  sigma ha hb := Term.all_sigma.2 ⟨ha, hb⟩
  cons ha hb := Term.all_cons.2 ⟨ha, hb⟩
  car _ h := Term.all_car.2 h
  cdr _ h := Term.all_cdr.2 h
  string := Term.all_string
  quote := Term.all_quote
  trivial := Term.all_trivial
  sole := Term.all_sole
  equal ha hl hr := Term.all_equal.2 ⟨ha, hl, hr⟩
  same h := Term.all_same.2 h
  emptyClass := Term.all_emptyClass
  declared _ hclass hlabels ha hrest := Term.all_declared.2 ⟨hlabels True.intro, hclass, ha, hrest⟩
  fulfilled hclass hlabels ha hv hrest :=
    Term.all_fulfilled.2 ⟨hlabels True.intro, hclass, ha, hv, hrest⟩
  object hlabels h := Term.all_object.2 ⟨hlabels, h⟩
  dot _ h := Term.all_dot.2 h
  letIn ha hv hb := Term.all_letIn.2 ⟨ha, hv, hb⟩

theorem scopes_tidy : requirements.OfScopes where
  bind label x h ha := h.bind ha label x
  define label x h ha hv := h.define ha hv label x
  find h he := (h.find he).type
  create x scope h ha := Solution.Tidy.create h ha x scope
  solve x h hv := Solution.Tidy.bind h hv x
  reserve _ h := h
  solved h hp := (h _ _ hp).2

theorem computing_tidy : requirements.OfComputations where
  evaluate n _ _ _ hs hctx ht := by
    have henv := Solution.Tidy.environment hs hctx
    exact ((EvaluatesWithin.all _ n).eval henv ⟨ht, fun y _ w hw => (henv y w hw).all,
      fun _ _ _ => True.intro⟩).tidy
  apply n _ _ hc hv := ((EvaluatesWithin.all _ n).apply hc hv).tidy
  rest n _ _ _ _ hc hv := by
    obtain ⟨-, hclass, -, hrest⟩ := Chain.every_declared.1 hc
    exact (Closure.applyChain_tidy n hclass hrest hv).mono fun _ ⟨hd, hlabels⟩ =>
      ⟨hd, fun _ => hlabels⟩
  app n _ _ _ _ hf hv := ((EvaluatesWithin.all _ n).app hf hv).tidy
  car _ hv := (Value.car_within hv).tidy
  cdr n _ _ hv := ((EvaluatesWithin.all _ n).cdr hv).tidy
  dot n _ _ _ hv := ((EvaluatesWithin.all _ n).dot hv).tidy
  typeOf n k _ _ _ hc hv := (Chain.typeOf_within n hc hv k).tidy
  typeOf_object n _ _ k hc hv := (Chain.typeOf_within n hc hv k).tidy

def standard : WrittenStandard where
  toRequirements := requirements
  values := values_tidy
  terms := terms_wellFormed
  scopes := scopes_tidy
  refusals := ⟨id, fun _ h => (h True.intro).elim, fun _ h => h⟩
  computing := computing_tidy
  expr _ := True
  form _ := True
  member _ := True
  form_of_expr _ := True.intro
  parts _ _ _ := True.intro
  members _ _ _ := True.intro
  member_parts _ _ _ := True.intro
  pi _ _ := True.intro
  fn _ := True.intro
  app _ := True.intro
  car _ := True.intro
  cdr _ := True.intro
  dot _ := True.intro
  declared _ := True.intro
  locate _ h := h

end Tidiness

end DependentClasses
