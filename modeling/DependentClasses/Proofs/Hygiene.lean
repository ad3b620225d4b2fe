import DependentClasses.Proofs.Answers
import DependentClasses.Proofs.Stability

/-! Hygiene. The binders of a normal form have names that nothing around them has, so that none
captures a variable or hides another binder. The variables of a normal form are among those of
the value and of the solutions, and all solutions have been put in. -/
namespace DependentClasses

namespace Term

mutual

/-- Every binder has a name that is not in `used` and not that of a binder around it. -/
def FreshlyBound (used : List Name) : Term → Prop
  | .var _ => True
  | .type => True
  | .pi _ x a b => a.FreshlyBound used ∧ x ∉ used ∧ b.FreshlyBound (x :: used)
  | .fn _ x a b => a.FreshlyBound used ∧ x ∉ used ∧ b.FreshlyBound (x :: used)
  | .app _ f a => f.FreshlyBound used ∧ a.FreshlyBound used
  | .sigma x a b => a.FreshlyBound used ∧ x ∉ used ∧ b.FreshlyBound (x :: used)
  | .cons a b => a.FreshlyBound used ∧ b.FreshlyBound used
  | .car a => a.FreshlyBound used
  | .cdr a => a.FreshlyBound used
  | .string => True
  | .quote _ => True
  | .trivial => True
  | .sole => True
  | .equal a l r => a.FreshlyBound used ∧ l.FreshlyBound used ∧ r.FreshlyBound used
  | .same a => a.FreshlyBound used
  | .emptyClass => True
  | .declared _ x a rest => a.FreshlyBound used ∧ x ∉ used ∧ rest.FreshlyBound (x :: used)
  | .fulfilled _ x a v rest =>
    a.FreshlyBound used ∧ v.FreshlyBound used ∧ x ∉ used ∧ rest.FreshlyBound (x :: used)
  | .object fields => FieldsFreshlyBound used fields
  | .dot a _ => a.FreshlyBound used
  | .letIn x a v b =>
    a.FreshlyBound used ∧ v.FreshlyBound used ∧ x ∉ used ∧ b.FreshlyBound (x :: used)

def FieldsFreshlyBound (used : List Name) : List (Name × Term) → Prop
  | [] => True
  | (_, a) :: fields => a.FreshlyBound used ∧ FieldsFreshlyBound used fields

end

theorem fieldsFreshlyBound_iff {used : List Name} (fields : List (Name × Term)) :
    FieldsFreshlyBound used fields ↔ ∀ f ∈ fields, f.2.FreshlyBound used := by
  induction fields with
  | nil => simp [FieldsFreshlyBound]
  | cons f fields ih => simp [FieldsFreshlyBound, ih]

/-- The free names are as `X` says, and the binders avoid `used` and each other. -/
structure Hygienic (X : Name → Prop) (used : List Name) (t : Term) : Prop where
  free : ∀ y ∈ t.freeNames, X y
  bound : t.FreshlyBound used

namespace Hygienic

variable {X Y : Name → Prop} {used : List Name} {p : Plicity} {x k : Name} {a b c f : Term}

theorem mono (h : ∀ y, X y → Y y) (ha : a.Hygienic X used) : a.Hygienic Y used :=
  ⟨fun y hy => h y (ha.free y hy), ha.bound⟩

/-- Outside of a binder its name is not free. -/
theorem outside (hb : b.Hygienic (fun y => X y ∨ y = x) (x :: used)) {y : Name}
    (hy : y ∈ b.freeNames) (hyx : y ≠ x) :
    X y :=
  (hb.free y hy).resolve_right hyx

theorem pi (ha : a.Hygienic X used) (hx : x ∉ used)
    (hb : b.Hygienic (fun y => X y ∨ y = x) (x :: used)) :
    (Term.pi p x a b).Hygienic X used := by
  refine ⟨fun y hy => ?_, ha.bound, hx, hb.bound⟩
  rcases mem_freeNames_pi.1 hy with hy | ⟨hy, hyx⟩
  · exact ha.free y hy
  · exact hb.outside hy hyx

theorem fn (ha : a.Hygienic X used) (hx : x ∉ used)
    (hb : b.Hygienic (fun y => X y ∨ y = x) (x :: used)) :
    (Term.fn p x a b).Hygienic X used := by
  refine ⟨fun y hy => ?_, ha.bound, hx, hb.bound⟩
  rcases mem_freeNames_fn.1 hy with hy | ⟨hy, hyx⟩
  · exact ha.free y hy
  · exact hb.outside hy hyx

theorem sigma (ha : a.Hygienic X used) (hx : x ∉ used)
    (hb : b.Hygienic (fun y => X y ∨ y = x) (x :: used)) :
    (Term.sigma x a b).Hygienic X used := by
  refine ⟨fun y hy => ?_, ha.bound, hx, hb.bound⟩
  rcases mem_freeNames_sigma.1 hy with hy | ⟨hy, hyx⟩
  · exact ha.free y hy
  · exact hb.outside hy hyx

theorem declared (ha : a.Hygienic X used) (hx : x ∉ used)
    (hb : b.Hygienic (fun y => X y ∨ y = x) (x :: used)) :
    (Term.declared k x a b).Hygienic X used := by
  refine ⟨fun y hy => ?_, ha.bound, hx, hb.bound⟩
  rcases mem_freeNames_declared.1 hy with hy | ⟨hy, hyx⟩
  · exact ha.free y hy
  · exact hb.outside hy hyx

theorem fulfilled (ha : a.Hygienic X used) (hb : b.Hygienic X used) (hx : x ∉ used)
    (hc : c.Hygienic X (x :: used)) : (Term.fulfilled k x a b c).Hygienic X used := by
  refine ⟨fun y hy => ?_, ha.bound, hb.bound, hx, hc.bound⟩
  rcases mem_freeNames_fulfilled.1 hy with hy | hy | ⟨hy, -⟩
  · exact ha.free y hy
  · exact hb.free y hy
  · exact hc.free y hy

theorem app (hf : f.Hygienic X used) (ha : a.Hygienic X used) :
    (Term.app p f a).Hygienic X used := by
  refine ⟨fun y hy => ?_, hf.bound, ha.bound⟩
  rcases mem_freeNames_app.1 hy with hy | hy
  · exact hf.free y hy
  · exact ha.free y hy

theorem cons (ha : a.Hygienic X used) (hb : b.Hygienic X used) :
    (Term.cons a b).Hygienic X used := by
  refine ⟨fun y hy => ?_, ha.bound, hb.bound⟩
  rcases mem_freeNames_cons.1 hy with hy | hy
  · exact ha.free y hy
  · exact hb.free y hy

theorem equal (ha : a.Hygienic X used) (hb : b.Hygienic X used) (hc : c.Hygienic X used) :
    (Term.equal a b c).Hygienic X used := by
  refine ⟨fun y hy => ?_, ha.bound, hb.bound, hc.bound⟩
  rcases mem_freeNames_equal.1 hy with hy | hy | hy
  · exact ha.free y hy
  · exact hb.free y hy
  · exact hc.free y hy

theorem object {fields : List (Name × Term)} (h : ∀ f ∈ fields, f.2.Hygienic X used) :
    (Term.object fields).Hygienic X used := by
  refine ⟨fun y hy => ?_, (fieldsFreshlyBound_iff fields).2 fun f hf => (h f hf).bound⟩
  obtain ⟨f, hf, hy⟩ := mem_freeNames_object.1 hy
  exact (h f hf).free y hy

end Hygienic

end Term

def Solution.SolvedOver (X : Name → Prop) (s : Solution) : Prop :=
  ∀ m a v, s.find m = some (.solved a v) → v.Over X

namespace Solution.SolvedOver

variable {X Y : Name → Prop} {s : Solution}

theorem keeps (h : s.SolvedOver X) : s.Keeps (Part.Named X) := fun m a v hm _ => h m a v hm

theorem mono (hXY : ∀ y, X y → Y y) (h : s.SolvedOver X) : s.SolvedOver Y :=
  fun m a v hm => (h m a v hm).mono hXY

end Solution.SolvedOver

structure ReadsHygienic (s : Solution) (n : Nat) : Prop where
  value {X : Name → Prop} {used : List Name} {v : Value} {t : Term} :
    s.SolvedOver X → v.reify n s used = .ok t → v.Over X →
    t.Hygienic (fun y => X y ∧ ¬ s.IsSolved y) used
  spine {X : Name → Prop} {used : List Name} {e : Neutral} {t : Term} :
    s.SolvedOver X → e.reify n s used = .ok t → e.Over X → ¬ s.IsSolved e.head →
      t.Hygienic (fun y => X y ∧ ¬ s.IsSolved y) used
  chain {X : Name → Prop} {used : List Name} {c : Chain} {t : Term} :
    s.SolvedOver X → c.reify n s used = .ok t → c.Over X →
    t.Hygienic (fun y => X y ∧ ¬ s.IsSolved y) used

namespace ReadsHygienic

variable {s : Solution} {n : Nat} {X : Name → Prop} {used : List Name}

/-- A binder stands for itself below it, whether or not its name is that of a solved variable. -/
theorem below {x : Name} {t : Term}
    (h : t.Hygienic (fun y => (X y ∨ y = x) ∧ ¬ s.IsSolved y) (x :: used)) :
    t.Hygienic (fun y => (X y ∧ ¬ s.IsSolved y) ∨ y = x) (x :: used) :=
  h.mono fun _ hy => hy.1.imp_left fun hX => ⟨hX, hy.2⟩

theorem body (ih : ReadsHygienic s n) (hs : s.SolvedOver X) {c : Closure} {a r : Value}
    {x : Name} {t : Term} (hr : c.apply n (.variable a x) = .ok r)
    (ht : r.reify n s (x :: used) = .ok t) (hc : c.All (Part.Named X)) (ha : a.Over X) :
    t.Hygienic (fun y => (X y ∧ ¬ s.IsSolved y) ∨ y = x) (x :: used) :=
  below (ih.value (hs.mono fun _ => .inl) ht (Closure.apply_over hr hc ha))

theorem value_succ (ih : ReadsHygienic s n) (hs : s.SolvedOver X) {v : Value} {t : Term}
    (h : v.reify (n + 1) s used = .ok t) (hv : v.Over X) :
    t.Hygienic (fun y => X y ∧ ¬ s.IsSolved y) used := by
  unfold Value.reify at h
  simp only [Eval.bind_eq_ok] at h
  obtain ⟨w, hw, h⟩ := h
  have hX : w.Over X := Value.force_all hs.keeps hw hv
  cases w with
  | neutral a spine =>
    exact ih.spine hs h (Value.all_neutral.1 hX).2 (Value.not_isSolved_of_force hw)
  | type | string | quote | trivial | sole =>
    rw [Eval.pure_eq_ok] at h
    subst h
    exact ⟨by simp, True.intro⟩
  | pi p a c =>
    simp only [Eval.bind_eq_ok, Eval.pure_eq_ok] at h
    obtain ⟨r, hr, b, hb, d, hd, rfl⟩ := h
    obtain ⟨ha, hc⟩ := Value.all_pi.1 hX
    exact .pi (ih.value hs hd ha) (Name.fresh_not_mem used c.x) (ih.body hs hr hb hc ha)
  | fn p a c =>
    simp only [Eval.bind_eq_ok, Eval.pure_eq_ok] at h
    obtain ⟨r, hr, b, hb, d, hd, rfl⟩ := h
    obtain ⟨ha, hc⟩ := Value.all_fn.1 hX
    exact .fn (ih.value hs hd ha) (Name.fresh_not_mem used c.x) (ih.body hs hr hb hc ha)
  | sigma a c =>
    simp only [Eval.bind_eq_ok, Eval.pure_eq_ok] at h
    obtain ⟨r, hr, b, hb, d, hd, rfl⟩ := h
    obtain ⟨ha, hc⟩ := Value.all_sigma.1 hX
    exact .sigma (ih.value hs hd ha) (Name.fresh_not_mem used c.x) (ih.body hs hr hb hc ha)
  | cons a b =>
    simp only [Eval.bind_eq_ok, Eval.pure_eq_ok] at h
    obtain ⟨d, hd, e, he, rfl⟩ := h
    obtain ⟨ha, hb⟩ := Value.all_cons.1 hX
    exact .cons (ih.value hs hd ha) (ih.value hs he hb)
  | equal a l r =>
    simp only [Eval.bind_eq_ok, Eval.pure_eq_ok] at h
    obtain ⟨d, hd, e, he, f, hf, rfl⟩ := h
    obtain ⟨ha, hl, hr⟩ := Value.all_equal.1 hX
    exact .equal (ih.value hs hd ha) (ih.value hs he hl) (ih.value hs hf hr)
  | same a =>
    simp only [Eval.bind_eq_ok, Eval.pure_eq_ok] at h
    obtain ⟨d, hd, rfl⟩ := h
    have hvalue := ih.value hs hd (Value.all_same.1 hX)
    exact ⟨fun y hy => hvalue.free y (by simpa using hy), hvalue.bound⟩
  | classOf c => exact ih.chain hs h (Value.all_classOf.1 hX)
  | object fields =>
    simp only [Eval.bind_eq_ok, Eval.pure_eq_ok] at h
    obtain ⟨fs, hfs, rfl⟩ := h
    refine .object fun g hg => ?_
    obtain ⟨f, hf, -, ht⟩ := (Eval.mapM_fields hfs).2 g hg
    exact ih.value hs ht ((Value.all_object.1 hX).2 f hf)

theorem spine_succ (ih : ReadsHygienic s n) (hs : s.SolvedOver X) {e : Neutral} {t : Term}
    (h : e.reify (n + 1) s used = .ok t) (he : e.Over X) (hhead : ¬ s.IsSolved e.head) :
    t.Hygienic (fun y => X y ∧ ¬ s.IsSolved y) used := by
  unfold Neutral.reify at h
  cases e with
  | var x =>
    rw [Eval.pure_eq_ok] at h
    subst h
    refine ⟨fun y hy => ?_, True.intro⟩
    rw [Term.mem_freeNames_var.1 hy]
    exact ⟨Neutral.all_var.1 he, hhead⟩
  | app p f a w =>
    simp only [Eval.bind_eq_ok, Eval.pure_eq_ok] at h
    obtain ⟨d, hd, e, he', rfl⟩ := h
    obtain ⟨hf, -, hw⟩ := Neutral.all_app.1 he
    exact .app (ih.spine hs hd hf hhead) (ih.value hs he' hw)
  | car f =>
    simp only [Eval.bind_eq_ok, Eval.pure_eq_ok] at h
    obtain ⟨d, hd, rfl⟩ := h
    have hpair := ih.spine hs hd (Neutral.all_car.1 he) hhead
    exact ⟨fun y hy => hpair.free y (by simpa using hy), hpair.bound⟩
  | cdr f =>
    simp only [Eval.bind_eq_ok, Eval.pure_eq_ok] at h
    obtain ⟨d, hd, rfl⟩ := h
    have hpair := ih.spine hs hd (Neutral.all_cdr.1 he) hhead
    exact ⟨fun y hy => hpair.free y (by simpa using hy), hpair.bound⟩
  | dot f k =>
    simp only [Eval.bind_eq_ok, Eval.pure_eq_ok] at h
    obtain ⟨d, hd, rfl⟩ := h
    have htarget := ih.spine hs hd (Neutral.all_dot.1 he) hhead
    exact ⟨fun y hy => htarget.free y (by simpa using hy), htarget.bound⟩

theorem chain_succ (ih : ReadsHygienic s n) (hs : s.SolvedOver X) {c : Chain} {t : Term}
    (h : c.reify (n + 1) s used = .ok t) (hc : c.Over X) :
    t.Hygienic (fun y => X y ∧ ¬ s.IsSolved y) used := by
  unfold Chain.reify at h
  cases c with
  | nil =>
    rw [Eval.pure_eq_ok] at h
    subst h
    exact ⟨by simp, True.intro⟩
  | declared k a c =>
    simp only [Eval.bind_eq_ok, Eval.pure_eq_ok] at h
    obtain ⟨d, hd, e, he, r, hr, rfl⟩ := h
    obtain ⟨-, -, ha, hc⟩ := Chain.all_declared.1 hc
    have hrest := ih.chain (hs.mono fun _ => .inl) hr (Closure.applyChain_over he hc ha)
    exact .declared (ih.value hs hd ha) (Name.fresh_not_mem used k) (below hrest)
  | fulfilled k a w c =>
    simp only [Eval.bind_eq_ok, Eval.pure_eq_ok] at h
    obtain ⟨d, hd, e, he, r, hr, rfl⟩ := h
    obtain ⟨-, ha, hw, hc⟩ := Chain.all_fulfilled.1 hc
    exact .fulfilled (ih.value hs hd ha) (ih.value hs he hw) (Name.fresh_not_mem used k)
      (ih.chain hs hr hc)

theorem all (s : Solution) (n : Nat) : ReadsHygienic s n := by
  induction n with
  | zero => constructor <;> intros <;> simp_all [Value.reify, Neutral.reify, Chain.reify]
  | succ n ih =>
    exact ⟨fun hs => ih.value_succ hs, fun hs => ih.spine_succ hs, fun hs => ih.chain_succ hs⟩

end ReadsHygienic

/-- A normal form mentions only names that are in use, if the value and the solutions do. Each of
its binders has a name that is not in use and differs from those of the binders around it. -/
theorem read_back_hygienic {n : Nat} {s : Solution} {ctx : Context} {v : Value} {t : Term}
    (h : s.reify n ctx v = .ok t) (hv : v.Over (· ∈ s.usedNames ctx))
    (hs : s.SolvedOver (· ∈ s.usedNames ctx)) :
    (∀ y ∈ t.freeNames, y ∈ s.usedNames ctx) ∧ t.FreshlyBound (s.usedNames ctx) := by
  have hread := (ReadsHygienic.all s n).value hs h hv
  exact ⟨fun y hy => (hread.free y hy).1, hread.bound⟩

namespace ClashingBinders

def x : Name := ⟨"x", 0⟩
def y : Name := ⟨"y", 0⟩
def m : Name := ⟨"m", 0⟩

def ctx : Context := Context.bind [] x x .string

def type : Value := .pi .explicit .string ⟨[], x, .sigma x .string .string⟩

/-- The variable `m` is solved by `(x: String) => (y, x)`, where `y` is the parameter `x`. -/
def solution : Solution :=
  (Solution.create {} m type []).bind m
    (.fn .explicit .string ⟨[(y, .variable .string x)], x, .cons (.var y) (.var x)⟩)

/-- `(x: String) => (x: String) => (y, m)`, where `y` is the parameter `x` -/
def value : Value :=
  .fn .explicit .string ⟨[(y, .variable .string x), (m, .variable type m)], x,
    .fn .explicit x .string (.cons (.var y) (.var m))⟩

/-- `(x1: String) => (x2: String) => (x, (x3: String) => (x, x3))` -/
def normalForm : Term :=
  .fn .explicit ⟨"x", 1⟩ .string (.fn .explicit ⟨"x", 2⟩ .string
    (.cons (.var x) (.fn .explicit ⟨"x", 3⟩ .string (.cons (.var x) (.var ⟨"x", 3⟩)))))

end ClashingBinders

open ClashingBinders in
/-- Three binders and a parameter have one name, and the normal form keeps them apart. -/
theorem clashing_binders_kept_apart :
    solution.reify 20 ctx value = .ok normalForm ∧
      (∀ y ∈ normalForm.freeNames, y ∈ solution.usedNames ctx) ∧
      normalForm.FreshlyBound (solution.usedNames ctx) := by
  have h : solution.reify 20 ctx value = .ok normalForm := by rfl
  have hx : x ∈ solution.usedNames ctx := by decide
  have hm : m ∈ solution.usedNames ctx := by decide
  have hparameter : (Value.variable .string x).Over (· ∈ solution.usedNames ctx) :=
    Value.all_variable.2 ⟨Value.all_string, hx⟩
  have htype : type.Over (· ∈ solution.usedNames ctx) :=
    Value.all_pi.2 ⟨Value.all_string, Closure.over_of_forall (by simp)⟩
  refine ⟨h, read_back_hygienic h ?_ fun k a v hk => ?_⟩
  · refine Value.all_fn.2 ⟨Value.all_string, Closure.over_of_forall fun f hf => ?_⟩
    simp only [List.mem_cons, List.not_mem_nil, or_false] at hf
    rcases hf with rfl | rfl
    · exact hparameter
    · exact Value.all_variable.2 ⟨htype, hm⟩
  · rw [solution, Solution.find_bind, Solution.find_create] at hk
    by_cases hkm : k = m
    · subst hkm
      cases hk
      refine Value.all_fn.2 ⟨Value.all_string, Closure.over_of_forall fun f hf => ?_⟩
      rw [List.mem_singleton.1 hf]
      exact hparameter
    · simp [hkm, Solution.find] at hk

/-- A forced value is not stuck on a solved variable, and forcing it again changes nothing. The
variables of a normal form are not solved either; if no unsolved ones are found in it, it has no
pattern variables. -/
theorem normal_forms_zonked (n : Nat) (s : Solution) (ctx : Context) (v : Value) :
    (∀ w, v.force n s = .ok w → (∀ a e, w = .neutral a e → ¬ s.IsSolved e.head) ∧
      ∀ m, w.force (m + 1) s = .ok w) ∧
      ∀ t, s.reify n ctx v = .ok t → (∀ y ∈ t.freeNames, ¬ s.IsSolved y) ∧
        ∀ lexicon s', (ensureResolved lexicon t).Yields s () s' →
        ∀ y ∈ t.freeNames, s.isPatternVariable y = false := by
  refine ⟨fun w hw => ?_, fun t ht => ?_⟩
  · have hhead : ∀ a e, w = .neutral a e → ¬ s.IsSolved e.head := by
      rintro a e rfl
      exact Value.not_isSolved_of_force hw
    refine ⟨hhead, fun m => ?_⟩
    unfold Value.force
    split
    · next a e =>
      rw [Neutral.resume_eq_none (hhead a e rfl)]
      rfl
    · rfl
  · -- every value is over all names
    have hover {w : Value} : w.Over fun _ => True := fun q _ => by cases q <;> exact True.intro
    have hsolved : ∀ y ∈ t.freeNames, ¬ s.IsSolved y :=
      fun y hy => (((ReadsHygienic.all s n).value (fun _ _ _ _ => hover) ht hover).free y hy).2
    refine ⟨hsolved, fun lexicon s' hresolved y hy => ?_⟩
    have hunsolved := (Solver.yields_ensureResolved hresolved).2 y hy
    have hnot := hsolved y hy
    unfold Solution.isPatternVariable
    cases hfind : s.find y with
    | none => rfl
    | some p =>
      cases p with
      | unsolved a scope => simp [Solution.isUnsolved, hfind] at hunsolved
      | solved a v => exact absurd ⟨a, v, hfind⟩ hnot

namespace ChainedVariables

def x : Name := ⟨"x", 0⟩
def m : Name := ⟨"m", 0⟩
def k : Name := ⟨"k", 0⟩

def ctx : Context := Context.bind [] x x .string

def type : Value := .pi .explicit .string ⟨[], x, .string⟩

/-- `m` stands for `k`, which is not solved. -/
def early : Solution :=
  ((Solution.create {} k type [x]).create m type [x]).bind m (.variable type k)

/-- `k` is solved by `(y: String) => x`. -/
def late : Solution :=
  early.bind k (.fn .explicit .string ⟨[(x, .variable .string x)], ⟨"y", 0⟩, .var x⟩)

def value : Value := .neutral .string (.app .explicit (.var m) .string (.quote "a"))

end ChainedVariables

open ChainedVariables in
/-- One solution stands for another variable. It is followed as far as it leads. -/
theorem chained_variables_zonked :
    (early.reify 20 ctx value = .ok (.app .explicit (.var k) (.quote "a")) ∧ ¬ early.IsSolved k) ∧
      late.reify 20 ctx value = .ok (.var x) ∧ (ensureResolved [] (.var x)).Yields late () late ∧
        late.isPatternVariable x = false := by
  have hearly : early.reify 20 ctx value = .ok (.app .explicit (.var k) (.quote "a")) := by rfl
  have hlate : late.reify 20 ctx value = .ok (.var x) := by rfl
  have hresolved : (ensureResolved [] (.var x)).Yields late () late := by rfl
  have hk := ((normal_forms_zonked 20 early ctx value).2 _ hearly).1 k (by decide)
  have hx := ((normal_forms_zonked 20 late ctx value).2 _ hlate).2 [] late hresolved x (by decide)
  exact ⟨⟨hearly, hk⟩, hlate, hresolved, hx⟩

end DependentClasses
