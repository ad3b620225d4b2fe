import DependentClasses.Proofs.Contexts
import DependentClasses.Proofs.NormalForms

/-! Well-formed terms and values: the labels of a class are distinct, and so are those of an
object where this is asked for, and what a class is written to have after a property is a class.
Computation keeps this, since it adds no parts, and reading back keeps it, since it keeps the
labels of every class. -/
namespace DependentClasses

variable {strict : Prop}

/-- The variables are as `X` says, the labels of classes are distinct and classes go on with
classes. If `strict`, the labels of objects are distinct as well. -/
def Part.Within (strict : Prop) (X : Name → Prop) : Part → Prop
  | .name y => X y
  | .missing _ => True
  | .labels ks => ks.Nodup
  | .fulfilled k ks => (k :: ks).Nodup
  | .fields ks => strict → ks.Nodup
  | .rest t => t.IsClass

theorem Part.Within.mono {X Y : Name → Prop} (h : ∀ y, X y → Y y) (q : Part) :
    Within strict X q → Within strict Y q := by
  cases q with
  | name y => exact h y
  | missing | labels | fulfilled | fields | rest => exact id

theorem Part.Within.named {X : Name → Prop} (q : Part) : Within strict X q → Named X q := by
  cases q with
  | name y => exact id
  | missing | labels | fulfilled | fields | rest => exact fun _ => trivial

/-- Nothing is asked of variables. -/
def Part.WellFormed (strict : Prop) : Part → Prop := Part.Within strict fun _ => True

theorem Part.Within.wellFormed {X : Name → Prop} (q : Part) :
    Within strict X q → WellFormed strict q :=
  Part.Within.mono (fun _ _ => trivial) q

theorem Part.WellFormed.of_nodup {ks : List Name} (h : ks.Nodup) : WellFormed strict (.fields ks) :=
  fun _ => h

def Term.WellFormed (strict : Prop) (t : Term) : Prop := t.All (Part.WellFormed strict)

def Value.WellFormed (strict : Prop) (v : Value) : Prop := v.All (Part.WellFormed strict)

def Neutral.WellFormed (strict : Prop) (s : Neutral) : Prop := s.All (Part.WellFormed strict)

def Chain.WellFormed (strict : Prop) (c : Chain) : Prop := c.All (Part.WellFormed strict)

def Closure.WellFormed (strict : Prop) (c : Closure) : Prop := c.All (Part.WellFormed strict)

def Context.WellFormed (strict : Prop) (ctx : Context) : Prop := ctx.All (Part.WellFormed strict)

def Solution.WellFormed (strict : Prop) (s : Solution) : Prop := s.All (Part.WellFormed strict)

/-- A term has no variables that it is stuck on. -/
theorem Term.not_has_name {y : Name} {t : Term} : ¬ t.Has (.name y) :=
  fun h => (Term.all_named (X := fun _ => False) t) _ h

theorem Term.WellFormed.within {X : Name → Prop} {t : Term} (h : t.WellFormed strict) :
    t.All (Part.Within strict X) := by
  intro q hq
  cases q with
  | name y => exact absurd hq not_has_name
  | missing | labels | fulfilled | fields | rest => exact h _ hq

/-- Well-formed values are made of well-formed terms, over any variables. -/
theorem Value.WellFormed.variable {a : Value} (h : a.WellFormed strict) (x : Name) :
    (Value.variable a x).WellFormed strict :=
  Value.all_variable.2 ⟨h, True.intro⟩

/-- The labels of a well-formed class are distinct. -/
theorem Chain.nodup_classLabels {X : Name → Prop} {c : Chain} (h : c.All (Part.Within strict X)) :
    c.classLabels.Nodup := by
  cases c with
  | nil => exact List.nodup_nil
  | declared k a rest => exact (Chain.all_declared.1 h).1
  | fulfilled k a v rest => exact (Chain.all_fulfilled.1 h).1

/-- The value of a class is a class with the labels as they are written. -/
theorem exists_chain_of_eval {n : Nat} {env : Environment} {t : Term} {v : Value} (ht : t.IsClass)
    (h : eval n env t = .ok v) : ∃ c, v = .classOf c ∧ c.classLabels = t.classLabels := by
  cases n with
  | zero => simp [eval] at h
  | succ n =>
    unfold eval at h
    cases t with
    | emptyClass | declared | fulfilled =>
      simp only [Eval.bind_eq_ok, Eval.pure_eq_ok] at h
      obtain ⟨c, hc, rfl⟩ := h
      exact ⟨c, rfl, evalChain_classLabels hc⟩
    | _ => exact absurd ht id

theorem Closure.applyChain_classLabels {n : Nat} {c : Closure} {v : Value} {d : Chain}
    (hc : c.body.IsClass) (h : c.applyChain n v = .ok d) : d.classLabels = c.body.classLabels := by
  simp only [applyChain, Eval.bind_eq_ok] at h
  obtain ⟨r, hr, hd⟩ := h
  obtain ⟨e, rfl, he⟩ := exists_chain_of_eval hc hr
  rw [Value.chain, Eval.pure_eq_ok] at hd
  rw [hd, he]

theorem Closure.apply_all {P : Part → Prop} {n : Nat} {c : Closure} {v r : Value}
    (h : c.apply n v = .ok r) (hc : c.All P) (hv : v.All P) : r.All P :=
  (AddsNoParts.all P n).eval h (hc.bind hv)

theorem Closure.applyChain_all {P : Part → Prop} {n : Nat} {c : Closure} {v : Value} {d : Chain}
    (h : c.applyChain n v = .ok d) (hc : c.All P) (hv : v.All P) : d.All P := by
  simp only [applyChain, Eval.bind_eq_ok] at h
  obtain ⟨r, hr, hd⟩ := h
  exact Value.chain_all hd (apply_all hr hc hv)

theorem Chain.typeOf_all {P : Part → Prop} {n : Nat} {c : Chain} {v a : Value} {k : Name}
    (h : c.typeOf n v k = .ok (some a)) (hc : c.All P) (hv : v.All P) : a.All P := by
  simp only [typeOf, Eval.bind_eq_ok, Eval.pure_eq_ok] at h
  obtain ⟨found, hfound, h⟩ := h
  cases found with
  | none => cases h
  | some f =>
    cases h
    exact ((AddsNoParts.all P n).find hfound hc hv).1

structure ReadsWellFormed (strict : Prop) (s : Solution) (n : Nat) : Prop where
  value {used : List Name} {v : Value} {t : Term} : v.reify n s used = .ok t → v.WellFormed strict →
    t.WellFormed strict
  spine {used : List Name} {v : Neutral} {t : Term} : v.reify n s used = .ok t →
    v.WellFormed strict → t.WellFormed strict
  chain {used : List Name} {v : Chain} {t : Term} :
    v.reify n s used = .ok t → v.WellFormed strict → t.WellFormed strict ∧ t.IsClass ∧
    t.classLabels = v.classLabels

namespace ReadsWellFormed

variable {s : Solution} {n : Nat} {used : List Name}

theorem body (ih : ReadsWellFormed strict s n) {c : Closure} {a r : Value} {x : Name} {t : Term}
    (hr : c.apply n (.variable a x) = .ok r) (ht : r.reify n s used = .ok t)
    (hc : c.WellFormed strict) (ha : a.WellFormed strict) :
    t.WellFormed strict :=
  ih.value ht (Closure.apply_all hr hc (ha.variable x))

theorem value_succ (ih : ReadsWellFormed strict s n) (hs : s.Keeps (Part.WellFormed strict))
    {v : Value} {t : Term} (h : v.reify (n + 1) s used = .ok t) (hv : v.WellFormed strict) :
    t.WellFormed strict := by
  unfold Value.reify at h
  simp only [Eval.bind_eq_ok] at h
  obtain ⟨w, hw, h⟩ := h
  have hwf : w.WellFormed strict := Value.force_all hs hw hv
  cases w with
  | neutral a spine => exact ih.spine h (Value.all_neutral.1 hwf).2
  | type | string | quote | trivial | sole =>
    simp only [Eval.pure_eq_ok] at h
    subst h
    simp [Term.WellFormed]
  | pi p a c =>
    simp only [Eval.bind_eq_ok, Eval.pure_eq_ok] at h
    obtain ⟨r, hr, b, hb, d, hd, rfl⟩ := h
    obtain ⟨ha, hc⟩ := Value.all_pi.1 hwf
    exact Term.all_pi.2 ⟨ih.value hd ha, ih.body hr hb hc ha⟩
  | fn p a c =>
    simp only [Eval.bind_eq_ok, Eval.pure_eq_ok] at h
    obtain ⟨r, hr, b, hb, d, hd, rfl⟩ := h
    obtain ⟨ha, hc⟩ := Value.all_fn.1 hwf
    exact Term.all_fn.2 ⟨ih.value hd ha, ih.body hr hb hc ha⟩
  | sigma a c =>
    simp only [Eval.bind_eq_ok, Eval.pure_eq_ok] at h
    obtain ⟨r, hr, b, hb, d, hd, rfl⟩ := h
    obtain ⟨ha, hc⟩ := Value.all_sigma.1 hwf
    exact Term.all_sigma.2 ⟨ih.value hd ha, ih.body hr hb hc ha⟩
  | cons a b =>
    simp only [Eval.bind_eq_ok, Eval.pure_eq_ok] at h
    obtain ⟨a', ha', b', hb', rfl⟩ := h
    obtain ⟨ha, hb⟩ := Value.all_cons.1 hwf
    exact Term.all_cons.2 ⟨ih.value ha' ha, ih.value hb' hb⟩
  | equal a l r =>
    simp only [Eval.bind_eq_ok, Eval.pure_eq_ok] at h
    obtain ⟨a', ha', l', hl', r', hr', rfl⟩ := h
    obtain ⟨ha, hl, hr⟩ := Value.all_equal.1 hwf
    exact Term.all_equal.2 ⟨ih.value ha' ha, ih.value hl' hl, ih.value hr' hr⟩
  | same a =>
    simp only [Eval.bind_eq_ok, Eval.pure_eq_ok] at h
    obtain ⟨a', ha', rfl⟩ := h
    exact Term.all_same.2 (ih.value ha' (Value.all_same.1 hwf))
  | classOf c => exact (ih.chain h (Value.all_classOf.1 hwf)).1
  | object fields =>
    simp only [Eval.bind_eq_ok, Eval.pure_eq_ok] at h
    obtain ⟨fs, hfs, rfl⟩ := h
    obtain ⟨hl, hf⟩ := Value.all_object.1 hwf
    obtain ⟨hlabels, hterms⟩ := Eval.mapM_fields hfs
    refine Term.all_object.2 ⟨hlabels ▸ hl, fun g hg => ?_⟩
    obtain ⟨f, hm, -, ht⟩ := hterms g hg
    exact ih.value ht (hf f hm)

theorem spine_succ (ih : ReadsWellFormed strict s n) {v : Neutral} {t : Term}
    (h : v.reify (n + 1) s used = .ok t) (hv : v.WellFormed strict) : t.WellFormed strict := by
  unfold Neutral.reify at h
  cases v with
  | var x =>
    simp only [Eval.pure_eq_ok] at h
    subst h
    exact Term.all_var
  | app p f a w =>
    simp only [Eval.bind_eq_ok, Eval.pure_eq_ok] at h
    obtain ⟨f', hf', w', hw', rfl⟩ := h
    obtain ⟨hf, -, hw⟩ := Neutral.all_app.1 hv
    exact Term.all_app.2 ⟨ih.spine hf' hf, ih.value hw' hw⟩
  | car f =>
    simp only [Eval.bind_eq_ok, Eval.pure_eq_ok] at h
    obtain ⟨f', hf', rfl⟩ := h
    exact Term.all_car.2 (ih.spine hf' (Neutral.all_car.1 hv))
  | cdr f =>
    simp only [Eval.bind_eq_ok, Eval.pure_eq_ok] at h
    obtain ⟨f', hf', rfl⟩ := h
    exact Term.all_cdr.2 (ih.spine hf' (Neutral.all_cdr.1 hv))
  | dot f k =>
    simp only [Eval.bind_eq_ok, Eval.pure_eq_ok] at h
    obtain ⟨f', hf', rfl⟩ := h
    exact Term.all_dot.2 (ih.spine hf' (Neutral.all_dot.1 hv))

theorem chain_succ (ih : ReadsWellFormed strict s n) {v : Chain} {t : Term}
    (h : v.reify (n + 1) s used = .ok t) (hv : v.WellFormed strict) :
    t.WellFormed strict ∧ t.IsClass ∧ t.classLabels = v.classLabels := by
  unfold Chain.reify at h
  cases v with
  | nil =>
    simp only [Eval.pure_eq_ok] at h
    subst h
    exact ⟨Term.all_emptyClass, True.intro, rfl⟩
  | declared k a c =>
    simp only [Eval.bind_eq_ok, Eval.pure_eq_ok] at h
    obtain ⟨a', ha', d, hd, rest, hrest, rfl⟩ := h
    obtain ⟨hl, hclass, ha, hc⟩ := Chain.all_declared.1 hv
    have hwf : d.WellFormed strict := Closure.applyChain_all hd hc (Value.WellFormed.variable ha _)
    obtain ⟨hrest, hisClass, hlabels⟩ := ih.chain hrest hwf
    rw [Closure.applyChain_classLabels hclass hd] at hlabels
    refine ⟨Term.all_declared.2 ⟨?_, hisClass, ih.value ha' ha, hrest⟩, True.intro, ?_⟩
    · rw [hlabels]; exact hl
    · rw [Term.classLabels, hlabels, Chain.classLabels]
  | fulfilled k a w c =>
    simp only [Eval.bind_eq_ok, Eval.pure_eq_ok] at h
    obtain ⟨a', ha', w', hw', rest, hrest, rfl⟩ := h
    obtain ⟨hl, ha, hw, hc⟩ := Chain.all_fulfilled.1 hv
    obtain ⟨hrest, hisClass, hlabels⟩ := ih.chain hrest hc
    refine ⟨Term.all_fulfilled.2 ⟨?_, hisClass, ih.value ha' ha, ih.value hw' hw,
      hrest⟩, True.intro, ?_⟩
    · rw [hlabels]; exact hl
    · rw [Term.classLabels, hlabels, Chain.classLabels]

theorem all (hs : s.Keeps (Part.WellFormed strict)) (n : Nat) : ReadsWellFormed strict s n := by
  induction n with
  | zero =>
    constructor
    · intro used v t h; simp [Value.reify] at h
    · intro used v t h; simp [Neutral.reify] at h
    · intro used v t h; simp [Chain.reify] at h
  | succ n ih => exact ⟨ih.value_succ hs, ih.spine_succ, ih.chain_succ⟩

end ReadsWellFormed

section

variable {s : Solution} {ctx : Context} {n : Nat}

theorem Solution.WellFormed.eval (hs : s.WellFormed strict) (hctx : ctx.WellFormed strict)
    {t : Term} {v : Value} (ht : t.WellFormed strict)
    (h : DependentClasses.eval n (s.environment ctx) t = .ok v) : v.WellFormed strict :=
  Solution.eval_all hs hctx (fun _ _ => trivial) (fun _ _ _ => trivial) (fun _ => trivial) ht h

theorem Solution.WellFormed.force (hs : s.WellFormed strict) {v w : Value} (h : v.force n s = .ok w)
    (hv : v.WellFormed strict) :
    w.WellFormed strict :=
  Value.force_all hs.keeps h hv

theorem Solution.WellFormed.reify (hs : s.WellFormed strict) {v : Value} {t : Term}
    (h : s.reify n ctx v = .ok t) (hv : v.WellFormed strict) : t.WellFormed strict :=
  (ReadsWellFormed.all hs.keeps n).value h hv

theorem Solution.WellFormed.reifyChain (hs : s.WellFormed strict) {c : Chain} {t : Term}
    (h : s.reifyChain n ctx c = .ok t)
    (hc : c.WellFormed strict) : t.WellFormed strict :=
  ((ReadsWellFormed.all hs.keeps n).chain h hc).1

theorem Context.WellFormed.bind (hctx : ctx.WellFormed strict) {a : Value}
    (ha : a.WellFormed strict) (label x : Name) :
    (ctx.bind label x a).WellFormed strict :=
  hctx.cons ⟨ha, fun _ hv => by cases hv⟩

/-- A parameter of a well-formed type. -/
theorem Context.WellFormed.witness (hctx : ctx.WellFormed strict) {a : Value}
    (ha : a.WellFormed strict) (x : Name) :
    (s.witness ctx x a).1.WellFormed strict ∧ (s.witness ctx x a).2.WellFormed strict :=
  ⟨hctx.bind ha _ _, ha.variable _⟩

end

end DependentClasses
