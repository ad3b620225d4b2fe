import DependentClasses.Proofs.Parts

/-! Computation adds no parts: whatever holds of all parts of what a computation starts from
holds of all parts of its result. One step of each function is treated on its own, and the
depth of the computation carries the induction. -/
namespace DependentClasses

variable {P : Part → Prop}

theorem Value.car_all {v w : Value} (h : v.car = .ok w) (hv : v.All P) : w.All P := by
  unfold Value.car at h
  split at h
  · rw [Eval.pure_eq_ok] at h
    subst h
    exact (Value.all_cons.1 hv).1
  · rw [Eval.pure_eq_ok] at h
    subst h
    obtain ⟨hsigma, hs⟩ := Value.all_neutral.1 hv
    exact Value.all_neutral.2 ⟨(Value.all_sigma.1 hsigma).1, Neutral.all_car.2 hs⟩
  · simp at h
  · simp at h

theorem Value.chain_all {v : Value} {c : Chain} (h : v.chain = .ok c) (hv : v.All P) : c.All P := by
  unfold Value.chain at h
  split at h
  · rw [Eval.pure_eq_ok] at h
    subst h
    exact Value.all_classOf.1 hv
  · simp at h

theorem evalChain_classLabels {n : Nat} {env : Environment} {t : Term} {c : Chain}
    (h : evalChain n env t = .ok c) : c.classLabels = t.classLabels := by
  induction n generalizing env t c with
  | zero => simp [evalChain] at h
  | succ n ih =>
    unfold evalChain at h
    split at h
    · rw [Eval.pure_eq_ok] at h
      subst h
      rfl
    · simp only [Eval.bind_eq_ok, Eval.pure_eq_ok] at h
      obtain ⟨a, -, rfl⟩ := h
      rfl
    · simp only [Eval.bind_eq_ok, Eval.pure_eq_ok] at h
      obtain ⟨v, -, a, -, d, hd, rfl⟩ := h
      exact congrArg _ (ih hd)
    · simp at h

structure AddsNoParts (P : Part → Prop) (n : Nat) : Prop where
  eval {env : Environment} {t : Term} {v : Value} :
    eval n env t = .ok v → Environment.All P env t → v.All P
  chain {env : Environment} {t : Term} {c : Chain} :
    evalChain n env t = .ok c → Environment.All P env t → c.All P
  app {p : Plicity} {f a v : Value} : f.app n p a = .ok v → f.All P → a.All P → v.All P
  cdr {v w : Value} : v.cdr n = .ok w → v.All P → w.All P
  dot {v w : Value} {k : Name} : v.dot n k = .ok w → v.All P → w.All P
  find {c : Chain} {v a : Value} {w : Option Value} {k : Name} :
    c.find n v k = .ok (some (a, w)) → c.All P → v.All P → a.All P ∧ ∀ u ∈ w, u.All P

namespace AddsNoParts

variable {n : Nat}

theorem eval_succ (ih : AddsNoParts P n) {env : Environment} {t : Term} {v : Value}
    (h : DependentClasses.eval (n + 1) env t = .ok v) (he : Environment.All P env t) : v.All P := by
  unfold DependentClasses.eval at h
  cases t with
  | var x =>
    cases hx : env.lookup x with
    | none => simp [hx] at h
    | some w =>
      simp only [hx, Eval.pure_eq_ok] at h
      subst h
      exact he.kept x (by simp) v hx
  | type | string | trivial | sole | quote s =>
    simp only [Eval.pure_eq_ok] at h
    subst h
    simp
  | pi p x a b =>
    simp only [Eval.bind_eq_ok, Eval.pure_eq_ok] at h
    obtain ⟨w, hw, rfl⟩ := h
    exact Value.all_pi.2 ⟨ih.eval hw he.pi.1, he.pi.2⟩
  | fn p x a b =>
    simp only [Eval.bind_eq_ok, Eval.pure_eq_ok] at h
    obtain ⟨w, hw, rfl⟩ := h
    exact Value.all_fn.2 ⟨ih.eval hw he.fn.1, he.fn.2⟩
  | app p f a =>
    simp only [Eval.bind_eq_ok] at h
    obtain ⟨g, hg, w, hw, h⟩ := h
    exact ih.app h (ih.eval hg he.app.1) (ih.eval hw he.app.2)
  | sigma x a b =>
    simp only [Eval.bind_eq_ok, Eval.pure_eq_ok] at h
    obtain ⟨w, hw, rfl⟩ := h
    exact Value.all_sigma.2 ⟨ih.eval hw he.sigma.1, he.sigma.2⟩
  | cons a b =>
    simp only [Eval.bind_eq_ok, Eval.pure_eq_ok] at h
    obtain ⟨w, hw, u, hu, rfl⟩ := h
    exact Value.all_cons.2 ⟨ih.eval hw he.cons.1, ih.eval hu he.cons.2⟩
  | car a =>
    simp only [Eval.bind_eq_ok] at h
    obtain ⟨w, hw, h⟩ := h
    exact Value.car_all h (ih.eval hw he.car)
  | cdr a =>
    simp only [Eval.bind_eq_ok] at h
    obtain ⟨w, hw, h⟩ := h
    exact ih.cdr h (ih.eval hw he.cdr)
  | equal a l r =>
    simp only [Eval.bind_eq_ok, Eval.pure_eq_ok] at h
    obtain ⟨w, hw, x, hx, y, hy, rfl⟩ := h
    obtain ⟨ha, hl, hr⟩ := he.equal
    exact Value.all_equal.2 ⟨ih.eval hw ha, ih.eval hx hl, ih.eval hy hr⟩
  | same a =>
    simp only [Eval.bind_eq_ok, Eval.pure_eq_ok] at h
    obtain ⟨w, hw, rfl⟩ := h
    exact Value.all_same.2 (ih.eval hw he.same)
  | emptyClass | declared | fulfilled =>
    simp only [Eval.bind_eq_ok, Eval.pure_eq_ok] at h
    obtain ⟨c, hc, rfl⟩ := h
    exact Value.all_classOf.2 (ih.chain hc he)
  | object fields =>
    simp only [Eval.bind_eq_ok, Eval.pure_eq_ok] at h
    obtain ⟨fs, hfs, rfl⟩ := h
    obtain ⟨hl, hf⟩ := he.object
    obtain ⟨hlabels, hvalues⟩ := Eval.mapM_fields hfs
    rw [Value.all_object, hlabels]
    refine ⟨hl, fun g hg => ?_⟩
    obtain ⟨f, hm, -, hv⟩ := hvalues g hg
    exact ih.eval hv (hf f hm)
  | dot a k =>
    simp only [Eval.bind_eq_ok] at h
    obtain ⟨w, hw, h⟩ := h
    exact ih.dot h (ih.eval hw he.dot)
  | letIn x t a b =>
    simp only [Eval.bind_eq_ok] at h
    obtain ⟨w, hw, h⟩ := h
    exact ih.eval h (he.letIn.2.bind (ih.eval hw he.letIn.1))

theorem chain_succ (ih : AddsNoParts P n) {env : Environment} {t : Term} {c : Chain}
    (h : evalChain (n + 1) env t = .ok c) (he : Environment.All P env t) : c.All P := by
  unfold evalChain at h
  split at h
  · rw [Eval.pure_eq_ok] at h
    subst h
    exact Chain.all_nil
  · simp only [Eval.bind_eq_ok, Eval.pure_eq_ok] at h
    obtain ⟨a, ha, rfl⟩ := h
    obtain ⟨hl, hr, ht, hc⟩ := he.declared
    exact Chain.all_declared.2 ⟨hl, hr, ih.eval ha ht, hc⟩
  · simp only [Eval.bind_eq_ok, Eval.pure_eq_ok] at h
    obtain ⟨v, hv, a, ha, d, hd, rfl⟩ := h
    obtain ⟨hl, ht, hu, hc⟩ := he.fulfilled
    have hv := ih.eval hv hu
    rw [Chain.all_fulfilled, evalChain_classLabels hd]
    exact ⟨hl, ih.eval ha ht, hv, ih.chain hd (hc.bind hv)⟩
  · simp at h

theorem app_succ (ih : AddsNoParts P n) {p : Plicity} {f a v : Value}
    (h : f.app (n + 1) p a = .ok v) (hf : f.All P) (ha : a.All P) : v.All P := by
  unfold Value.app at h
  split at h
  · split at h
    · exact ih.eval h ((Value.all_fn.1 hf).2.bind ha)
    · simp at h
  · split at h
    · simp only [Eval.bind_eq_ok, Eval.pure_eq_ok] at h
      obtain ⟨b, hb, rfl⟩ := h
      obtain ⟨hpi, hs⟩ := Value.all_neutral.1 hf
      obtain ⟨hd, hc⟩ := Value.all_pi.1 hpi
      exact Value.all_neutral.2 ⟨ih.eval hb (hc.bind ha), Neutral.all_app.2 ⟨hs, hd, ha⟩⟩
    · simp at h
  · simp at h
  · simp at h

theorem cdr_succ (ih : AddsNoParts P n) {v w : Value} (h : v.cdr (n + 1) = .ok w) (hv : v.All P) :
    w.All P := by
  unfold Value.cdr at h
  split at h
  · rw [Eval.pure_eq_ok] at h
    subst h
    exact (Value.all_cons.1 hv).2
  · simp only [Eval.bind_eq_ok, Eval.pure_eq_ok] at h
    obtain ⟨b, hb, rfl⟩ := h
    obtain ⟨hsigma, hs⟩ := Value.all_neutral.1 hv
    obtain ⟨ha, hc⟩ := Value.all_sigma.1 hsigma
    have hcar := Value.all_neutral.2 ⟨ha, Neutral.all_car.2 hs⟩
    exact Value.all_neutral.2 ⟨ih.eval hb (hc.bind hcar), Neutral.all_cdr.2 hs⟩
  · simp at h
  · simp at h

theorem dot_succ (ih : AddsNoParts P n) {v w : Value} {k : Name} (h : v.dot (n + 1) k = .ok w)
    (hv : v.All P) : w.All P := by
  unfold Value.dot at h
  split at h
  · split at h
    · next fields w hw =>
      rw [Eval.pure_eq_ok] at h
      subst h
      exact (Value.all_object.1 hv).2 (k, _) (mem_of_lookup hw)
    · simp at h
  · next c s =>
    simp only [Eval.bind_eq_ok] at h
    obtain ⟨found, hfound, h⟩ := h
    obtain ⟨hc, hs⟩ := Value.all_neutral.1 hv
    rw [Value.all_classOf] at hc
    split at h
    · rw [Eval.pure_eq_ok] at h
      subst h
      exact (ih.find hfound hc hv).2 _ rfl
    · rw [Eval.pure_eq_ok] at h
      subst h
      exact Value.all_neutral.2 ⟨(ih.find hfound hc hv).1, Neutral.all_dot.2 hs⟩
    · simp at h
  · simp at h
  · simp at h

theorem find_succ (ih : AddsNoParts P n) {c : Chain} {v a : Value} {w : Option Value} {k : Name}
    (h : c.find (n + 1) v k = .ok (some (a, w))) (hc : c.All P) (hv : v.All P) :
    a.All P ∧ ∀ u ∈ w, u.All P := by
  unfold Chain.find at h
  split at h
  · simp at h
  · obtain ⟨-, -, ha, hrest⟩ := Chain.all_declared.1 hc
    split at h
    · simp only [Eval.pure_eq_ok, Option.some.injEq, Prod.mk.injEq] at h
      obtain ⟨rfl, rfl⟩ := h
      exact ⟨ha, by simp⟩
    · simp only [Eval.bind_eq_ok] at h
      obtain ⟨u, hu, r, hr, d, hd, h⟩ := h
      exact ih.find h (Value.chain_all hd (ih.eval hr (hrest.bind (ih.dot hu hv)))) hv
  · obtain ⟨-, ha, hw, hrest⟩ := Chain.all_fulfilled.1 hc
    split at h
    · simp only [Eval.pure_eq_ok, Option.some.injEq, Prod.mk.injEq] at h
      obtain ⟨rfl, rfl⟩ := h
      exact ⟨ha, by simpa using hw⟩
    · exact ih.find h hrest hv

theorem all (P : Part → Prop) (n : Nat) : AddsNoParts P n := by
  induction n with
  | zero =>
    constructor <;> intros
      <;> simp_all [DependentClasses.eval, evalChain, Value.app, Value.cdr, Value.dot, Chain.find]
  | succ n ih =>
    exact ⟨ih.eval_succ, ih.chain_succ, ih.app_succ, ih.cdr_succ, ih.dot_succ, ih.find_succ⟩

end AddsNoParts

end DependentClasses
