import DependentClasses.Proofs.Fuel

/-! What evaluation and reading back do with each former, for results that are known to
exist. Each lemma takes one step back and leaves the depth of the steps inside open. -/
namespace DependentClasses

section

variable {n : Nat} {env : Environment} {p : Plicity} {x k : Name} {a b c : Term}
  {v : Value} {d : Chain}

theorem eval_pos {t : Term} (h : eval n env t = .ok v) : ∃ m, n = m + 1 := by
  cases n with
  | zero => simp [eval] at h
  | succ m => exact ⟨m, rfl⟩

theorem eval_pi (h : eval n env (.pi p x a b) = .ok v) :
    ∃ m d, eval m env a = .ok d ∧ v = .pi p d ⟨env, x, b⟩ := by
  obtain ⟨m, rfl⟩ := eval_pos h
  simp only [eval, Eval.bind_eq_ok, Eval.pure_eq_ok] at h
  exact ⟨m, h⟩

theorem eval_fn (h : eval n env (.fn p x a b) = .ok v) :
    ∃ m d, eval m env a = .ok d ∧ v = .fn p d ⟨env, x, b⟩ := by
  obtain ⟨m, rfl⟩ := eval_pos h
  simp only [eval, Eval.bind_eq_ok, Eval.pure_eq_ok] at h
  exact ⟨m, h⟩

theorem eval_app (h : eval n env (.app p a b) = .ok v) :
    ∃ m f, eval m env a = .ok f ∧ ∃ w, eval m env b = .ok w ∧ f.app m p w = .ok v := by
  obtain ⟨m, rfl⟩ := eval_pos h
  simp only [eval, Eval.bind_eq_ok] at h
  exact ⟨m, h⟩

theorem eval_sigma (h : eval n env (.sigma x a b) = .ok v) :
    ∃ m d, eval m env a = .ok d ∧ v = .sigma d ⟨env, x, b⟩ := by
  obtain ⟨m, rfl⟩ := eval_pos h
  simp only [eval, Eval.bind_eq_ok, Eval.pure_eq_ok] at h
  exact ⟨m, h⟩

theorem eval_cons (h : eval n env (.cons a b) = .ok v) :
    ∃ m u, eval m env a = .ok u ∧ ∃ w, eval m env b = .ok w ∧ v = .cons u w := by
  obtain ⟨m, rfl⟩ := eval_pos h
  simp only [eval, Eval.bind_eq_ok, Eval.pure_eq_ok] at h
  exact ⟨m, h⟩

theorem eval_car (h : eval n env (.car a) = .ok v) :
    ∃ m w, eval m env a = .ok w ∧ w.car = .ok v := by
  obtain ⟨m, rfl⟩ := eval_pos h
  simp only [eval, Eval.bind_eq_ok] at h
  exact ⟨m, h⟩

theorem eval_cdr (h : eval n env (.cdr a) = .ok v) :
    ∃ m w, eval m env a = .ok w ∧ w.cdr m = .ok v := by
  obtain ⟨m, rfl⟩ := eval_pos h
  simp only [eval, Eval.bind_eq_ok] at h
  exact ⟨m, h⟩

theorem eval_equal (h : eval n env (.equal a b c) = .ok v) :
    ∃ m d, eval m env a = .ok d ∧ ∃ u, eval m env b = .ok u ∧ ∃ w, eval m env c = .ok w ∧
      v = .equal d u w := by
  obtain ⟨m, rfl⟩ := eval_pos h
  simp only [eval, Eval.bind_eq_ok, Eval.pure_eq_ok] at h
  exact ⟨m, h⟩

theorem eval_same (h : eval n env (.same a) = .ok v) :
    ∃ m w, eval m env a = .ok w ∧ v = .same w := by
  obtain ⟨m, rfl⟩ := eval_pos h
  simp only [eval, Eval.bind_eq_ok, Eval.pure_eq_ok] at h
  exact ⟨m, h⟩

theorem eval_object {fields : List (Name × Term)} (h : eval n env (.object fields) = .ok v) :
    ∃ m fs, (fields.mapM fun (label, a) => do
      let a ← eval m env a
      pure (label, a)) = .ok fs ∧ v = .object fs := by
  obtain ⟨m, rfl⟩ := eval_pos h
  simp only [eval, Eval.bind_eq_ok, Eval.pure_eq_ok] at h
  obtain ⟨fs, hfs, rfl⟩ := h
  exact ⟨m, fs, hfs, rfl⟩

theorem eval_dot (h : eval n env (.dot a k) = .ok v) :
    ∃ m w, eval m env a = .ok w ∧ w.dot m k = .ok v := by
  obtain ⟨m, rfl⟩ := eval_pos h
  simp only [eval, Eval.bind_eq_ok] at h
  exact ⟨m, h⟩

theorem evalChain_pos {t : Term} (h : evalChain n env t = .ok d) : ∃ m, n = m + 1 := by
  cases n with
  | zero => simp [evalChain] at h
  | succ m => exact ⟨m, rfl⟩

theorem evalChain_declared (h : evalChain n env (.declared k x a b) = .ok d) :
    ∃ m w, eval m env a = .ok w ∧ d = .declared k w ⟨env, x, b⟩ := by
  obtain ⟨m, rfl⟩ := evalChain_pos h
  simp only [evalChain, Eval.bind_eq_ok, Eval.pure_eq_ok] at h
  exact ⟨m, h⟩

theorem evalChain_fulfilled (h : evalChain n env (.fulfilled k x a b c) = .ok d) :
    ∃ m u, eval m env b = .ok u ∧ ∃ w, eval m env a = .ok w ∧
      ∃ r, evalChain m ((x, u) :: env) c = .ok r ∧ d = .fulfilled k w u r := by
  obtain ⟨m, rfl⟩ := evalChain_pos h
  simp only [evalChain, Eval.bind_eq_ok, Eval.pure_eq_ok] at h
  exact ⟨m, h⟩

end

namespace Neutral

variable {n : Nat} {s : Solution} {used : List Name} {p : Plicity} {k : Name} {f : Neutral}
  {a v : Value} {t : Term}

theorem reify_pos (h : f.reify n s used = .ok t) : ∃ m, n = m + 1 := by
  cases n with
  | zero => simp [reify] at h
  | succ m => exact ⟨m, rfl⟩

theorem reify_app (h : (app p f a v).reify n s used = .ok t) :
    ∃ m g, f.reify m s used = .ok g ∧ ∃ w, v.reify m s used = .ok w ∧ t = .app p g w := by
  obtain ⟨m, rfl⟩ := reify_pos h
  simp only [reify, Eval.bind_eq_ok, Eval.pure_eq_ok] at h
  exact ⟨m, h⟩

theorem reify_car (h : (car f).reify n s used = .ok t) :
    ∃ m g, f.reify m s used = .ok g ∧ t = .car g := by
  obtain ⟨m, rfl⟩ := reify_pos h
  simp only [reify, Eval.bind_eq_ok, Eval.pure_eq_ok] at h
  exact ⟨m, h⟩

theorem reify_cdr (h : (cdr f).reify n s used = .ok t) :
    ∃ m g, f.reify m s used = .ok g ∧ t = .cdr g := by
  obtain ⟨m, rfl⟩ := reify_pos h
  simp only [reify, Eval.bind_eq_ok, Eval.pure_eq_ok] at h
  exact ⟨m, h⟩

theorem reify_dot (h : (dot f k).reify n s used = .ok t) :
    ∃ m g, f.reify m s used = .ok g ∧ t = .dot g k := by
  obtain ⟨m, rfl⟩ := reify_pos h
  simp only [reify, Eval.bind_eq_ok, Eval.pure_eq_ok] at h
  exact ⟨m, h⟩

end Neutral

namespace Value

variable {n : Nat} {s : Solution} {used : List Name} {p : Plicity} {a b c : Value}
  {d : Closure} {t : Term}

/-- A value that is not stuck is forced already. -/
theorem reify_force (h : a.reify n s used = .ok t) (ha : ∀ b spine, a ≠ .neutral b spine) :
    ∃ m, n = m + 1 ∧ a.force m s = .ok a := by
  cases n with
  | zero => simp [reify] at h
  | succ m =>
    refine ⟨m, rfl, ?_⟩
    unfold reify at h
    simp only [Eval.bind_eq_ok] at h
    obtain ⟨w, hw, -⟩ := h
    cases m with
    | zero => simp [force] at hw
    | succ m =>
      unfold force
      split
      · next b spine => exact absurd rfl (ha b spine)
      · rfl

theorem reify_pi (h : (pi p a d).reify n s used = .ok t) :
    ∃ m r, d.apply m (.variable a (d.x.fresh used)) = .ok r ∧
      ∃ b, r.reify m s (d.x.fresh used :: used) = .ok b ∧
        ∃ c, a.reify m s used = .ok c ∧ t = .pi p (d.x.fresh used) c b := by
  obtain ⟨m, rfl, hforce⟩ := reify_force h (by simp)
  simp only [reify, hforce, Eval.bind_eq_ok, Eval.pure_eq_ok, Except.ok.injEq, exists_eq_left'] at h
  exact ⟨m, h⟩

theorem reify_fn (h : (fn p a d).reify n s used = .ok t) :
    ∃ m r, d.apply m (.variable a (d.x.fresh used)) = .ok r ∧
      ∃ b, r.reify m s (d.x.fresh used :: used) = .ok b ∧
        ∃ c, a.reify m s used = .ok c ∧ t = .fn p (d.x.fresh used) c b := by
  obtain ⟨m, rfl, hforce⟩ := reify_force h (by simp)
  simp only [reify, hforce, Eval.bind_eq_ok, Eval.pure_eq_ok, Except.ok.injEq, exists_eq_left'] at h
  exact ⟨m, h⟩

theorem reify_sigma (h : (sigma a d).reify n s used = .ok t) :
    ∃ m r, d.apply m (.variable a (d.x.fresh used)) = .ok r ∧
      ∃ b, r.reify m s (d.x.fresh used :: used) = .ok b ∧
        ∃ c, a.reify m s used = .ok c ∧ t = .sigma (d.x.fresh used) c b := by
  obtain ⟨m, rfl, hforce⟩ := reify_force h (by simp)
  simp only [reify, hforce, Eval.bind_eq_ok, Eval.pure_eq_ok, Except.ok.injEq, exists_eq_left'] at h
  exact ⟨m, h⟩

theorem reify_cons (h : (cons a b).reify n s used = .ok t) :
    ∃ m u, a.reify m s used = .ok u ∧ ∃ w, b.reify m s used = .ok w ∧ t = .cons u w := by
  obtain ⟨m, rfl, hforce⟩ := reify_force h (by simp)
  simp only [reify, hforce, Eval.bind_eq_ok, Eval.pure_eq_ok, Except.ok.injEq, exists_eq_left'] at h
  exact ⟨m, h⟩

theorem reify_equal (h : (equal a b c).reify n s used = .ok t) :
    ∃ m d, a.reify m s used = .ok d ∧ ∃ u, b.reify m s used = .ok u ∧
      ∃ w, c.reify m s used = .ok w ∧
      t = .equal d u w := by
  obtain ⟨m, rfl, hforce⟩ := reify_force h (by simp)
  simp only [reify, hforce, Eval.bind_eq_ok, Eval.pure_eq_ok, Except.ok.injEq, exists_eq_left'] at h
  exact ⟨m, h⟩

theorem reify_same (h : (same a).reify n s used = .ok t) :
    ∃ m u, a.reify m s used = .ok u ∧ t = .same u := by
  obtain ⟨m, rfl, hforce⟩ := reify_force h (by simp)
  simp only [reify, hforce, Eval.bind_eq_ok, Eval.pure_eq_ok, Except.ok.injEq, exists_eq_left'] at h
  exact ⟨m, h⟩

theorem reify_classOf {e : Chain} (h : (classOf e).reify n s used = .ok t) :
    ∃ m, e.reify m s used = .ok t := by
  obtain ⟨m, rfl, hforce⟩ := reify_force h (by simp)
  simp only [reify, hforce, Eval.bind_eq_ok, Except.ok.injEq, exists_eq_left'] at h
  exact ⟨m, h⟩

theorem reify_object {fields : List (Name × Value)} (h : (object fields).reify n s used = .ok t) :
    ∃ m fs, (fields.mapM fun (label, a) => do
      let a ← a.reify m s used
      pure (label, a)) = .ok fs ∧ t = .object fs := by
  obtain ⟨m, rfl, hforce⟩ := reify_force h (by simp)
  simp only [reify, hforce, Eval.bind_eq_ok, Eval.pure_eq_ok, Except.ok.injEq, exists_eq_left'] at h
  obtain ⟨fs, hfs, rfl⟩ := h
  exact ⟨m, fs, hfs, rfl⟩

end Value

namespace Chain

variable {n : Nat} {s : Solution} {used : List Name} {k : Name} {a v : Value} {c : Chain}
  {d : Closure} {t : Term}

theorem reify_pos (h : c.reify n s used = .ok t) : ∃ m, n = m + 1 := by
  cases n with
  | zero => simp [reify] at h
  | succ m => exact ⟨m, rfl⟩

theorem reify_declared (h : (declared k a d).reify n s used = .ok t) :
    ∃ m u, a.reify m s used = .ok u ∧ ∃ e, d.applyChain m (.variable a (k.fresh used)) = .ok e ∧
      ∃ r, e.reify m s (k.fresh used :: used) = .ok r ∧ t = .declared k (k.fresh used) u r := by
  obtain ⟨m, rfl⟩ := reify_pos h
  simp only [reify, Eval.bind_eq_ok, Eval.pure_eq_ok] at h
  exact ⟨m, h⟩

theorem reify_fulfilled (h : (fulfilled k a v c).reify n s used = .ok t) :
    ∃ m u, a.reify m s used = .ok u ∧ ∃ w, v.reify m s used = .ok w ∧
      ∃ r, c.reify m s (k.fresh used :: used) = .ok r ∧ t = .fulfilled k (k.fresh used) u w r := by
  obtain ⟨m, rfl⟩ := reify_pos h
  simp only [reify, Eval.bind_eq_ok, Eval.pure_eq_ok] at h
  exact ⟨m, h⟩

end Chain

end DependentClasses
