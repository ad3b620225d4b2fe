import DependentClasses.Proofs.Success

/-! More fuel keeps an answer. Two computations of the same thing that both come to an end
therefore agree, whatever depth each was allowed. -/
namespace DependentClasses

namespace Eval

variable {α β : Type}

/-- Whatever the first computation finds, the second finds too. -/
def Le (x y : Eval α) : Prop := ∀ a, x = .ok a → y = .ok a

theorem Le.refl (x : Eval α) : x.Le x := fun _ h => h

theorem Le.trans {x y z : Eval α} (h : x.Le y) (h' : y.Le z) : x.Le z := fun a ha => h' a (h a ha)

theorem Le.bind {x y : Eval α} {f g : α → Eval β} (h : x.Le y) (h' : ∀ a, (f a).Le (g a)) :
    (x >>= f).Le (y >>= g) := by
  intro b hb
  obtain ⟨a, ha, hb⟩ := bind_eq_ok.1 hb
  exact bind_eq_ok.2 ⟨a, h a ha, h' a b hb⟩

theorem Le.map {x y : Eval α} {f : α → β} (h : x.Le y) : (f <$> x).Le (f <$> y) := by
  intro b hb
  obtain ⟨a, ha, hb⟩ := map_eq_ok.1 hb
  exact map_eq_ok.2 ⟨a, h a ha, hb⟩

theorem Le.mapM {f g : α → Eval β} (h : ∀ a, (f a).Le (g a)) (xs : List α) :
    (xs.mapM f).Le (xs.mapM g) := by
  induction xs with
  | nil =>
    rw [List.mapM_nil, List.mapM_nil]
    exact .refl _
  | cons x xs ih =>
    rw [List.mapM_cons, List.mapM_cons]
    exact .bind (h x) fun b => .bind ih fun bs => .refl _

theorem le_of_le {x : Nat → Eval α} (h : ∀ n, (x n).Le (x (n + 1))) {n m : Nat} (hnm : n ≤ m) :
    (x n).Le (x m) := by
  induction hnm with
  | refl => exact .refl _
  | step _ ih => exact ih.trans (h _)

/-- What a growing amount of fuel finds is one answer. -/
theorem eq_of_ok {x : Nat → Eval α} (h : ∀ n, (x n).Le (x (n + 1))) {n m : Nat} {a b : α}
    (ha : x n = .ok a) (hb : x m = .ok b) : a = b := by
  have ha' := le_of_le h (Nat.le_max_left n m) a ha
  have hb' := le_of_le h (Nat.le_max_right n m) b hb
  rw [hb'] at ha'
  exact (Except.ok.inj ha').symm

end Eval

structure EvalGrows (n : Nat) : Prop where
  eval (env : Environment) (t : Term) : (eval n env t).Le (eval (n + 1) env t)
  chain (env : Environment) (t : Term) : (evalChain n env t).Le (evalChain (n + 1) env t)
  app (p : Plicity) (f a : Value) : (f.app n p a).Le (f.app (n + 1) p a)
  cdr (v : Value) : (v.cdr n).Le (v.cdr (n + 1))
  dot (v : Value) (k : Name) : (v.dot n k).Le (v.dot (n + 1) k)
  find (c : Chain) (v : Value) (k : Name) : (c.find n v k).Le (c.find (n + 1) v k)

namespace EvalGrows

variable {n : Nat}

theorem eval_succ (ih : EvalGrows n) (env : Environment) (t : Term) :
    (DependentClasses.eval (n + 1) env t).Le (DependentClasses.eval (n + 2) env t) := by
  unfold DependentClasses.eval
  cases t with
  | var | type | string | quote | trivial | sole => exact .refl _
  | pi | fn | sigma | same => exact .bind (ih.eval _ _) fun _ => .refl _
  | cons => exact .bind (ih.eval _ _) fun _ => .bind (ih.eval _ _) fun _ => .refl _
  | equal =>
    exact .bind (ih.eval _ _) fun _ => .bind (ih.eval _ _) fun _ =>
      .bind (ih.eval _ _) fun _ => .refl _
  | app => exact .bind (ih.eval _ _) fun _ => .bind (ih.eval _ _) fun _ => ih.app _ _ _
  | car => exact .bind (ih.eval _ _) fun _ => .refl _
  | cdr => exact .bind (ih.eval _ _) fun _ => ih.cdr _
  | emptyClass | declared | fulfilled => exact .bind (ih.chain _ _) fun _ => .refl _
  | object fields =>
    exact .bind (.mapM (fun f => .bind (ih.eval _ _) fun _ => .refl _) fields) fun _ => .refl _
  | dot => exact .bind (ih.eval _ _) fun _ => ih.dot _ _
  | letIn => exact .bind (ih.eval _ _) fun _ => ih.eval _ _

theorem chain_succ (ih : EvalGrows n) (env : Environment) (t : Term) :
    (evalChain (n + 1) env t).Le (evalChain (n + 2) env t) := by
  unfold evalChain
  split
  · exact .refl _
  · exact .bind (ih.eval _ _) fun _ => .refl _
  · exact .bind (ih.eval _ _) fun _ => .bind (ih.eval _ _) fun _ =>
      .bind (ih.chain _ _) fun _ => .refl _
  · exact .refl _

theorem app_succ (ih : EvalGrows n) (p : Plicity) (f a : Value) :
    (f.app (n + 1) p a).Le (f.app (n + 2) p a) := by
  unfold Value.app
  split
  · split
    · exact ih.eval _ _
    · exact .refl _
  · split
    · exact .bind (ih.eval _ _) fun _ => .refl _
    · exact .refl _
  · exact .refl _
  · exact .refl _

theorem cdr_succ (ih : EvalGrows n) (v : Value) : (v.cdr (n + 1)).Le (v.cdr (n + 2)) := by
  unfold Value.cdr
  split
  · exact .refl _
  · exact .bind (ih.eval _ _) fun _ => .refl _
  · exact .refl _
  · exact .refl _

theorem dot_succ (ih : EvalGrows n) (v : Value) (k : Name) :
    (v.dot (n + 1) k).Le (v.dot (n + 2) k) := by
  unfold Value.dot
  split
  · exact .refl _
  · exact .bind (ih.find _ _ _) fun _ => .refl _
  · exact .refl _
  · exact .refl _

theorem find_succ (ih : EvalGrows n) (c : Chain) (v : Value) (k : Name) :
    (c.find (n + 1) v k).Le (c.find (n + 2) v k) := by
  unfold Chain.find
  split
  · exact .refl _
  · split
    · exact .refl _
    · exact .bind (ih.dot _ _) fun _ => .bind (ih.eval _ _) fun _ =>
        .bind (.refl _) fun _ => ih.find _ _ _
  · split
    · exact .refl _
    · exact ih.find _ _ _

theorem all (n : Nat) : EvalGrows n := by
  induction n with
  | zero =>
    constructor <;> intros <;> intro r h <;>
      simp [DependentClasses.eval, evalChain, Value.app, Value.cdr, Value.dot, Chain.find] at h
  | succ n ih =>
    exact ⟨ih.eval_succ, ih.chain_succ, ih.app_succ, ih.cdr_succ, ih.dot_succ, ih.find_succ⟩

end EvalGrows

theorem eval_unique {n m : Nat} {env : Environment} {t : Term} {v w : Value}
    (hv : eval n env t = .ok v) (hw : eval m env t = .ok w) : v = w :=
  Eval.eq_of_ok (fun n => (EvalGrows.all n).eval env t) hv hw

theorem Neutral.resume_grows (n : Nat) (s : Solution) :
    ∀ spine : Neutral, (spine.resume n s).Le (spine.resume (n + 1) s)
  | .var _ => .refl _
  | .app p f _ a => .bind (resume_grows n s f) fun
    | some g => .map ((EvalGrows.all n).app p g a)
    | none => .refl _
  | .car f => .bind (resume_grows n s f) fun
    | some _ => .refl _
    | none => .refl _
  | .cdr f => .bind (resume_grows n s f) fun
    | some v => .map ((EvalGrows.all n).cdr v)
    | none => .refl _
  | .dot f k => .bind (resume_grows n s f) fun
    | some v => .map ((EvalGrows.all n).dot v k)
    | none => .refl _

theorem Value.force_grows (n : Nat) (s : Solution) (v : Value) :
    (v.force n s).Le (v.force (n + 1) s) := by
  induction n generalizing v with
  | zero =>
    intro w h
    simp [force] at h
  | succ n ih =>
    unfold force
    split
    · refine .bind (Neutral.resume_grows n s _) fun r => ?_
      cases r with
      | none => exact .refl _
      | some w => exact ih w
    · exact .refl _

/-- `w` is the value with no solved pattern variable at its head. -/
def Value.Forces (s : Solution) (v w : Value) : Prop := ∃ n, v.force n s = .ok w

theorem Value.Forces.unique {s : Solution} {v w w' : Value} (h : v.Forces s w)
    (h' : v.Forces s w') : w = w' := by
  obtain ⟨n, h⟩ := h
  obtain ⟨m, h'⟩ := h'
  exact Eval.eq_of_ok (fun n => v.force_grows n s) h h'

theorem Closure.apply_grows (n : Nat) (c : Closure) (v : Value) :
    (c.apply n v).Le (c.apply (n + 1) v) :=
  (EvalGrows.all n).eval (c.bind v) c.body

theorem Closure.applyChain_grows (n : Nat) (c : Closure) (v : Value) :
    (c.applyChain n v).Le (c.applyChain (n + 1) v) :=
  .bind (c.apply_grows n v) fun _ => .refl _

structure ReifyGrows (s : Solution) (n : Nat) : Prop where
  value (used : List Name) (v : Value) : (v.reify n s used).Le (v.reify (n + 1) s used)
  spine (used : List Name) (v : Neutral) : (v.reify n s used).Le (v.reify (n + 1) s used)
  chain (used : List Name) (v : Chain) : (v.reify n s used).Le (v.reify (n + 1) s used)

namespace ReifyGrows

variable {s : Solution} {n : Nat}

theorem value_succ (ih : ReifyGrows s n) (used : List Name) (v : Value) :
    (v.reify (n + 1) s used).Le (v.reify (n + 2) s used) := by
  unfold Value.reify
  refine .bind (v.force_grows n s) fun w => ?_
  cases w with
  | neutral => exact ih.spine _ _
  | type | string | quote | trivial | sole => exact .refl _
  | pi | fn | sigma =>
    exact .bind (Closure.apply_grows _ _ _) fun _ => .bind (ih.value _ _) fun _ =>
      .bind (ih.value _ _) fun _ => .refl _
  | cons => exact .bind (ih.value _ _) fun _ => .bind (ih.value _ _) fun _ => .refl _
  | equal =>
    exact .bind (ih.value _ _) fun _ => .bind (ih.value _ _) fun _ =>
      .bind (ih.value _ _) fun _ => .refl _
  | same => exact .bind (ih.value _ _) fun _ => .refl _
  | classOf => exact ih.chain _ _
  | object fields =>
    exact .bind (.mapM (fun f => .bind (ih.value _ _) fun _ => .refl _) fields) fun _ => .refl _

theorem spine_succ (ih : ReifyGrows s n) (used : List Name) (v : Neutral) :
    (v.reify (n + 1) s used).Le (v.reify (n + 2) s used) := by
  unfold Neutral.reify
  cases v with
  | var => exact .refl _
  | app => exact .bind (ih.spine _ _) fun _ => .bind (ih.value _ _) fun _ => .refl _
  | car | cdr | dot => exact .bind (ih.spine _ _) fun _ => .refl _

theorem chain_succ (ih : ReifyGrows s n) (used : List Name) (v : Chain) :
    (v.reify (n + 1) s used).Le (v.reify (n + 2) s used) := by
  unfold Chain.reify
  cases v with
  | nil => exact .refl _
  | declared =>
    exact .bind (ih.value _ _) fun _ => .bind (Closure.applyChain_grows _ _ _) fun _ =>
        .bind (ih.chain _ _) fun _ =>
      .refl _
  | fulfilled =>
    exact .bind (ih.value _ _) fun _ => .bind (ih.value _ _) fun _ =>
      .bind (ih.chain _ _) fun _ => .refl _

theorem all (s : Solution) (n : Nat) : ReifyGrows s n := by
  induction n with
  | zero =>
    constructor <;> intros <;> intro r h <;> simp [Value.reify, Neutral.reify, Chain.reify] at h
  | succ n ih => exact ⟨ih.value_succ, ih.spine_succ, ih.chain_succ⟩

end ReifyGrows

theorem Value.reify_unique {n m : Nat} {s : Solution} {used : List Name} {v : Value} {t u : Term}
    (ht : v.reify n s used = .ok t) (hu : v.reify m s used = .ok u) : t = u :=
  Eval.eq_of_ok (fun n => (ReifyGrows.all s n).value used v) ht hu

end DependentClasses
