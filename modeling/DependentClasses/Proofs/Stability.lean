import DependentClasses.Proofs.AlphaEquality
import DependentClasses.Proofs.Inversion
import DependentClasses.Proofs.NormalForms

/-! When normal forms are stable. Evaluating a normal form again and reading the value back
repeats it, binder by binder and operation by operation. The one step that may differ is the
selection of a property that a class fulfils: the class of the object is computed anew, and
the second time it may fulfil what it left open the first time. -/
namespace DependentClasses

/-- Where a part of a normal form is evaluated again and read back. -/
structure Place where
  env : Environment
  /-- The binders on the way, as the normal form names them. -/
  left : List Name
  /-- The binders on the way, as they are named the second time. -/
  right : List Name
  used : List Name

namespace Place

/-- Below a binder `x` of type `d`, which is named after `y` the second time. -/
def bind (p : Place) (x y : Name) (d : Value) : Place :=
  ⟨(x, .variable d (y.fresh p.used)) :: p.env, x :: p.left, y.fresh p.used :: p.right,
    y.fresh p.used :: p.used⟩

def define (p : Place) (x y : Name) (w : Value) : Place :=
  ⟨(x, w) :: p.env, x :: p.left, y.fresh p.used :: p.right, y.fresh p.used :: p.used⟩

/-- `t` is read back as it stands. -/
def Repeats (s : Solution) (p : Place) (t : Term) : Prop :=
  ∀ n m v t', eval n p.env t = .ok v → v.reify m s p.used = .ok t' →
    Term.alphaIn p.left p.right t t'

/-- The free names of `t` are unsolved variables, and are read back as the same variables. -/
structure Ready (s : Solution) (p : Place) (t : Term) : Prop where
  named : s.NamedIn p.used
  reads : ∀ y ∈ t.freeNames, ∃ a z, p.env.lookup y = some (.variable a z) ∧
    Term.sameVariable p.left p.right y z ∧ z ∈ p.used ∧ ¬ s.IsSolved z

end Place

namespace Term

/-- A selection on the way to the head of a stuck term is one that the class of its object
fulfils. -/
def Opens (env : Environment) : Term → Prop
  | .app _ f _ => f.Opens env
  | .car a => a.Opens env
  | .cdr a => a.Opens env
  | .dot a k => a.Opens env ∨ ∃ n m c spine b w, eval n env a = .ok (.neutral (.classOf c) spine) ∧
      c.find m (.neutral (.classOf c) spine) k = .ok (some (b, some w))
  | _ => False

mutual

/-- Every stuck part in which a selection comes open is read back as it stands all the same. -/
def Steady (s : Solution) (p : Place) : Term → Prop
  | .pi _ x a b => a.Steady s p ∧ ∀ n d, eval n p.env a = .ok d → b.Steady s (p.bind x x d)
  | .fn _ x a b => a.Steady s p ∧ ∀ n d, eval n p.env a = .ok d → b.Steady s (p.bind x x d)
  | .app q f a =>
    (f.Opens p.env → p.Repeats s (.app q f a)) ∧ (¬ f.Opens p.env → f.Steady s p ∧ a.Steady s p)
  | .sigma x a b => a.Steady s p ∧ ∀ n d, eval n p.env a = .ok d → b.Steady s (p.bind x x d)
  | .cons a b => a.Steady s p ∧ b.Steady s p
  | .car a => (a.Opens p.env → p.Repeats s (.car a)) ∧ (¬ a.Opens p.env → a.Steady s p)
  | .cdr a => (a.Opens p.env → p.Repeats s (.cdr a)) ∧ (¬ a.Opens p.env → a.Steady s p)
  | .equal a l r => a.Steady s p ∧ l.Steady s p ∧ r.Steady s p
  | .same a => a.Steady s p
  | .declared k x a rest =>
    a.Steady s p ∧ ∀ n d, eval n p.env a = .ok d → rest.Steady s (p.bind x k d)
  | .fulfilled k x a v rest =>
    a.Steady s p ∧ v.Steady s p ∧ ∀ n w, eval n p.env v = .ok w → rest.Steady s (p.define x k w)
  | .object fields => FieldsSteady s p fields
  | .dot a k =>
    ((Term.dot a k).Opens p.env → p.Repeats s (.dot a k)) ∧
      (¬ (Term.dot a k).Opens p.env → a.Steady s p)
  | _ => True

def FieldsSteady (s : Solution) (p : Place) : List (Name × Term) → Prop
  | [] => True
  | (_, a) :: fields => a.Steady s p ∧ FieldsSteady s p fields

end

end Term

namespace Place.Ready

variable {s : Solution} {p : Place} {t u : Term} {x y : Name}

theorem sub (h : p.Ready s t) (hu : ∀ y ∈ u.freeNames, y ∈ t.freeNames) : p.Ready s u :=
  ⟨h.named, fun y hy => h.reads y (hu y hy)⟩

/-- Behind a new name the other names are read back as before. -/
theorem under (h : p.Ready s t) {z : Name} (hz : z ∉ p.used) (hyx : y ≠ x)
    (hy : y ∈ t.freeNames) {w : Value} :
    ∃ a z', List.lookup y ((x, w) :: p.env) = some (.variable a z') ∧
      Term.sameVariable (x :: p.left) (z :: p.right) y z' ∧ z' ∈ z :: p.used ∧ ¬ s.IsSolved z' := by
  obtain ⟨a, z', hlookup, hsame, hmem, hsolved⟩ := h.reads y hy
  refine ⟨a, z', ?_, ?_, List.mem_cons_of_mem z hmem, hsolved⟩
  · rw [lookup_cons_ite, if_neg hyx, hlookup]
  · have hne : z' ≠ z := fun heq => hz (heq ▸ hmem)
    rw [Term.sameVariable_cons_of_ne _ _ hyx hne]
    exact hsame

theorem bind (h : p.Ready s t) (hu : ∀ y ∈ u.freeNames, y ≠ x → y ∈ t.freeNames) (d : Value) :
    (p.bind x y d).Ready s u := by
  have hz := Name.fresh_not_mem p.used y
  refine ⟨h.named.cons _, fun y' hy' => ?_⟩
  by_cases hyx : y' = x
  · subst hyx
    refine ⟨d, y.fresh p.used, ?_, Term.sameVariable_cons_self _ _ _ _, List.mem_cons_self,
      h.named.not_isSolved hz⟩
    rw [Place.bind, lookup_cons_ite, if_pos rfl]
  · exact h.under hz hyx (hu y' hy' hyx)

theorem define (h : p.Ready s t) (hu : ∀ y ∈ u.freeNames, y ≠ x → y ∈ t.freeNames)
    (hx : x ∉ u.freeNames) (w : Value) : (p.define x y w).Ready s u := by
  refine ⟨h.named.cons _, fun y' hy' => ?_⟩
  have hyx : y' ≠ x := fun heq => hx (heq ▸ hy')
  exact h.under (Name.fresh_not_mem p.used y) hyx (hu y' hy' hyx)

end Place.Ready

theorem Neutral.resume_eq_none {s : Solution} {n : Nat} {e : Neutral} (h : ¬ s.IsSolved e.head) :
    e.resume n s = .ok none :=
  match e with
  | .var x => by
    unfold resume
    split
    · next a v hx => exact absurd ⟨a, v, hx⟩ h
    · rfl
  | .app _ f _ _ | .car f | .cdr f | .dot f _ => by
    unfold resume
    rw [resume_eq_none (e := f) h]
    rfl

def Solution.SolvedIn (s s' : Solution) : Prop :=
  ∀ x a v, s.find x = some (.solved a v) → s'.find x = some (.solved a v)

/-- A value is forced to the same, unless the computation that it is stuck on can be resumed. -/
theorem Value.force_of_solvedIn {s s' : Solution} (hs : s.SolvedIn s') {n : Nat} {v w : Value}
    (h : v.force n s = .ok w) (hw : ∀ a e, w = .neutral a e → ¬ s'.IsSolved e.head) :
    v.force n s' = .ok w := by
  induction n generalizing v with
  | zero => simp [force] at h
  | succ n ih =>
    unfold force at h ⊢
    split at h
    · next a e =>
      by_cases hsolved : s.IsSolved e.head
      · obtain ⟨b, u, hfind⟩ := hsolved
        rw [Neutral.resume_congr (hfind.trans (hs _ _ _ hfind).symm)] at h
        obtain ⟨r, hr, h⟩ := Eval.bind_eq_ok.1 h
        rw [hr]
        cases r with
        | none => exact h
        | some u => exact ih h
      · rw [Neutral.resume_eq_none hsolved] at h
        cases h
        rw [Neutral.resume_eq_none (hw a e rfl)]
        rfl
    · exact h

/-- A computation that is stuck on an unsolved variable is read back operation by operation. -/
theorem Value.reify_neutral {s : Solution} {n : Nat} {used : List Name} {a : Value}
    {spine : Neutral} {t : Term} (h : (Value.neutral a spine).reify n s used = .ok t)
    (hhead : ¬ s.IsSolved spine.head) :
    ∃ m, spine.reify m s used = .ok t := by
  cases n with
  | zero => simp [reify] at h
  | succ n =>
    unfold reify at h
    simp only [Eval.bind_eq_ok] at h
    obtain ⟨w, hw, h⟩ := h
    cases n with
    | zero => simp [force] at hw
    | succ n =>
      simp only [force, Neutral.resume_eq_none hhead] at hw
      cases hw
      exact ⟨n + 1, h⟩

/-- Whether `t` is read back as it stands is decided by its stuck parts. -/
structure Decided (s : Solution) (t : Term) : Prop where
  value {p : Place} {n m : Nat} {v : Value} {t' : Term} :
    t.Normal → p.Ready s t → eval n p.env t = .ok v → v.reify m s p.used = .ok t' →
      (Term.alphaIn p.left p.right t t' ↔ t.Steady s p)
  stuck {p : Place} {n : Nat} {v : Value} :
    t.IsStuck → t.Normal → p.Ready s t → ¬ t.Opens p.env → eval n p.env t = .ok v →
      ∃ a spine, v = .neutral a spine ∧ ¬ s.IsSolved spine.head ∧
        ∀ m t', spine.reify m s p.used = .ok t' → (Term.alphaIn p.left p.right t t' ↔ t.Steady s p)
  chain {p : Place} {n m : Nat} {c : Chain} {t' : Term} :
    t.IsClass → t.Normal → p.Ready s t → evalChain n p.env t = .ok c → c.reify m s p.used = .ok t' →
      (Term.alphaIn p.left p.right t t' ↔ t.Steady s p)

namespace Decided

variable {s : Solution} {a b c : Term} {x k : Name} {q : Plicity}

/-- One evaluation that is read back settles whether all are. -/
theorem repeats_iff {p : Place} {n m : Nat} {v : Value} {t t' : Term} (hv : eval n p.env t = .ok v)
    (ht : v.reify m s p.used = .ok t') : Term.alphaIn p.left p.right t t' ↔ p.Repeats s t := by
  constructor
  · intro h n' m' v' t'' hv' ht'
    obtain rfl := eval_unique hv hv'
    obtain rfl := Value.reify_unique ht ht'
    exact h
  · exact fun h => h n m v t' hv ht

theorem var : Decided s (.var x) := by
  have hstuck : ∀ {p : Place} {n : Nat} {v : Value}, p.Ready s (.var x) →
      eval n p.env (.var x) = .ok v →
      ∃ a spine, v = .neutral a spine ∧ ¬ s.IsSolved spine.head ∧
        ∀ m t', spine.reify m s p.used = .ok t' → Term.alphaIn p.left p.right (.var x) t' := by
    intro p n v hready hv
    obtain ⟨a, z, hlookup, hsame, -, hsolved⟩ := hready.reads x (by simp)
    cases n with
    | zero => simp [eval] at hv
    | succ n =>
      simp only [eval, hlookup, Eval.pure_eq_ok] at hv
      subst hv
      refine ⟨a, .var z, rfl, hsolved, fun m t' ht => ?_⟩
      cases m with
      | zero => simp [Neutral.reify] at ht
      | succ m =>
        simp only [Neutral.reify, Eval.pure_eq_ok] at ht
        subst ht
        exact hsame
  refine ⟨fun _ hready hv ht => ?_, fun _ _ hready _ hv => ?_, fun h => h.elim⟩
  · obtain ⟨a, spine, rfl, hsolved, halpha⟩ := hstuck hready hv
    obtain ⟨m, ht⟩ := Value.reify_neutral ht hsolved
    exact iff_of_true (halpha m _ ht) trivial
  · obtain ⟨a, spine, rfl, hsolved, halpha⟩ := hstuck hready hv
    exact ⟨a, spine, rfl, hsolved, fun m t' ht => iff_of_true (halpha m t' ht) trivial⟩

/-- There is one value that the name of a binder can get the type of. -/
theorem below_iff {p : Place} {n : Nat} {d : Value} {y : Name} {P Q : Prop}
    (hd : eval n p.env a = .ok d) (hP : P ↔ a.Steady s p) (hQ : Q ↔ b.Steady s (p.bind x y d)) :
    P ∧ Q ↔ a.Steady s p ∧ ∀ n d, eval n p.env a = .ok d → b.Steady s (p.bind x y d) := by
  refine and_congr hP (hQ.trans ⟨fun h n' d' hd' => ?_, fun h => h n d hd⟩)
  obtain rfl := eval_unique hd hd'
  exact h

/-- A binder is repeated if its type and its body are. -/
theorem binder (ha : Decided s a) (hb : Decided s b) {p : Place} {n m : Nat} {d r : Value}
    {t a' b' : Term} (hready : p.Ready s t) (hsub : ∀ y ∈ a.freeNames, y ∈ t.freeNames)
    (hbelow : ∀ y ∈ b.freeNames, y ≠ x → y ∈ t.freeNames) (hna : a.Normal) (hnb : b.Normal)
    (hd : eval n p.env a = .ok d)
    (hr : Closure.apply m ⟨p.env, x, b⟩ (.variable d (x.fresh p.used)) = .ok r)
    (hb' : r.reify m s (x.fresh p.used :: p.used) = .ok b') (ha' : d.reify m s p.used = .ok a') :
    Term.alphaIn p.left p.right a a' ∧ Term.alphaIn (x :: p.left) (x.fresh p.used :: p.right) b b' ↔
      a.Steady s p ∧ ∀ n d, eval n p.env a = .ok d → b.Steady s (p.bind x x d) :=
  below_iff hd (ha.value hna (hready.sub hsub) hd ha') (hb.value hnb (hready.bind hbelow d) hr hb')

theorem pi (ha : Decided s a) (hb : Decided s b) : Decided s (.pi q x a b) := by
  refine ⟨fun {p n m v t'} hnormal hready hv ht => ?_, fun h => h.elim, fun h => h.elim⟩
  obtain ⟨n, d, hd, rfl⟩ := eval_pi hv
  obtain ⟨m, r, hr, b', hb', a', ha', rfl⟩ := Value.reify_pi ht
  rw [Term.alphaIn_pi]
  exact binder ha hb hready (by simp +contextual) (by simp +contextual) hnormal.1
    hnormal.2 hd hr hb' ha'

theorem fn (ha : Decided s a) (hb : Decided s b) : Decided s (.fn q x a b) := by
  refine ⟨fun {p n m v t'} hnormal hready hv ht => ?_, fun h => h.elim, fun h => h.elim⟩
  obtain ⟨n, d, hd, rfl⟩ := eval_fn hv
  obtain ⟨m, r, hr, b', hb', a', ha', rfl⟩ := Value.reify_fn ht
  rw [Term.alphaIn_fn]
  exact binder ha hb hready (by simp +contextual) (by simp +contextual) hnormal.1
    hnormal.2 hd hr hb' ha'

theorem sigma (ha : Decided s a) (hb : Decided s b) : Decided s (.sigma x a b) := by
  refine ⟨fun {p n m v t'} hnormal hready hv ht => ?_, fun h => h.elim, fun h => h.elim⟩
  obtain ⟨n, d, hd, rfl⟩ := eval_sigma hv
  obtain ⟨m, r, hr, b', hb', a', ha', rfl⟩ := Value.reify_sigma ht
  rw [Term.alphaIn_sigma]
  exact binder ha hb hready (by simp +contextual) (by simp +contextual) hnormal.1
    hnormal.2 hd hr hb' ha'

theorem cons (ha : Decided s a) (hb : Decided s b) : Decided s (.cons a b) := by
  refine ⟨fun {p n m v t'} hnormal hready hv ht => ?_, fun h => h.elim, fun h => h.elim⟩
  obtain ⟨n, u, hu, w, hw, rfl⟩ := eval_cons hv
  obtain ⟨m, a', ha', b', hb', rfl⟩ := Value.reify_cons ht
  rw [Term.alphaIn_cons]
  exact and_congr (ha.value hnormal.1 (hready.sub (by simp +contextual)) hu ha')
    (hb.value hnormal.2 (hready.sub (by simp +contextual)) hw hb')

theorem equal (ha : Decided s a) (hb : Decided s b) (hc : Decided s c) :
    Decided s (.equal a b c) := by
  refine ⟨fun {p n m v t'} hnormal hready hv ht => ?_, fun h => h.elim, fun h => h.elim⟩
  obtain ⟨n, d, hd, u, hu, w, hw, rfl⟩ := eval_equal hv
  obtain ⟨m, a', ha', b', hb', c', hc', rfl⟩ := Value.reify_equal ht
  obtain ⟨hna, hnb, hnc⟩ := hnormal
  rw [Term.alphaIn_equal]
  exact and_congr (ha.value hna (hready.sub (by simp +contextual)) hd ha')
    (and_congr (hb.value hnb (hready.sub (by simp +contextual)) hu hb')
      (hc.value hnc (hready.sub (by simp +contextual)) hw hc'))

theorem same (ha : Decided s a) : Decided s (.same a) := by
  refine ⟨fun {p n m v t'} hnormal hready hv ht => ?_, fun h => h.elim, fun h => h.elim⟩
  obtain ⟨n, u, hu, rfl⟩ := eval_same hv
  obtain ⟨m, a', ha', rfl⟩ := Value.reify_same ht
  exact ha.value hnormal (hready.sub (by simp)) hu ha'

theorem fields {fields : List (Name × Term)} (h : ∀ f ∈ fields, Decided s f.2)
    {p : Place} {n m : Nat} {fs : List (Name × Value)} {gs : List (Name × Term)}
    (hnormal : ∀ f ∈ fields, f.2.Normal) (hready : ∀ f ∈ fields, p.Ready s f.2)
    (hfs : (fields.mapM fun (label, a) => do
      let a ← eval n p.env a
      pure (label, a)) = .ok fs)
    (hgs : (fs.mapM fun (label, a) => do
      let a ← a.reify m s p.used
      pure (label, a)) = .ok gs) :
    Term.alphaFieldsIn p.left p.right fields gs ↔ Term.FieldsSteady s p fields := by
  induction fields generalizing fs gs with
  | nil =>
    cases Eval.pure_eq_ok.1 hfs
    cases Eval.pure_eq_ok.1 hgs
    exact iff_of_true rfl trivial
  | cons f fields ih =>
    simp only [List.mapM_cons, Eval.bind_eq_ok, Eval.pure_eq_ok] at hfs
    obtain ⟨_, ⟨w, hw, rfl⟩, fs, hfs, rfl⟩ := hfs
    simp only [List.mapM_cons, Eval.bind_eq_ok, Eval.pure_eq_ok] at hgs
    obtain ⟨_, ⟨u, hu, rfl⟩, gs, hgs, rfl⟩ := hgs
    refine Term.alphaFieldsIn_cons.trans (and_congr ?_ ?_)
    · exact (h f List.mem_cons_self).value (hnormal f List.mem_cons_self)
        (hready f List.mem_cons_self) hw hu
    · exact ih (fun g hg => h g (List.mem_cons_of_mem f hg))
        (fun g hg => hnormal g (List.mem_cons_of_mem f hg))
        (fun g hg => hready g (List.mem_cons_of_mem f hg)) hfs hgs

theorem object {fs : List (Name × Term)} (h : ∀ f ∈ fs, Decided s f.2) :
    Decided s (.object fs) := by
  refine ⟨fun {p n m v t'} hnormal hready hv ht => ?_, fun h => h.elim, fun h => h.elim⟩
  obtain ⟨n, vs, hvs, rfl⟩ := eval_object hv
  obtain ⟨m, gs, hgs, rfl⟩ := Value.reify_object ht
  have hready : ∀ f ∈ fs, p.Ready s f.2 :=
    fun f hf => hready.sub fun y hy => Term.mem_freeNames_object.2 ⟨f, hf, hy⟩
  exact fields h ((Term.fieldsNormal_iff fs).1 hnormal) hready hvs hgs

/-- A stuck term is repeated, if no selection in it comes open, operation by operation. -/
theorem of_stuck {t : Term} {parts : Place → Prop} (hclass : ¬ t.IsClass)
    (hsteady : ∀ p, t.Steady s p ↔ (t.Opens p.env → p.Repeats s t) ∧ (¬ t.Opens p.env → parts p))
    (hstuck : ∀ {p : Place} {n : Nat} {v : Value}, t.Normal → p.Ready s t → ¬ t.Opens p.env →
      eval n p.env t = .ok v → ∃ a spine, v = .neutral a spine ∧ ¬ s.IsSolved spine.head ∧
        ∀ m t', spine.reify m s p.used = .ok t' → (Term.alphaIn p.left p.right t t' ↔ parts p)) :
    Decided s t := by
  refine ⟨fun {p n m v t'} hnormal hready hv ht => ?_, fun {p n v} _ hnormal hready hopen hv => ?_,
    fun h => absurd h hclass⟩
  · rw [hsteady]
    by_cases hopen : t.Opens p.env
    · simp only [hopen, forall_const, not_true_eq_false, false_implies, and_true]
      exact repeats_iff hv ht
    · obtain ⟨a, spine, rfl, hhead, halpha⟩ := hstuck hnormal hready hopen hv
      obtain ⟨m, ht⟩ := Value.reify_neutral ht hhead
      simp only [hopen, false_implies, not_false_eq_true, forall_const, true_and]
      exact halpha m t' ht
  · obtain ⟨a, spine, rfl, hhead, halpha⟩ := hstuck hnormal hready hopen hv
    refine ⟨a, spine, rfl, hhead, fun m t' ht => ?_⟩
    rw [hsteady]
    simp only [hopen, false_implies, not_false_eq_true, forall_const, true_and]
    exact halpha m t' ht

theorem app (ha : Decided s a) (hb : Decided s b) : Decided s (.app q a b) := by
  refine of_stuck (fun h => h) (fun p => Iff.rfl) fun {p n v} hnormal hready hopen hv => ?_
  obtain ⟨hstuck, hna, hnb⟩ := hnormal
  obtain ⟨n, f, hf, w, hw, hv⟩ := eval_app hv
  obtain ⟨d, spine, rfl, hhead, halpha⟩ :=
    ha.stuck hstuck hna (hready.sub (by simp +contextual)) hopen hf
  cases n with
  | zero => simp [Value.app] at hv
  | succ n =>
    unfold Value.app at hv
    split at hv
    · next heq => cases heq
    · next c e heq =>
      cases heq
      split at hv
      · simp only [Eval.bind_eq_ok, Eval.pure_eq_ok] at hv
        obtain ⟨r, -, rfl⟩ := hv
        refine ⟨r, _, rfl, hhead, fun m t' ht => ?_⟩
        obtain ⟨m, g, hg, u, hu, rfl⟩ := Neutral.reify_app ht
        rw [Term.alphaIn_app]
        exact and_congr (halpha m g hg) (hb.value hnb (hready.sub (by simp +contextual)) hw hu)
      · simp at hv
    · simp at hv
    · simp at hv

theorem car (ha : Decided s a) : Decided s (.car a) := by
  refine of_stuck (fun h => h) (fun p => Iff.rfl) fun {p n v} hnormal hready hopen hv => ?_
  obtain ⟨n, w, hw, hv⟩ := eval_car hv
  obtain ⟨d, spine, rfl, hhead, halpha⟩ :=
    ha.stuck hnormal.1 hnormal.2 (hready.sub (by simp)) hopen hw
  unfold Value.car at hv
  split at hv
  · next heq => cases heq
  · next heq =>
    cases heq
    rw [Eval.pure_eq_ok] at hv
    refine ⟨_, _, hv, hhead, fun m t' ht => ?_⟩
    obtain ⟨m, g, hg, rfl⟩ := Neutral.reify_car ht
    exact halpha m g hg
  · simp at hv
  · simp at hv

theorem cdr (ha : Decided s a) : Decided s (.cdr a) := by
  refine of_stuck (fun h => h) (fun p => Iff.rfl) fun {p n v} hnormal hready hopen hv => ?_
  obtain ⟨n, w, hw, hv⟩ := eval_cdr hv
  obtain ⟨d, spine, rfl, hhead, halpha⟩ :=
    ha.stuck hnormal.1 hnormal.2 (hready.sub (by simp)) hopen hw
  cases n with
  | zero => simp [Value.cdr] at hv
  | succ n =>
    unfold Value.cdr at hv
    split at hv
    · next heq => cases heq
    · next heq =>
      cases heq
      simp only [Eval.bind_eq_ok, Eval.pure_eq_ok] at hv
      obtain ⟨r, -, rfl⟩ := hv
      refine ⟨r, _, rfl, hhead, fun m t' ht => ?_⟩
      obtain ⟨m, g, hg, rfl⟩ := Neutral.reify_cdr ht
      exact halpha m g hg
    · simp at hv
    · simp at hv

theorem dot (ha : Decided s a) : Decided s (.dot a k) := by
  refine of_stuck (fun h => h) (fun p => Iff.rfl) fun {p n v} hnormal hready hopen hv => ?_
  obtain ⟨n, w, hw, hv⟩ := eval_dot hv
  obtain ⟨d, spine, rfl, hhead, halpha⟩ :=
    ha.stuck hnormal.1 hnormal.2 (hready.sub (by simp)) (fun h => hopen (.inl h)) hw
  cases n with
  | zero => simp [Value.dot] at hv
  | succ n =>
    unfold Value.dot at hv
    split at hv
    · next heq => cases heq
    · next c e heq =>
      cases heq
      simp only [Eval.bind_eq_ok] at hv
      obtain ⟨found, hfound, hv⟩ := hv
      split at hv
      · exact absurd (.inr ⟨_, _, _, _, _, _, hw, hfound⟩) hopen
      · rw [Eval.pure_eq_ok] at hv
        refine ⟨_, _, hv, hhead, fun m t' ht => ?_⟩
        obtain ⟨m, g, hg, rfl⟩ := Neutral.reify_dot ht
        rw [Term.alphaIn_dot]
        exact halpha m g hg
      · simp at hv
    · simp at hv
    · simp at hv

theorem eval_class {t : Term} {n : Nat} {env : Environment} {v : Value} (ht : t.IsClass)
    (h : eval n env t = .ok v) :
    ∃ m c, evalChain m env t = .ok c ∧ v = .classOf c := by
  obtain ⟨m, rfl⟩ := eval_pos h
  cases t with
  | emptyClass | declared | fulfilled =>
    simp only [eval, Eval.bind_eq_ok, Eval.pure_eq_ok] at h
    exact ⟨m, h⟩
  | _ => exact ht.elim

theorem of_class {t : Term} (hclass : t.IsClass) (hstuck : ¬ t.IsStuck)
    (hchain : ∀ {p : Place} {n m : Nat} {c : Chain} {t' : Term}, t.Normal → p.Ready s t →
      evalChain n p.env t = .ok c → c.reify m s p.used = .ok t' →
        (Term.alphaIn p.left p.right t t' ↔ t.Steady s p)) : Decided s t := by
  refine ⟨fun {p n m v t'} hnormal hready hv ht => ?_, fun h => absurd h hstuck, fun _ => hchain⟩
  obtain ⟨n, c, hc, rfl⟩ := eval_class hclass hv
  obtain ⟨m, ht⟩ := Value.reify_classOf ht
  exact hchain hnormal hready hc ht

theorem emptyClass : Decided s .emptyClass := by
  refine of_class trivial (fun h => h) fun {p n m c t'} _ _ hc ht => ?_
  obtain ⟨n, rfl⟩ := evalChain_pos hc
  simp only [evalChain, Eval.pure_eq_ok] at hc
  subst hc
  obtain ⟨m, rfl⟩ := Chain.reify_pos ht
  simp only [Chain.reify, Eval.pure_eq_ok] at ht
  subst ht
  exact iff_of_true rfl trivial

theorem declared (ha : Decided s a) (hb : Decided s b) : Decided s (.declared k x a b) := by
  refine of_class trivial (fun h => h) fun {p n m c t'} hnormal hready hc ht => ?_
  obtain ⟨hna, hclass, hnb⟩ := hnormal
  obtain ⟨n, d, hd, rfl⟩ := evalChain_declared hc
  obtain ⟨m, a', ha', e, he, b', hb', rfl⟩ := Chain.reify_declared ht
  simp only [Closure.applyChain, Eval.bind_eq_ok] at he
  obtain ⟨r, hr, he⟩ := he
  obtain ⟨_, e, hrest, rfl⟩ := eval_class hclass hr
  cases Eval.pure_eq_ok.1 he
  rw [Term.alphaIn_declared]
  exact below_iff hd (ha.value hna (hready.sub (by simp +contextual)) hd ha')
    (hb.chain hclass hnb (hready.bind (by simp +contextual) d) hrest hb')

theorem fulfilled (ha : Decided s a) (hb : Decided s b) (hc : Decided s c) :
    Decided s (.fulfilled k x a b c) := by
  refine of_class trivial (fun h => h) fun {p n m e t'} hnormal hready he ht => ?_
  obtain ⟨hna, hnb, hclass, hnc, hx⟩ := hnormal
  obtain ⟨n, u, hu, w, hw, r, hr, rfl⟩ := evalChain_fulfilled he
  obtain ⟨m, a', ha', b', hb', c', hc', rfl⟩ := Chain.reify_fulfilled ht
  have hrest := hc.chain hclass hnc (hready.define (by simp +contextual) hx u) hr hc'
  rw [Term.alphaIn_fulfilled]
  refine and_congr (ha.value hna (hready.sub (by simp +contextual)) hw ha') ?_
  refine and_congr (hb.value hnb (hready.sub (by simp +contextual)) hu hb')
    (hrest.trans ⟨fun h n' u' hu' => ?_, ?_⟩)
  · obtain rfl := eval_unique hu hu'
    exact h
  · exact fun h => h n u hu

end Decided

inductive Constant : Term → Value → Prop
  | type : Constant .type .type
  | string : Constant .string .string
  | quote (text : String) : Constant (.quote text) (.quote text)
  | trivial : Constant .trivial .trivial
  | sole : Constant .sole .sole

theorem Decided.constant {s : Solution} {t : Term} {v : Value} (h : Constant t v) :
    Decided s t := by
  refine ⟨fun {p n m w t'} _ _ hw ht => ?_, fun hstuck => by cases h <;> exact hstuck.elim,
    fun hclass => by cases h <;> exact hclass.elim⟩
  obtain ⟨n, rfl⟩ := eval_pos hw
  cases h
  all_goals
    simp only [eval, Eval.pure_eq_ok] at hw
    subst hw
    obtain ⟨m, rfl, hforce⟩ := Value.reify_force ht (by simp)
    simp only [Value.reify, hforce, Eval.bind_eq_ok, Eval.pure_eq_ok, Except.ok.injEq,
      exists_eq_left'] at ht
    subst ht
    exact iff_of_true (by simp [Term.alphaIn]) True.intro

mutual

theorem decided (s : Solution) : ∀ t : Term, Decided s t
  | .var _ => .var
  | .pi _ _ a b => .pi (decided s a) (decided s b)
  | .fn _ _ a b => .fn (decided s a) (decided s b)
  | .app _ a b => .app (decided s a) (decided s b)
  | .sigma _ a b => .sigma (decided s a) (decided s b)
  | .cons a b => .cons (decided s a) (decided s b)
  | .car a => .car (decided s a)
  | .cdr a => .cdr (decided s a)
  | .equal a l r => .equal (decided s a) (decided s l) (decided s r)
  | .same a => .same (decided s a)
  | .emptyClass => .emptyClass
  | .declared _ _ a rest => .declared (decided s a) (decided s rest)
  | .fulfilled _ _ a v rest => .fulfilled (decided s a) (decided s v) (decided s rest)
  | .object fields => .object (fieldsDecided s fields)
  | .dot a _ => .dot (decided s a)
  | .letIn .. => ⟨fun h => h.elim, fun h => h.elim, fun h => h.elim⟩
  | .type => .constant .type
  | .string => .constant .string
  | .quote text => .constant (.quote text)
  | .trivial => .constant .trivial
  | .sole => .constant .sole

theorem fieldsDecided (s : Solution) : ∀ fields : List (Name × Term), ∀ f ∈ fields, Decided s f.2
  | [], _, h => by simp at h
  | (_, a) :: fields, f, h => by
    rcases List.mem_cons.1 h with rfl | h
    · exact decided s a
    · exact fieldsDecided s fields f h

end

end DependentClasses
