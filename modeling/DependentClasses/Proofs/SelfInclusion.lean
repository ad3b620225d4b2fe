import DependentClasses.Proofs.OrderedWalks
import DependentClasses.Proofs.MirroredProperties
import DependentClasses.Proofs.Persistence

/-! A type compared with itself. Inclusion leaves the parts of a type that are no types to other
comparisons: the sides of an equation are converted, and the value of a property is unified. If such
a part is equal to itself wherever it is met, every type includes itself, at no cost to the
solution. -/
namespace DependentClasses

open Filter

/-- A value that has to be equal to itself at the type `a`. -/
inductive SelfComparison
  | conversion (ctx : Context) (a v : Value)
  | unification (ctx : Context) (a v : Value)

/-- The comparison succeeds, and nothing is bound for it. -/
def SelfComparison.Holds (s : Solution) : SelfComparison → Prop
  | .conversion ctx a v => ∃ n, (convert n s ctx a v v).Yields ()
  | .unification ctx a v => ∃ n s', (unify n ctx a v v).Yields s () s' ∧ s'.entries = s.entries

mutual

/-- The comparisons that it takes to include a type in itself. What is below a binder is met at a
new parameter. -/
inductive Value.Delegates (s : Solution) : Context → Value → SelfComparison → Prop
  | domain {ctx : Context} {T a : Value} {p : Plicity} {b : Closure} {j : SelfComparison} :
      T.Forces s (.pi p a b) → a.Delegates s ctx j → T.Delegates s ctx j
  | codomain {ctx : Context} {T a r : Value} {p : Plicity} {b : Closure} {n : Nat}
      {j : SelfComparison} :
      T.Forces s (.pi p a b) → b.apply n (s.witness ctx b.x a).2 = .ok r →
        r.Delegates s (s.witness ctx b.x a).1 j →
      T.Delegates s ctx j
  | car {ctx : Context} {T a : Value} {b : Closure} {j : SelfComparison} :
      T.Forces s (.sigma a b) → a.Delegates s ctx j → T.Delegates s ctx j
  | cdr {ctx : Context} {T a r : Value} {b : Closure} {n : Nat} {j : SelfComparison} :
      T.Forces s (.sigma a b) → b.apply n (s.witness ctx b.x a).2 = .ok r →
        r.Delegates s (s.witness ctx b.x a).1 j →
      T.Delegates s ctx j
  | equalType {ctx : Context} {T a l r : Value} {j : SelfComparison} :
      T.Forces s (.equal a l r) → a.Delegates s ctx j → T.Delegates s ctx j
  | equalLeft {ctx : Context} {T a l r : Value} : T.Forces s (.equal a l r) →
      T.Delegates s ctx (.conversion ctx a l)
  | equalRight {ctx : Context} {T a l r : Value} : T.Forces s (.equal a l r) →
      T.Delegates s ctx (.conversion ctx a r)
  | classOf {ctx : Context} {T : Value} {c : Chain} {j : SelfComparison} :
      T.Forces s (.classOf c) → c.Delegates s ctx j → T.Delegates s ctx j

/-- The comparisons that it takes to walk along a class in step with itself. -/
inductive Chain.Delegates (s : Solution) : Context → Chain → SelfComparison → Prop
  | declaredType {ctx : Context} {k : Name} {a : Value} {rest : Closure} {j : SelfComparison} :
      a.Delegates s ctx j → (Chain.declared k a rest).Delegates s ctx j
  | declaredRest {ctx : Context} {k : Name} {a : Value} {rest : Closure} {n : Nat} {c : Chain}
      {j : SelfComparison} :
      rest.applyChain n (s.witness ctx rest.x a).2 = .ok c →
        c.Delegates s (s.witness ctx rest.x a).1 j →
      (Chain.declared k a rest).Delegates s ctx j
  | fulfilledType {ctx : Context} {k : Name} {a v : Value} {rest : Chain} {j : SelfComparison} :
      a.Delegates s ctx j → (Chain.fulfilled k a v rest).Delegates s ctx j
  | fulfilledValue {ctx : Context} {k : Name} {a v : Value} {rest : Chain} :
      (Chain.fulfilled k a v rest).Delegates s ctx (.unification ctx a v)
  | fulfilledRest {ctx : Context} {k : Name} {a v : Value} {rest : Chain} {j : SelfComparison} :
      rest.Delegates s ctx j → (Chain.fulfilled k a v rest).Delegates s ctx j

end

/-- What a value is made of, and what is known of its pattern variables. -/
inductive Solution.Reaches (s : Solution) (v : Value) : Part → Prop
  | own {q : Part} : v.Has q → s.Reaches v q
  | solution {x : Name} {a w : Value} {q : Part} : s.Reaches v (.name x) →
      s.find x = some (.solved a w) → w.Has q →
      s.Reaches v q
  | type {x : Name} {a : Value} {scope : List Name} {q : Part} : s.Reaches v (.name x) →
      s.find x = some (.unsolved a scope) → a.Has q → s.Reaches v q

/-- The names of `X` are in use, and only well-formed values over `X` are known of them. -/
structure Solution.Grounded (s : Solution) (used : List Name) (X : Name → Prop) : Prop where
  named : s.NamedIn used
  mem : ∀ y, X y → y ∈ used
  solved : s.Keeps (Part.Within False X)
  unsolved : ∀ y a scope, X y → s.find y = some (.unsolved a scope) → a.All (Part.Within False X)

section

variable {s : Solution} {used : List Name} {X : Name → Prop} {ctx : Context} {n : Nat}

/-- What a type takes is decided by its forced form. -/
theorem Value.Delegates.of_pi {T a r : Value} {p : Plicity} {b : Closure} {j : SelfComparison}
    (h : T.Delegates s ctx j) (hT : T.Forces s (.pi p a b))
    (hr : b.apply n (s.witness ctx b.x a).2 = .ok r) :
    a.Delegates s ctx j ∨ r.Delegates s (s.witness ctx b.x a).1 j := by
  cases h with
  | domain h hj =>
    cases hT.unique h
    exact .inl hj
  | codomain h hr' hj =>
    cases hT.unique h
    cases Eval.eq_of_ok (fun n => b.apply_grows n _) hr hr'
    exact .inr hj
  | car h | cdr h | equalType h | equalLeft h | equalRight h | classOf h => cases hT.unique h

theorem Value.Delegates.of_equal {T a l r : Value} {j : SelfComparison} (h : T.Delegates s ctx j)
    (hT : T.Forces s (.equal a l r)) :
    a.Delegates s ctx j ∨ j = .conversion ctx a l ∨ j = .conversion ctx a r := by
  cases h with
  | equalType h hj =>
    cases hT.unique h
    exact .inl hj
  | equalLeft h =>
    cases hT.unique h
    exact .inr (.inl rfl)
  | equalRight h =>
    cases hT.unique h
    exact .inr (.inr rfl)
  | domain h | codomain h | car h | cdr h | classOf h => cases hT.unique h

theorem Value.Delegates.of_classOf {T : Value} {c : Chain} {j : SelfComparison}
    (h : T.Delegates s ctx j) (hT : T.Forces s (.classOf c)) : c.Delegates s ctx j := by
  cases h with
  | classOf h hj =>
    cases hT.unique h
    exact hj
  | domain h | codomain h | car h | cdr h | equalType h | equalLeft h | equalRight h =>
    cases hT.unique h

theorem Chain.Delegates.of_declared {k : Name} {a : Value} {rest : Closure} {c : Chain}
    {j : SelfComparison} (h : (Chain.declared k a rest).Delegates s ctx j)
    (hc : rest.applyChain n (s.witness ctx rest.x a).2 = .ok c) :
    a.Delegates s ctx j ∨ c.Delegates s (s.witness ctx rest.x a).1 j := by
  cases h with
  | declaredType hj => exact .inl hj
  | declaredRest hc' hj =>
    cases Eval.eq_of_ok (fun n => rest.applyChain_grows n _) hc hc'
    exact .inr hj

theorem SelfComparison.Holds.eventually_convert {a v : Value} (h : (conversion ctx a v).Holds s) :
    ∀ᶠ n in atTop, (convert n s ctx a v v).Yields () := by
  obtain ⟨n, h⟩ := h
  exact Eval.eventually_ok (fun n => (ConvertGrows.all s n).value ctx a v v) h

/-- Unification that binds nothing leaves the solution as it was. -/
theorem SelfComparison.Holds.eventually_unify {a v : Value} (h : (unification ctx a v).Holds s) :
    ∀ᶠ n in atTop, (unify n ctx a v v).Yields s () s := by
  obtain ⟨n, s', h, hentries⟩ := h
  have hnames := (bindsTo_of_unify h).names_eq
  have hlisting := (bindsTo_of_unify h).listing_eq
  have heq : s' = s := by
    cases s
    cases s'
    cases hentries
    cases hnames
    cases hlisting
    rfl
  exact Chain.eventually_unify (heq ▸ h)

namespace Closure

variable {c : Closure} {a : Value} {x : Name}

/-- Below a binder the bound variable joins those that a well-formed value may be over. -/
theorem apply_within {r : Value} (h : c.apply n (.variable a x) = .ok r)
    (hc : c.All (Part.Within False X)) (ha : a.All (Part.Within False X)) :
    r.All (Part.Within False fun y => X y ∨ y = x) := by
  have hmono : ∀ q, Part.Within False X q → Part.Within False (fun y => X y ∨ y = x) q :=
    Part.Within.mono fun _ => .inl
  exact apply_all h (fun q hq => hmono q (hc q hq)) (Value.all_variable.2 ⟨ha.mono hmono, .inr rfl⟩)

theorem applyChain_within {d : Chain} (h : c.applyChain n (.variable a x) = .ok d)
    (hc : c.All (Part.Within False X)) (ha : a.All (Part.Within False X)) :
    d.All (Part.Within False fun y => X y ∨ y = x) := by
  simp only [applyChain, Eval.bind_eq_ok] at h
  obtain ⟨r, hr, hd⟩ := h
  exact Value.chain_all hd (apply_within hr hc ha)

end Closure

namespace Solution.Grounded

/-- A new variable joins those in use. -/
theorem cons (h : s.Grounded used X) {x : Name} (hx : x ∉ used) :
    s.Grounded (x :: used) fun y => X y ∨ y = x where
  named := h.named.cons x
  mem := by
    rintro y (hy | rfl)
    · exact List.mem_cons_of_mem x (h.mem y hy)
    · exact List.mem_cons_self
  solved := by
    rintro y a v hfind (hy | rfl)
    · exact (h.solved y a v hfind hy).mono (Part.Within.mono fun _ => .inl)
    · exact absurd ⟨a, v, hfind⟩ (h.named.not_isSolved hx)
  unsolved := by
    rintro y a scope (hy | rfl) hfind
    · exact (h.unsolved y a scope hy hfind).mono (Part.Within.mono fun _ => .inl)
    · exact absurd (h.named y _ hfind) hx

theorem similar (h : s.Grounded used X) : s.Similar (.only X) used used s where
  find := by
    rintro y _ ⟨rfl, hy⟩
    cases hp : s.find y with
    | none => exact .none
    | some p =>
      cases p with
      | unsolved a scope =>
        exact .some (.unsolved
          (Value.Over.similar ((h.unsolved y a scope hy hp).mono Part.Within.named)))
      | solved a v =>
        exact .some (.solved (Value.Over.similar ((h.solved y a v hp hy).mono Part.Within.named)))
  mem := by
    rintro y _ ⟨rfl, hy⟩
    exact ⟨h.mem y hy, h.mem y hy⟩
  named := h.named
  named' := h.named

/-- The parts that a value reaches, where they are well-formed and the names among them are in
use. -/
theorem of_reaches {v : Value} (hs : s.NamedIn used)
    (h : ∀ q, s.Reaches v q → q.Within False (· ∈ used)) :
    s.Grounded used (fun y => s.Reaches v (.name y)) ∧
      v.All (Part.Within False fun y => s.Reaches v (.name y)) := by
  have hreached (q : Part) (hq : s.Reaches v q) : q.Within False fun y =>
      s.Reaches v (.name y) := by
    have hwithin := h q hq
    cases q with
    | name y => exact hq
    | _ => exact hwithin
  exact ⟨⟨hs, fun y hy => h _ hy, fun y a w hfind hy q hq => hreached q (.solution hy hfind hq),
    fun y a scope hy hfind q hq => hreached q (.type hy hfind hq)⟩, fun q hq =>
    hreached q (.own hq)⟩

end Solution.Grounded

/-- The second way is taken, where the solution is not as the first one asks. -/
theorem Solver.yields_unless {α : Type} {b : Solution → Bool} {x y : Solver α} {a : α}
    {s' : Solution} (hb : b s = false) :
    Solver.Yields (do
      let t ← get
      if b t then x else y) s a s' ↔ y.Yields s a s' := by
  simp only [Solver.yields_bind, Solver.yields_get]
  constructor
  · rintro ⟨_, _, ⟨rfl, rfl⟩, h⟩
    rwa [if_neg (by simp [hb])] at h
  · exact fun h => ⟨s, s, ⟨rfl, rfl⟩, by rwa [if_neg (by simp [hb])]⟩

theorem Solution.isUnsolved_eq_false {y : Name} (h : s.find y = none) : s.isUnsolved y = false := by
  rw [Solution.isUnsolved, h]

/-- What can be read back has labels: it does not matter for them what the variables of the
properties are called. -/
theorem Chain.exists_labels {c : Chain} {t : Term} (h : c.reify n s used = .ok t) :
    ∃ ks, c.labels n = .ok ks := by
  induction n generalizing c used t with
  | zero => simp [reify] at h
  | succ n ih =>
    cases c with
    | nil => exact ⟨[], rfl⟩
    | declared k a rest =>
      simp only [reify, Eval.bind_eq_ok] at h
      obtain ⟨_, -, d, hd, _, hr, -⟩ := h
      obtain ⟨ks, hks⟩ := ih hr
      have hvariable : Value.Similar (fun _ _ => True) (.variable a (k.fresh used))
          (.variable a rest.x) :=
        .neutral (a.similar_self fun _ _ => True.intro) (.var True.intro)
      obtain ⟨d', hd', hsimilar⟩ :=
        Closure.applyChain_similar (rest.similar_self fun _ _ => True.intro) hvariable d hd
      obtain ⟨_, hks', rfl⟩ := labels_similar hsimilar ks hks
      exact ⟨k :: ks, Eval.bind_eq_ok.2 ⟨d', hd', Eval.bind_eq_ok.2 ⟨ks, hks', rfl⟩⟩⟩
    | fulfilled k a v rest =>
      simp only [reify, Eval.bind_eq_ok] at h
      obtain ⟨_, -, _, -, _, hr, -⟩ := h
      obtain ⟨ks, hks⟩ := ih hr
      exact ⟨k :: ks, Eval.bind_eq_ok.2 ⟨ks, hks, rfl⟩⟩

/-- A class is in the same order as itself. -/
theorem Chain.ascending_places_self {ks : List Name} (h : ks.Nodup) : ascending (places ks ks) :=
  (ascending_places_iff ks h).2 List.filter_sublist

/-- A class is compared with itself in step. -/
theorem Chain.eventually_includeForms {c : Chain} {t : Term} (hc : c.All (Part.Within False X))
    (h : c.reify n s used = .ok t)
    (hwalk : ∀ᶠ m in atTop, (includeInStep m ctx c c).Yields s () s) :
    ∀ᶠ m in atTop, (includeForms m ctx (.classOf c) (.classOf c)).Yields s () s := by
  -- the labels are distinct, so that the walk is the one for classes in the same order
  obtain ⟨ks, hks⟩ := exists_labels h
  have hnodup : ks.Nodup :=
    labels_wellFormed hks (fun q hq => (hc q hq).wellFormed) ▸ nodup_classLabels hc
  have hlabels := Eval.eventually_ok (fun n => c.labels_grows n) hks
  have hordered : ∀ᶠ m in atTop, (includeOrdered m ctx c c).Yields s () s := by
    refine eventually_of_succ ?_
    filter_upwards [hlabels, hwalk] with m hm hwalk
    simp only [includeOrdered, includeIfCovered, Solver.yields_bind, Solver.yields_lift]
    refine ⟨ks, s, ⟨hm, rfl⟩, ks, s, ⟨hm, rfl⟩, ?_⟩
    rwa [if_pos (by simp)]
  refine eventually_of_succ ?_
  filter_upwards [hlabels, hordered] with m hm hordered
  unfold includeForms
  refine (Solver.yields_unless rfl).2 ?_
  simp only [isOrdered, hm, Solver.yields_bind, Solver.yields_lift]
  exact ⟨true, s, ⟨congrArg _ (ascending_places_self hnodup), rfl⟩, hordered⟩

/-- A forced value is forced. -/
theorem Value.force_forced {v w : Value} (h : v.force n s = .ok w) : w.force n s = .ok w := by
  cases n with
  | zero => simp [force] at h
  | succ n =>
    cases w with
    | neutral a e => simp only [force, Neutral.resume_eq_none (not_isSolved_of_force h)]; rfl
    | _ => rfl

theorem Value.reify_forced {v w : Value} (h : v.force n s = .ok w) :
    w.reify (n + 1) s used = v.reify (n + 1) s used := by
  unfold reify
  rw [force_forced h, h]

/-- Types whose normal forms are the same are equal. -/
theorem eventually_includeEqual {T : Value} {t : Term} (h : s.reify n ctx T = .ok t) :
    ∀ᶠ m in atTop, (includeEqual m ctx T T).Yields s () s := by
  filter_upwards [Eval.eventually_ok (fun n => (ReifyGrows.all s n).value _ T) h] with m hm
  simp only [includeEqual, Solver.yields_bind, Solver.yields_reify]
  exact ⟨t, s, ⟨hm, rfl⟩, t, s, ⟨hm, rfl⟩, by simp⟩

/-- A type is compared with itself in its forced form. -/
theorem eventually_inclusion_self {T w : Value} (h : T.Forces s w)
    (hforms : ∀ᶠ m in atTop, (includeForms m ctx w w).Yields s () s) :
    ∀ᶠ m in atTop, (inclusion m ctx T T).Yields s () s := by
  obtain ⟨n, h⟩ := h
  refine eventually_of_succ ?_
  filter_upwards [Eval.eventually_ok (fun n => T.force_grows n s) h, hforms] with m hm hforms
  simp only [inclusion, Solver.yields_bind, Solver.yields_force]
  refine ⟨w, s, ⟨hm, rfl⟩, w, s, ⟨hm, rfl⟩, (Solver.yields_tryCatch ?_).2 hforms⟩
  simp

/-- A type or class that can be read back to the depth `n`, to a normal form without unsolved
pattern variables, is compared with itself. -/
structure IncludesItself (s : Solution) (n : Nat) : Prop where
  type {ctx : Context} {X : Name → Prop} {T : Value} {t : Term} : s.Grounded (s.usedNames ctx) X →
    T.All (Part.Within False X) → T.reify n s (s.usedNames ctx) = .ok t →
    (∀ y ∈ t.freeNames, s.isUnsolved y = false) →
    (∀ j, T.Delegates s ctx j → j.Holds s) → ∀ᶠ m in atTop, (inclusion m ctx T T).Yields s () s
  chain {ctx : Context} {X : Name → Prop} {c : Chain} {t : Term} : s.Grounded (s.usedNames ctx) X →
    c.All (Part.Within False X) → c.reify n s (s.usedNames ctx) = .ok t →
    (∀ y ∈ t.freeNames, s.isUnsolved y = false) →
    (∀ j, c.Delegates s ctx j → j.Holds s) → ∀ᶠ m in atTop, (includeInStep m ctx c c).Yields s () s

namespace IncludesItself

variable {t : Term}

/-- The body of a binder is read back and compared at the same new variable. -/
theorem body (ih : IncludesItself s n) (hs : s.Grounded (s.usedNames ctx) X)
    {a r : Value} {b : Closure} (ha : a.All (Part.Within False X))
    (hb : b.All (Part.Within False X)) (hr : b.apply n (.variable a (s.freshName ctx b.x)) = .ok r)
    (ht : r.reify n s (s.freshName ctx b.x :: s.usedNames ctx) = .ok t)
    (hfree : ∀ y ∈ t.freeNames, y ≠ s.freshName ctx b.x → s.isUnsolved y = false)
    (hholds : ∀ j, r.Delegates s (s.witness ctx b.x a).1 j → j.Holds s) :
    ∀ᶠ m in atTop, (inclusion m (s.witness ctx b.x a).1 r r).Yields s () s := by
  have hx := s.freshName_not_mem ctx b.x
  refine ih.type (hs.cons hx) (Closure.apply_within hr hb ha) ht (fun y hy => ?_) hholds
  by_cases hyx : y = s.freshName ctx b.x
  · exact hyx ▸ Solution.isUnsolved_eq_false (hs.named.find_eq_none hx)
  · exact hfree y hy hyx

/-- A type and the body of its binder. -/
theorem binder (ih : IncludesItself s n) (hs : s.Grounded (s.usedNames ctx) X) {a r : Value}
    {b : Closure} {u : Term} (ha : a.All (Part.Within False X)) (hb : b.All (Part.Within False X))
    (hr : b.apply n (.variable a (s.freshName ctx b.x)) = .ok r)
    (ht : r.reify n s (s.freshName ctx b.x :: s.usedNames ctx) = .ok t)
    (hu : a.reify n s (s.usedNames ctx) = .ok u)
    (hfree : ∀ y, y ∈ u.freeNames ∨ y ∈ t.freeNames ∧ y ≠ s.freshName ctx b.x →
      s.isUnsolved y = false) (htype : ∀ j, a.Delegates s ctx j → j.Holds s)
    (hbody : ∀ j, r.Delegates s (s.witness ctx b.x a).1 j → j.Holds s) :
    ∀ᶠ m in atTop, Solver.Yields (do
      inclusion m ctx a a
      let (ctx, v) ← Solver.witness ctx b.x a
      let b' ← b.apply m v
      let d ← b.apply m v
      inclusion m ctx b' d) s () s := by
  have hincluded := ih.type hs ha hu (fun y hy => hfree y (.inl hy)) htype
  have hbelow := ih.body hs ha hb hr ht (fun y hy hne => hfree y (.inr ⟨hy, hne⟩)) hbody
  filter_upwards [hincluded, hbelow, Eval.eventually_ok (fun n => b.apply_grows n _) hr] with m
    hincluded hbelow hr
  simp only [Solver.yields_bind, Solver.yields_witness, Solver.yields_lift]
  exact ⟨(), s, hincluded, _, s, ⟨rfl, rfl⟩, r, s, ⟨hr, rfl⟩, r, s, ⟨hr, rfl⟩, hbelow⟩

theorem type_succ (ih : IncludesItself s n) (hs : s.Grounded (s.usedNames ctx) X) {T : Value}
    (hT : T.All (Part.Within False X)) (h : T.reify (n + 1) s (s.usedNames ctx) = .ok t)
    (hfree : ∀ y ∈ t.freeNames, s.isUnsolved y = false)
    (hholds : ∀ j, T.Delegates s ctx j → j.Holds s) :
    ∀ᶠ m in atTop, (inclusion m ctx T T).Yields s () s := by
  obtain ⟨w, hw, hread⟩ := Eval.bind_eq_ok.1 h
  have hforces : T.Forces s w := ⟨n, hw⟩
  have hwithin := Value.force_all hs.solved hw hT
  -- a stuck type shows its head in the normal form, where nothing is unsolved
  have hhead : s.isPatternHeaded w = false := by
    cases w with
    | neutral a e => exact hfree _ (Neutral.head_mem_freeNames hread)
    | _ => rfl
  have hstuck : (s.isPatternHeaded w || s.isPatternHeaded w) = false := by rw [hhead]; rfl
  refine eventually_inclusion_self hforces ?_
  cases w with
  | pi p a b =>
    simp only [Eval.bind_eq_ok, Eval.pure_eq_ok] at hread
    obtain ⟨r, hr, u, hu, v, hv, rfl⟩ := hread
    obtain ⟨ha, hb⟩ := Value.all_pi.1 hwithin
    have hbinder := ih.binder hs ha hb hr hu hv (fun y hy => hfree y (Term.mem_freeNames_pi.2 hy))
      (fun j hj => hholds j (.domain hforces hj)) fun j hj => hholds j (.codomain hforces hr hj)
    refine eventually_of_succ (hbinder.mono fun m hm => ?_)
    simp only [includeForms, if_true]
    exact (Solver.yields_unless hstuck).2 hm
  | sigma a b =>
    simp only [Eval.bind_eq_ok, Eval.pure_eq_ok] at hread
    obtain ⟨r, hr, u, hu, v, hv, rfl⟩ := hread
    obtain ⟨ha, hb⟩ := Value.all_sigma.1 hwithin
    have hbinder :=
      ih.binder hs ha hb hr hu hv (fun y hy => hfree y (Term.mem_freeNames_sigma.2 hy))
      (fun j hj => hholds j (.car hforces hj)) fun j hj => hholds j (.cdr hforces hr hj)
    refine eventually_of_succ (hbinder.mono fun m hm => ?_)
    unfold includeForms
    exact (Solver.yields_unless hstuck).2 hm
  | classOf c =>
    have hc := Value.all_classOf.1 hwithin
    exact Chain.eventually_includeForms hc hread
      (ih.chain hs hc hread hfree fun j hj => hholds j (.classOf hforces hj))
  | equal a l r =>
    simp only [Eval.bind_eq_ok, Eval.pure_eq_ok] at hread
    obtain ⟨u, hu, _, -, _, -, rfl⟩ := hread
    have htype :=
      ih.type hs (Value.all_equal.1 hwithin).1 hu
        (fun y hy => hfree y (Term.mem_freeNames_equal.2 (.inl hy)))
      fun j hj => hholds j (.equalType hforces hj)
    have hleft := (hholds _ (.equalLeft hforces)).eventually_convert
    have hright := (hholds _ (.equalRight hforces)).eventually_convert
    refine eventually_of_succ ?_
    filter_upwards [htype, hleft, hright] with m htype hleft hright
    unfold includeForms
    refine (Solver.yields_unless hstuck).2 ?_
    simp only [Solver.yields_bind, Solver.yields_judging]
    exact ⟨(), s, htype, (), s, ⟨hleft, rfl⟩, hright, rfl⟩
  | _ =>
    refine eventually_of_succ
      ((eventually_includeEqual ((Value.reify_forced hw).trans h)).mono fun m hm => ?_)
    unfold includeForms
    exact (Solver.yields_unless hstuck).2 hm

/-- The rest of a class is read back at a variable named for the property, and compared at one named
for the binder. -/
theorem rest (ih : IncludesItself s n) (hs : s.Grounded (s.usedNames ctx) X) {k : Name} {a : Value}
    {rest : Closure} {d : Chain} (ha : a.All (Part.Within False X))
    (hrest : rest.All (Part.Within False X))
    (hd : rest.applyChain n (.variable a (k.fresh (s.usedNames ctx))) = .ok d)
    (ht : d.reify n s (k.fresh (s.usedNames ctx) :: s.usedNames ctx) = .ok t)
    (hfree : ∀ y ∈ t.freeNames, y ≠ k.fresh (s.usedNames ctx) → s.isUnsolved y = false)
      (hholds : ∀ m c, rest.applyChain m (s.witness ctx rest.x a).2 = .ok c →
      ∀ j, c.Delegates s (s.witness ctx rest.x a).1 j → j.Holds s) :
    ∃ c, rest.applyChain n (s.witness ctx rest.x a).2 = .ok c ∧
      ∀ᶠ m in atTop, (includeInStep m (s.witness ctx rest.x a).1 c c).Yields s () s := by
  have hx := Name.fresh_not_mem (s.usedNames ctx) k
  have hy := s.freshName_not_mem ctx rest.x
  have hsimilar := hs.similar.under hx hy
  have hle := hs.similar.le_under hx hy
  have hself (y : Name) (hy : Part.Within False X (.name y)) := hle y y ⟨rfl, hy⟩
  obtain ⟨c, hc, hdc⟩ :=
    Closure.applyChain_similar (rest.similar_self fun y hy => hself y (hrest _ hy))
    (.neutral (a.similar_self fun y hy => hself y (ha _ hy)) (.var (.inl ⟨rfl, rfl⟩))) d hd
  obtain ⟨t', ht', halike⟩ := (ReadsAlike.all s s n).chain hsimilar hdc t ht
  refine ⟨c, hc, ih.chain (hs.cons hy) (Closure.applyChain_within hc hrest ha) ht'
    (fun y' hy' => ?_) (hholds n c hc)⟩
  obtain ⟨y, hyfree, ⟨-, rfl⟩ | ⟨hne, -, rfl, -⟩⟩ := halike.symm.exists_free hy'
  · exact Solution.isUnsolved_eq_false (hs.named.find_eq_none hy)
  · exact hfree _ hyfree hne

theorem chain_succ (ih : IncludesItself s n) (hs : s.Grounded (s.usedNames ctx) X) {c : Chain}
    (hc : c.All (Part.Within False X)) (h : c.reify (n + 1) s (s.usedNames ctx) = .ok t)
    (hfree : ∀ y ∈ t.freeNames, s.isUnsolved y = false)
    (hholds : ∀ j, c.Delegates s ctx j → j.Holds s) :
    ∀ᶠ m in atTop, (includeInStep m ctx c c).Yields s () s := by
  refine eventually_of_succ ?_
  cases c with
  | nil => exact .of_forall fun m => by simp [includeInStep, includeNext]
  | declared k a rest =>
    simp only [Chain.reify, Eval.bind_eq_ok, Eval.pure_eq_ok] at h
    obtain ⟨u, hu, d, hd, r, hr, rfl⟩ := h
    obtain ⟨-, -, ha, hrest⟩ := Chain.all_declared.1 hc
    have htype := ih.type hs ha hu (fun y hy => hfree y (Term.mem_freeNames_declared.2 (.inl hy)))
      fun j hj => hholds j (.declaredType hj)
    obtain ⟨c, hc, hwalk⟩ :=
      ih.rest hs ha hrest hd hr
        (fun y hy hne => hfree y (Term.mem_freeNames_declared.2 (.inr ⟨hy, hne⟩)))
      fun m c hc j hj => hholds j (.declaredRest hc hj)
    filter_upwards [eventually_ge_atTop 1, htype, Chain.eventually_applyChain hc, hwalk] with m
      hm htype hc hwalk
    obtain ⟨m, rfl⟩ := Nat.exists_eq_add_of_le' hm
    simp only [includeInStep, includeNext, Chain.seek, if_true, Solver.yields_bind,
      Solver.yields_reading, Eval.pure_eq_ok]
    refine ⟨_, s, ⟨rfl, rfl⟩, ?_⟩
    simp only [Solver.yields_bind, Solver.yields_within, Solver.yields_witness, Solver.yields_lift]
    exact ⟨(), s, htype, _, s, ⟨rfl, rfl⟩, c, s, ⟨hc, rfl⟩, c, s, ⟨hc, rfl⟩, hwalk⟩
  | fulfilled k a v rest =>
    simp only [Chain.reify, Eval.bind_eq_ok, Eval.pure_eq_ok] at h
    obtain ⟨u, hu, w, hw, r, hr, rfl⟩ := h
    obtain ⟨-, ha, hv, hrest⟩ := Chain.all_fulfilled.1 hc
    have htype := ih.type hs ha hu (fun y hy => hfree y (Term.mem_freeNames_fulfilled.2 (.inl hy)))
      fun j hj => hholds j (.fulfilledType hj)
    have hvalue := (hholds _ .fulfilledValue).eventually_unify
    -- nothing stands for the property, so that the name it is read back with need not be in use
    have hx := Name.fresh_not_mem (s.usedNames ctx) k
    have hsimilar : s.Similar (.only X) (k.fresh (s.usedNames ctx) :: s.usedNames ctx)
        (s.usedNames ctx) s :=
      { hs.similar with
        mem := fun y y' hy => (hs.similar.mem y y' hy).imp_left (List.mem_cons_of_mem _)
        named := hs.named.cons _ }
    obtain ⟨r', hr', halike⟩ :=
      (ReadsAlike.all s s n).chain hsimilar (rest.similar_self fun y hy => ⟨rfl, hrest _ hy⟩) r hr
    have hwalk := ih.chain hs hrest hr' (fun y' hy' => by
      obtain ⟨y, hy, rfl, hX⟩ := halike.symm.exists_free hy'
      exact hfree _ (Term.mem_freeNames_fulfilled.2
        (.inr (.inr ⟨hy, fun heq => hx (heq ▸ hs.mem _ hX)⟩))))
      fun j hj => hholds j (.fulfilledRest hj)
    filter_upwards [eventually_ge_atTop 1, htype, hvalue, hwalk] with m hm htype hvalue hwalk
    obtain ⟨m, rfl⟩ := Nat.exists_eq_add_of_le' hm
    simp only [includeInStep, includeNext, Chain.seek, if_true, Solver.yields_bind,
      Solver.yields_reading, Eval.pure_eq_ok]
    refine ⟨_, s, ⟨rfl, rfl⟩, ?_⟩
    simp only [Solver.yields_bind, Solver.yields_within]
    exact ⟨(), s, ⟨(), s, htype, hvalue⟩, hwalk⟩

theorem all (s : Solution) (n : Nat) : IncludesItself s n := by
  induction n with
  | zero => exact ⟨fun _ _ h => by simp [Value.reify] at h, fun _ _ h => by simp [Chain.reify] at h⟩
  | succ n ih => exact ⟨fun hs hT => ih.type_succ hs hT, fun hs hc => ih.chain_succ hs hc⟩

end IncludesItself

end

/-- A type with a normal form that mentions no unsolved pattern variable includes itself, and
nothing is bound for it, if the values that inclusion leaves to other comparisons are equal to
themselves without a binding. Whatever depth is allowed, inclusion has no other answer. -/
theorem inclusion_self_of_delegated {s : Solution} {ctx : Context} {T : Value} {t : Term} {k : Nat}
    (hs : s.NamedIn (s.usedNames ctx))
    (hT : ∀ q, s.Reaches T q → q.Within False (· ∈ s.usedNames ctx)) (ht : s.reify k ctx T = .ok t)
    (hfree : ∀ y ∈ t.freeNames, s.isUnsolved y = false)
    (hholds : ∀ j, T.Delegates s ctx j → j.Holds s) :
    (∃ n, (inclusion n ctx T T).Yields s () s) ∧ ∀ n r, (inclusion n ctx T T).run.run s = .ok r →
      r = (.ok (), s) := by
  obtain ⟨hgrounded, hwithin⟩ := Solution.Grounded.of_reaches hs hT
  obtain ⟨n, hn⟩ := ((IncludesItself.all s k).type hgrounded hwithin ht hfree hholds).exists
  exact ⟨⟨n, hn⟩, fun _ _ hr => inclusion_unique hr hn⟩

namespace DependentProperties

def A : Name := ⟨"A", 0⟩
def e : Name := ⟨"e", 0⟩
def m : Name := ⟨"m", 0⟩
def p : Name := ⟨"p", 0⟩
def v : Name := ⟨"v", 0⟩
def x : Name := ⟨"x", 0⟩

def ctx : Context := Context.bind [] A A .type

def found : Solution where
  entries := [(m, .solved .type .string)]
  names := [m]

/-- `class {p: m, e: p = p, v: String = "a"}` -/
def properties : Term :=
  .declared p p (.var m)
    (.declared e e (.equal (.var m) (.var p) (.var p))
    (.fulfilled v v .string (.quote "a") .emptyClass))

/-- The values of `m` and `A` while `m` was not solved. -/
def env : Environment := [(m, .variable .type m), (A, .variable .type A)]

def family : Value := .pi .explicit (.variable .type A) ⟨env, x, properties⟩

def normalForm : Term :=
  .pi .explicit x (.var A) (.declared p p .string (.declared e e (.equal .string (.var p) (.var p))
    (.fulfilled v v .string (.quote "a") .emptyClass)))

theorem eq_of_find {y : Name} {q : PatternVariable} (h : found.find y = some q) :
    y = m ∧ q = .solved .type .string := by
  simpa [found] using mem_of_lookup h

theorem family_within : family.All (Part.Within False (· ∈ found.usedNames ctx)) := by
  have hvariable {y : Name} (hy : y = m ∨ y = A) : (Value.variable .type y).All
      (Part.Within False (· ∈ found.usedNames ctx)) := by
    refine Value.all_variable.2 ⟨Value.all_type, ?_⟩
    rcases hy with rfl | rfl
      <;> simp [Part.Within, Solution.usedNames, found, ctx, Context.names, Context.bind]
  refine Value.all_pi.2 ⟨hvariable (.inr rfl),
    Closure.all_iff.2 ⟨?_, fun y hy _ => ⟨fun w hw => ?_, fun _ => True.intro⟩⟩⟩
  · simp [properties, Part.Within, Term.classLabels, Term.IsClass, p, e, v]
  · have hm : y = m := List.mem_singleton.1 ((by decide : properties.freeNames = [m]) ▸ hy)
    subst hm
    cases hw
    exact hvariable (.inl rfl)

theorem reaches_within (q : Part) (hq : found.Reaches family q) :
    q.Within False (· ∈ found.usedNames ctx) := by
  induction hq with
  | own hq => exact family_within _ hq
  | solution _ hfind hq =>
    cases (eq_of_find hfind).2
    cases hq
  | type _ hfind => cases (eq_of_find hfind).2

/-- Neither `String` nor a variable takes a comparison. -/
theorem not_delegates {ctx : Context} {T w : Value} {j : SelfComparison} (hT : T.Forces found w)
    (hw : w = .string ∨ w = .variable .type A) : ¬ T.Delegates found ctx j := by
  intro h
  cases h with
  | domain h | codomain h | car h | cdr h | equalType h | equalLeft h | equalRight h | classOf h =>
    rcases hw with rfl | rfl <;> cases hT.unique h

theorem delegates_hold (j : SelfComparison) (hj : family.Delegates found ctx j) :
    j.Holds found := by
  have hm : Value.Forces found (.variable .type m) .string := ⟨20, rfl⟩
  rcases hj.of_pi (n := 20) ⟨20, rfl⟩ rfl with hj | hj
  · exact absurd hj (not_delegates ⟨20, rfl⟩ (.inr rfl))
  rcases (hj.of_classOf ⟨20, rfl⟩).of_declared (n := 20) rfl with hj | hj
  · exact absurd hj (not_delegates hm (.inl rfl))
  rcases hj.of_declared (n := 20) rfl with hj | hj
  · rcases hj.of_equal ⟨20, rfl⟩ with hj | rfl | rfl
    · exact absurd hj (not_delegates hm (.inl rfl))
    · exact ⟨20, rfl⟩
    · exact ⟨20, rfl⟩
  cases hj with
  | fulfilledType hj => exact absurd hj (not_delegates ⟨20, rfl⟩ (.inl rfl))
  | fulfilledValue => exact ⟨20, found, rfl, rfl⟩
  | fulfilledRest hj => cases hj

end DependentProperties

open DependentProperties in
/-- A function type whose results are classes: a property of a type that has been found, an equation
about it and a property with a value. The sides of the equation are converted, and the value is
unified. -/
theorem family_includes_itself :
    found.NamedIn (found.usedNames ctx) ∧
      (∀ q, found.Reaches family q → q.Within False (· ∈ found.usedNames ctx)) ∧
    found.reify 20 ctx family = .ok normalForm ∧
    (∀ y ∈ normalForm.freeNames, found.isUnsolved y = false) ∧
    (∃ inner a l, family.Delegates found ctx (.conversion inner a l)) ∧
    (∃ inner a u, family.Delegates found ctx (.unification inner a u)) ∧
    (∀ j, family.Delegates found ctx j → j.Holds found) ∧
    (∃ n, (inclusion n ctx family family).Yields found () found) ∧
    ∀ n r, (inclusion n ctx family family).run.run found = .ok r → r = (.ok (), found) := by
  have hnamed : found.NamedIn (found.usedNames ctx) := by
    intro y q hq
    rw [(eq_of_find hq).1]
    decide
  have hreify : found.reify 20 ctx family = .ok normalForm := rfl
  have hfree : ∀ y ∈ normalForm.freeNames, found.isUnsolved y = false := by decide
  have hconversion : family.Delegates found ctx _ := .codomain (n := 20) ⟨20, rfl⟩ rfl
    (.classOf ⟨20, rfl⟩ (.declaredRest (n := 20) rfl (.declaredType (.equalLeft ⟨20, rfl⟩))))
  have hunification : family.Delegates found ctx _ := .codomain (n := 20) ⟨20, rfl⟩ rfl
    (.classOf ⟨20, rfl⟩ (.declaredRest (n := 20) rfl (.declaredRest (n := 20) rfl .fulfilledValue)))
  exact ⟨hnamed, reaches_within, hreify, hfree, ⟨_, _, _, hconversion⟩,
    ⟨_, _, _, hunification⟩, delegates_hold,
    inclusion_self_of_delegated hnamed reaches_within hreify hfree delegates_hold⟩

end DependentClasses
