import DependentClasses.Proofs.Success

/-! Unification as a system of rules. Each rule takes one step of unification and says which
problems are left; a problem is unified exactly if it can be derived. A derivation may be asked
for a condition on each of its problems, which says what the steps of a run have in common. -/
namespace DependentClasses

inductive Problem
  | values (a l r : Value)
  /-- Two values with no pattern variable at their heads. -/
  | forms (a l r : Value)
  /-- Two types that bind a value. -/
  | binders (c c' : Value) (d d' : Closure)
  /-- Some fields of the object `l`, and the fields of another object. -/
  | fields (a l : Value) (fs gs : List (Name × Value))
  | spines (e f : Neutral)
  | chains (c d : Chain)

namespace Value

def fieldType (n : Nat) (a l : Value) (k : Name) : Eval (Option Value) :=
  match a with
  | .classOf c => c.typeOf n l k
  | _ => pure none

/-- A value without parts. -/
def IsAtom : Value → Prop
  | .type => True
  | .string => True
  | .quote _ => True
  | .trivial => True
  | .sole => True
  | _ => False

end Value

/-- A type and two sides, and what they are forced to. -/
structure Forced (n : Nat) (s : Solution) (a l r a' l' r' : Value) : Prop where
  type : a.force n s = .ok a'
  left : l.force n s = .ok l'
  right : r.force n s = .ok r'

/-- The problem is unified to the depth `n`, in going from one solution to another. Every problem on
the way is as `E` says, with the solutions before and after it. -/
inductive Unifies (E : Context → Problem → Solution → Solution → Prop) :
    Nat → Context → Problem → Solution → Solution → Prop
  /-- Both sides are the same application of a pattern variable. -/
  | same {n ctx a l r a' l' r' p q s} : E ctx (.values a l r) s s → Forced n s a l r a' l' r' →
      l'.patternSpine s = some p → r'.patternSpine s = some q → p.same n s ctx q = .ok true →
      Unifies E (n + 1) ctx (.values a l r) s s
  /-- Both sides are applications of pattern variables: the left one is solved. -/
  | choice {n ctx a l r a' l' r' p q s s'} : E ctx (.values a l r) s s' →
      Forced n s a l r a' l' r' →
      l'.patternSpine s = some p → r'.patternSpine s = some q → p.same n s ctx q = .ok false →
      (p.solve n s ctx r').Yields s' → Unifies E (n + 1) ctx (.values a l r) s s'
  | solveLeft {n ctx a l r a' l' r' p s s'} : E ctx (.values a l r) s s' →
      Forced n s a l r a' l' r' →
      l'.patternSpine s = some p → r'.patternSpine s = none →
      (p.solve n s ctx r').Yields s' → Unifies E (n + 1) ctx (.values a l r) s s'
  | solveRight {n ctx a l r a' l' r' q s s'} : E ctx (.values a l r) s s' →
      Forced n s a l r a' l' r' →
      l'.patternSpine s = none → r'.patternSpine s = some q →
      (q.solve n s ctx l').Yields s' → Unifies E (n + 1) ctx (.values a l r) s s'
  | rigid {n ctx a l r a' l' r' s s'} : E ctx (.values a l r) s s' → Forced n s a l r a' l' r' →
      l'.patternSpine s = none → r'.patternSpine s = none →
      Unifies E n ctx (.forms a' l' r') s s' → Unifies E (n + 1) ctx (.values a l r) s s'
  | atom {n ctx a l s} : E ctx (.forms a l l) s s → l.IsAtom →
      Unifies E (n + 1) ctx (.forms a l l) s s
  | pi {n ctx a p c c' d d' s s'} : E ctx (.forms a (.pi p c d) (.pi p c' d')) s s' →
      Unifies E n ctx (.binders c c' d d') s s' →
        Unifies E (n + 1) ctx (.forms a (.pi p c d) (.pi p c' d')) s s'
  | sigma {n ctx a c c' d d' s s'} : E ctx (.forms a (.sigma c d) (.sigma c' d')) s s' →
      Unifies E n ctx (.binders c c' d d') s s' →
        Unifies E (n + 1) ctx (.forms a (.sigma c d) (.sigma c' d')) s s'
  | fn {n ctx a p c c' f g s s' b l r} : E ctx (.forms a (.fn p c f) (.fn p c' g)) s s' →
      a.resultType n (s.witness ctx f.x c).2 = .ok b → f.apply n (s.witness ctx f.x c).2 = .ok l →
      g.apply n (s.witness ctx f.x c).2 = .ok r →
        Unifies E n (s.witness ctx f.x c).1 (.values b l r) s s' →
      Unifies E (n + 1) ctx (.forms a (.fn p c f) (.fn p c' g)) s s'
  /-- A function and a stuck computation: both are applied to a new parameter. -/
  | expandRight {n ctx a c f d e s s' b l r} :
      E ctx (.forms a (.fn .explicit c f) (.neutral d e)) s s' →
      (Solver.isFunction n d).Yields s true s → a.resultType n (s.witness ctx f.x c).2 = .ok b →
      f.apply n (s.witness ctx f.x c).2 = .ok l →
      (Value.neutral d e).app n .explicit (s.witness ctx f.x c).2 = .ok r →
      Unifies E n (s.witness ctx f.x c).1 (.values b l r) s s' →
      Unifies E (n + 1) ctx (.forms a (.fn .explicit c f) (.neutral d e)) s s'
  | expandLeft {n ctx a c g d e s s' b l r} :
      E ctx (.forms a (.neutral d e) (.fn .explicit c g)) s s' →
      (Solver.isFunction n d).Yields s true s → a.resultType n (s.witness ctx g.x c).2 = .ok b →
      (Value.neutral d e).app n .explicit (s.witness ctx g.x c).2 = .ok l →
      g.apply n (s.witness ctx g.x c).2 = .ok r →
      Unifies E n (s.witness ctx g.x c).1 (.values b l r) s s' →
      Unifies E (n + 1) ctx (.forms a (.neutral d e) (.fn .explicit c g)) s s'
  | cons {n ctx c d x y x' y' b s s₁ s'} :
      E ctx (.forms (.sigma c d) (.cons x y) (.cons x' y')) s s' →
      Unifies E n ctx (.values c x x') s s₁ → d.apply n x = .ok b →
        Unifies E n ctx (.values b y y') s₁ s' →
      Unifies E (n + 1) ctx (.forms (.sigma c d) (.cons x y) (.cons x' y')) s s'
  | equal {n ctx a c c' x y x' y' s s₁ s₂ s'} :
      E ctx (.forms a (.equal c x y) (.equal c' x' y')) s s' →
      Unifies E n ctx (.values .type c c') s s₁ → Unifies E n ctx (.values c x x') s₁ s₂ →
      Unifies E n ctx (.values c y y') s₂ s' →
        Unifies E (n + 1) ctx (.forms a (.equal c x y) (.equal c' x' y')) s s'
  | proof {n ctx c t u x y s s'} : E ctx (.forms (.equal c t u) (.same x) (.same y)) s s' →
      Unifies E n ctx (.values c x y) s s' →
        Unifies E (n + 1) ctx (.forms (.equal c t u) (.same x) (.same y)) s s'
  | classes {n ctx a c d s s'} : E ctx (.forms a (.classOf c) (.classOf d)) s s' →
      Unifies E n ctx (.chains c d) s s' →
        Unifies E (n + 1) ctx (.forms a (.classOf c) (.classOf d)) s s'
  | objects {n ctx a fs gs s s'} : E ctx (.forms a (.object fs) (.object gs)) s s' →
      fs.length = gs.length →
      Unifies E n ctx (.fields a (.object fs) fs gs) s s' →
        Unifies E (n + 1) ctx (.forms a (.object fs) (.object gs)) s s'
  | stuck {n ctx a b b' e f s s'} : E ctx (.forms a (.neutral b e) (.neutral b' f)) s s' →
      Unifies E n ctx (.spines e f) s s' →
        Unifies E (n + 1) ctx (.forms a (.neutral b e) (.neutral b' f)) s s'
  | binders {n ctx c c' d d' b b' s s₁ s'} : E ctx (.binders c c' d d') s s' →
      Unifies E n ctx (.values .type c c') s s₁ → d.apply n (s₁.witness ctx d.x c).2 = .ok b →
      d'.apply n (s₁.witness ctx d.x c).2 = .ok b' →
      Unifies E n (s₁.witness ctx d.x c).1 (.values .type b b') s₁ s' →
        Unifies E (n + 1) ctx (.binders c c' d d') s s'
  | noFields {n ctx a l gs s} : E ctx (.fields a l [] gs) s s →
      Unifies E n ctx (.fields a l [] gs) s s
  | field {n ctx a l k x y fs gs b s s₁ s'} : E ctx (.fields a l ((k, x) :: fs) gs) s s' →
      gs.lookup k = some y →
      a.fieldType n l k = .ok (some b) → Unifies E n ctx (.values b x y) s s₁ →
      Unifies E n ctx (.fields a l fs gs) s₁ s' →
        Unifies E n ctx (.fields a l ((k, x) :: fs) gs) s s'
  /-- A field that the class does not have is compared by its normal form. -/
  | untypedField {n ctx a l k x y fs gs t u s s'} : E ctx (.fields a l ((k, x) :: fs) gs) s s' →
      gs.lookup k = some y → a.fieldType n l k = .ok none → s.reify n ctx x = .ok t →
        s.reify n ctx y = .ok u →
      t.alphaEquivalent u → Unifies E n ctx (.fields a l fs gs) s s' →
      Unifies E n ctx (.fields a l ((k, x) :: fs) gs) s s'
  | var {n ctx x s} : E ctx (.spines (.var x) (.var x)) s s →
      Unifies E (n + 1) ctx (.spines (.var x) (.var x)) s s
  | app {n ctx p e f a b x y s s₁ s'} : E ctx (.spines (.app p e a x) (.app p f b y)) s s' →
      Unifies E n ctx (.spines e f) s s₁ → Unifies E n ctx (.values a x y) s₁ s' →
      Unifies E (n + 1) ctx (.spines (.app p e a x) (.app p f b y)) s s'
  | car {n ctx e f s s'} : E ctx (.spines (.car e) (.car f)) s s' →
      Unifies E n ctx (.spines e f) s s' →
      Unifies E (n + 1) ctx (.spines (.car e) (.car f)) s s'
  | cdr {n ctx e f s s'} : E ctx (.spines (.cdr e) (.cdr f)) s s' →
      Unifies E n ctx (.spines e f) s s' →
      Unifies E (n + 1) ctx (.spines (.cdr e) (.cdr f)) s s'
  | dot {n ctx e f k s s'} : E ctx (.spines (.dot e k) (.dot f k)) s s' →
      Unifies E n ctx (.spines e f) s s' →
      Unifies E (n + 1) ctx (.spines (.dot e k) (.dot f k)) s s'
  | nil {n ctx s} : E ctx (.chains .nil .nil) s s → Unifies E (n + 1) ctx (.chains .nil .nil) s s
  | declared {n ctx k a b c d c' d' s s₁ s'} :
      E ctx (.chains (.declared k a c) (.declared k b d)) s s' →
      Unifies E n ctx (.values .type a b) s s₁ → c.applyChain n (s₁.witness ctx c.x a).2 = .ok c' →
      d.applyChain n (s₁.witness ctx c.x a).2 = .ok d' →
      Unifies E n (s₁.witness ctx c.x a).1 (.chains c' d') s₁ s' →
      Unifies E (n + 1) ctx (.chains (.declared k a c) (.declared k b d)) s s'
  | fulfilled {n ctx k a b x y c d s s₁ s₂ s'} :
      E ctx (.chains (.fulfilled k a x c) (.fulfilled k b y d)) s s' →
      Unifies E n ctx (.values .type a b) s s₁ → Unifies E n ctx (.values a x y) s₁ s₂ →
      Unifies E n ctx (.chains c d) s₂ s' →
        Unifies E (n + 1) ctx (.chains (.fulfilled k a x c) (.fulfilled k b y d)) s s'

theorem Solver.eq_of_isFunction {n : Nat} {a : Value} {s s' : Solution} {b : Bool}
    (h : (Solver.isFunction n a).Yields s b s') : s' = s := by
  unfold Solver.isFunction at h
  simp only [Solver.yields_bind, Solver.yields_force] at h
  obtain ⟨w, _, ⟨-, rfl⟩, h⟩ := h
  split at h
  · exact (Solver.yields_pure.1 h).2
  · exact (Solver.yields_pure.1 h).2

def unifyField (n : Nat) (ctx : Context) (a l r : Value) (gs : List (Name × Value))
    (f : Name × Value) : Solver Unit := do
  match gs.lookup f.1 with
  | none => Solver.cannotUnify n ctx l r
  | some y =>
    match ← (a.fieldType n l f.1 : Eval (Option Value)) with
    | some b => unify n ctx b f.2 y
    | none => do
      let t ← Solver.reify n ctx f.2
      let u ← Solver.reify n ctx y
      if t.alphaEquivalent u then pure () else Solver.cannotUnify n ctx l r

theorem unifyForms_object (n : Nat) (ctx : Context) (a : Value) (fs gs : List (Name × Value)) :
    unifyForms (n + 1) ctx a (.object fs) (.object gs) =
      if fs.length = gs.length then fs.forM (unifyField n ctx a (.object fs) (.object gs) gs)
      else Solver.cannotUnify n ctx (.object fs) (.object gs) := by
  unfold unifyForms
  dsimp only
  refine congrArg (fun steps => if fs.length = gs.length then steps
    else _) (congrArg (fun step => fs.forM step) ?_)
  funext f
  unfold unifyField
  cases gs.lookup f.1 with
  | none => rfl
  | some y => cases a <;> rfl

/-- Unification of the problem succeeds, and leaves the solution `s'`. -/
def Problem.Run (n : Nat) (ctx : Context) (s s' : Solution) : Problem → Prop
  | .values a l r => (unify n ctx a l r).Yields s () s'
  | .forms a l r => (unifyForms n ctx a l r).Yields s () s'
  | .binders c c' d d' => (unifyBinders n ctx c c' d d').Yields s () s'
  | .fields a l fs gs => Solver.Yields (fs.forM (unifyField n ctx a l (.object gs) gs)) s () s'
  | .spines e f => (unifyNeutrals n ctx e f).Yields s true s'
  | .chains c d => (unifyChains n ctx c d).Yields s true s'

section

variable {n : Nat} {ctx : Context} {s s' : Solution}

theorem yields_unify {a l r : Value} : (unify (n + 1) ctx a l r).Yields s () s' ↔
    ∃ a' l' r', Forced n s a l r a' l' r' ∧ Solver.Yields
      (match l'.patternSpine s, r'.patternSpine s with
      | some p, some q => do
        if ← p.same n s ctx q then pure () else Solver.solvePattern n ctx p r'
      | some p, none => Solver.solvePattern n ctx p r'
      | none, some q => Solver.solvePattern n ctx q l'
      | none, none => unifyForms n ctx a' l' r') s () s' := by
  unfold unify
  simp only [Solver.yields_bind, Solver.yields_force, Solver.yields_get]
  constructor
  · rintro ⟨a', _, ⟨ha, rfl⟩, l', _, ⟨hl, rfl⟩, r', _, ⟨hr, rfl⟩, _, _, ⟨rfl, rfl⟩, h⟩
    exact ⟨a', l', r', ⟨ha, hl, hr⟩, h⟩
  · rintro ⟨a', l', r', ⟨ha, hl, hr⟩, h⟩
    exact ⟨a', s, ⟨ha, rfl⟩, l', s, ⟨hl, rfl⟩, r', s, ⟨hr, rfl⟩, s, s, ⟨rfl, rfl⟩, h⟩

theorem yields_solvePattern {p : PatternSpine} {v : Value} :
    (Solver.solvePattern n ctx p v).Yields s () s' ↔ (p.solve n s ctx v).Yields s' := by
  unfold Solver.solvePattern
  simp only [Solver.yields_bind, Solver.yields_judging, Solver.yields_set]
  constructor
  · rintro ⟨_, _, ⟨h, rfl⟩, rfl⟩
    exact h
  · exact fun h => ⟨s', s, ⟨h, rfl⟩, rfl⟩

theorem yields_unifyField {a l r : Value} {gs : List (Name × Value)} {f : Name × Value} :
    (unifyField n ctx a l r gs f).Yields s () s' ↔ ∃ y, gs.lookup f.1 = some y ∧
      ((∃ b, a.fieldType n l f.1 = .ok (some b) ∧ (unify n ctx b f.2 y).Yields s () s') ∨
        (a.fieldType n l f.1 = .ok none ∧ s' = s ∧
          ∃ t u, s.reify n ctx f.2 = .ok t ∧ s.reify n ctx y = .ok u ∧ t.alphaEquivalent u)) := by
  unfold unifyField
  cases gs.lookup f.1 with
  | none => simp
  | some y =>
    simp only [Solver.yields_bind, Solver.yields_lift, Option.some.injEq, exists_eq_left']
    constructor
    · rintro ⟨b, _, ⟨hb, rfl⟩, h⟩
      cases b with
      | some b => exact .inl ⟨b, hb, h⟩
      | none =>
        simp only [Solver.yields_bind, Solver.yields_reify] at h
        obtain ⟨t, _, ⟨ht, rfl⟩, u, _, ⟨hu, rfl⟩, h⟩ := h
        split at h
        · next halpha => exact .inr ⟨hb, (Solver.yields_pure.1 h).2, t, u, ht, hu, halpha⟩
        · simp at h
    · rintro (⟨b, hb, h⟩ | ⟨hb, rfl, t, u, ht, hu, halpha⟩)
      · exact ⟨some b, s, ⟨hb, rfl⟩, h⟩
      · refine ⟨none, s', ⟨hb, rfl⟩, ?_⟩
        simp only [Solver.yields_bind, Solver.yields_reify]
        exact ⟨t, s', ⟨ht, rfl⟩, u, s', ⟨hu, rfl⟩, by simp [halpha]⟩

end

/-- Whatever can be derived is what unification does. -/
theorem Unifies.run {E : Context → Problem → Solution → Solution → Prop} {n : Nat}
    {ctx : Context} {g : Problem} {s s' : Solution} (h : Unifies E n ctx g s s') :
    g.Run n ctx s s' := by
  induction h with
  | same _ hforced hp hq hsame =>
    refine yields_unify.2 ⟨_, _, _, hforced, ?_⟩
    rw [hp, hq]
    simp only [Solver.yields_bind, Solver.yields_lift]
    exact ⟨true, _, ⟨hsame, rfl⟩, Solver.yields_pure.2 ⟨rfl, rfl⟩⟩
  | choice _ hforced hp hq hsame hsolve =>
    refine yields_unify.2 ⟨_, _, _, hforced, ?_⟩
    rw [hp, hq]
    simp only [Solver.yields_bind, Solver.yields_lift]
    exact ⟨false, _, ⟨hsame, rfl⟩, yields_solvePattern.2 hsolve⟩
  | solveLeft _ hforced hp hq hsolve | solveRight _ hforced hp hq hsolve =>
    refine yields_unify.2 ⟨_, _, _, hforced, ?_⟩
    rw [hp, hq]
    exact yields_solvePattern.2 hsolve
  | rigid _ hforced hp hq _ ih =>
    refine yields_unify.2 ⟨_, _, _, hforced, ?_⟩
    rw [hp, hq]
    exact ih
  | @atom n ctx a l s _ hl =>
    change (unifyForms (n + 1) ctx a l l).Yields s () s
    unfold unifyForms
    cases l with
    | type | string | trivial | sole => exact Solver.yields_pure.2 ⟨rfl, rfl⟩
    | quote t => simp
    | _ => exact hl.elim
  | pi _ _ ih =>
    simp only [Problem.Run, unifyForms, if_true]
    exact ih
  | sigma _ _ ih =>
    simp only [Problem.Run, unifyForms]
    exact ih
  | fn _ hb hl hr _ ih =>
    simp only [Problem.Run, unifyForms, if_true, Solver.yields_bind, Solver.yields_witness,
      Solver.yields_lift]
    exact ⟨_, _, ⟨rfl, rfl⟩, _, _, ⟨hb, rfl⟩, _, _, ⟨hl, rfl⟩, _, _, ⟨hr, rfl⟩, ih⟩
  | expandRight _ hfunction hb hl hr _ ih | expandLeft _ hfunction hb hl hr _ ih =>
    simp only [Problem.Run, unifyForms, Solver.yields_bind]
    refine ⟨true, _, hfunction, ?_⟩
    simp only [if_true, Solver.yields_bind, Solver.yields_witness, Solver.yields_lift]
    exact ⟨_, _, ⟨rfl, rfl⟩, _, _, ⟨hb, rfl⟩, _, _, ⟨hl, rfl⟩, _, _, ⟨hr, rfl⟩, ih⟩
  | cons _ _ hb _ ih₁ ih₂ =>
    simp only [Problem.Run, unifyForms, Solver.yields_bind, Solver.yields_lift]
    exact ⟨_, _, ih₁, _, _, ⟨hb, rfl⟩, ih₂⟩
  | equal _ _ _ _ ih₁ ih₂ ih₃ =>
    simp only [Problem.Run, unifyForms, Solver.yields_bind]
    exact ⟨_, _, ih₁, _, _, ih₂, ih₃⟩
  | proof _ _ ih =>
    simp only [Problem.Run, unifyForms]
    exact ih
  | classes _ _ ih | stuck _ _ ih =>
    simp only [Problem.Run, unifyForms, Solver.yields_bind]
    exact ⟨true, _, ih, Solver.yields_pure.2 ⟨rfl, rfl⟩⟩
  | @objects n ctx a fs gs s s' _ hlength _ ih =>
    change (unifyForms (n + 1) ctx a (.object fs) (.object gs)).Yields s () s'
    rw [unifyForms_object, if_pos hlength]
    exact ih
  | binders _ _ hb hb' _ ih₁ ih₂ =>
    simp only [Problem.Run, unifyBinders, Solver.yields_bind, Solver.yields_witness,
      Solver.yields_lift]
    exact ⟨_, _, ih₁, _, _, ⟨rfl, rfl⟩, _, _, ⟨hb, rfl⟩, _, _, ⟨hb', rfl⟩, ih₂⟩
  | noFields => exact Solver.yields_pure.2 ⟨rfl, rfl⟩
  | field _ hy hb _ _ ih₁ ih₂ =>
    exact Solver.yields_forM_cons.2 ⟨(), _, yields_unifyField.2 ⟨_, hy, .inl ⟨_, hb, ih₁⟩⟩, ih₂⟩
  | untypedField _ hy hb ht hu halpha _ ih =>
    exact Solver.yields_forM_cons.2
      ⟨(), _, yields_unifyField.2 ⟨_, hy, .inr ⟨hb, rfl, _, _, ht, hu, halpha⟩⟩, ih⟩
  | var => simp [Problem.Run, unifyNeutrals]
  | app _ _ _ ih₁ ih₂ =>
    simp only [Problem.Run, unifyNeutrals, if_true, Solver.yields_bind]
    refine ⟨true, _, ih₁, ?_⟩
    simp only [if_true, Solver.yields_bind]
    exact ⟨_, _, ih₂, Solver.yields_pure.2 ⟨rfl, rfl⟩⟩
  | car _ _ ih | cdr _ _ ih =>
    simp only [Problem.Run, unifyNeutrals]
    exact ih
  | dot _ _ ih =>
    simp only [Problem.Run, unifyNeutrals, if_true]
    exact ih
  | nil => simp [Problem.Run, unifyChains]
  | declared _ _ hc hd _ ih₁ ih₂ =>
    simp only [Problem.Run, unifyChains, if_true, Solver.yields_bind, Solver.yields_witness,
      Solver.yields_lift]
    exact ⟨_, _, ih₁, _, _, ⟨rfl, rfl⟩, _, _, ⟨hc, rfl⟩, _, _, ⟨hd, rfl⟩, ih₂⟩
  | fulfilled _ _ _ _ ih₁ ih₂ ih₃ =>
    simp only [Problem.Run, unifyChains, if_true, Solver.yields_bind]
    exact ⟨_, _, ih₁, _, _, ih₂, ih₃⟩

/-- To the depth `n`, whatever unification does can be derived. -/
structure FollowsRules (n : Nat) : Prop where
  values {ctx : Context} {a l r : Value} {s s' : Solution} :
    (unify n ctx a l r).Yields s () s' → Unifies (fun _ _ _ _ => True) n ctx (.values a l r) s s'
  forms {ctx : Context} {a l r : Value} {s s' : Solution} :
    (unifyForms n ctx a l r).Yields s () s' →
    Unifies (fun _ _ _ _ => True) n ctx (.forms a l r) s s'
  binders {ctx : Context} {c c' : Value} {d d' : Closure} {s s' : Solution} :
    (unifyBinders n ctx c c' d d').Yields s () s' →
    Unifies (fun _ _ _ _ => True) n ctx (.binders c c' d d') s s'
  spines {ctx : Context} {e f : Neutral} {s s' : Solution} :
    (unifyNeutrals n ctx e f).Yields s true s' →
    Unifies (fun _ _ _ _ => True) n ctx (.spines e f) s s'
  chains {ctx : Context} {c d : Chain} {s s' : Solution} :
    (unifyChains n ctx c d).Yields s true s' →
    Unifies (fun _ _ _ _ => True) n ctx (.chains c d) s s'

namespace FollowsRules

variable {n : Nat} {ctx : Context} {s s' : Solution}

theorem values_succ (ih : FollowsRules n) {a l r : Value}
    (h : (unify (n + 1) ctx a l r).Yields s () s') :
    Unifies (fun _ _ _ _ => True) (n + 1) ctx (.values a l r) s s' := by
  obtain ⟨a', l', r', hforced, h⟩ := yields_unify.1 h
  split at h
  · next p q hp hq =>
    simp only [Solver.yields_bind, Solver.yields_lift] at h
    obtain ⟨same, _, ⟨hsame, rfl⟩, h⟩ := h
    cases same with
    | true =>
      obtain ⟨-, rfl⟩ := Solver.yields_pure.1 h
      exact .same trivial hforced hp hq hsame
    | false => exact .choice trivial hforced hp hq hsame (yields_solvePattern.1 h)
  · next p hp hr => exact .solveLeft trivial hforced hp hr (yields_solvePattern.1 h)
  · next q hl hq => exact .solveRight trivial hforced hl hq (yields_solvePattern.1 h)
  · next hl hr => exact .rigid trivial hforced hl hr (ih.forms h)

theorem binders_succ (ih : FollowsRules n) {c c' : Value} {d d' : Closure}
    (h : (unifyBinders (n + 1) ctx c c' d d').Yields s () s') :
    Unifies (fun _ _ _ _ => True) (n + 1) ctx (.binders c c' d d') s s' := by
  unfold unifyBinders at h
  simp only [Solver.yields_bind, Solver.yields_witness, Solver.yields_lift] at h
  obtain ⟨_, s₁, h₁, _, _, ⟨rfl, rfl⟩, b, _, ⟨hb, rfl⟩, b', _, ⟨hb', rfl⟩, h₂⟩ := h
  exact .binders trivial (ih.values h₁) hb hb' (ih.values h₂)

theorem spines_succ (ih : FollowsRules n) {e f : Neutral}
    (h : (unifyNeutrals (n + 1) ctx e f).Yields s true s') :
    Unifies (fun _ _ _ _ => True) (n + 1) ctx (.spines e f) s s' := by
  unfold unifyNeutrals at h
  split at h
  case h_1 x y =>
    obtain ⟨hxy, rfl⟩ := Solver.yields_pure.1 h
    obtain rfl := of_decide_eq_true hxy.symm
    exact .var trivial
  case h_2 p e a x q f b y =>
    split at h
    · next hpq =>
      subst hpq
      obtain ⟨same, s₁, h₁, h⟩ := Solver.yields_bind.1 h
      cases same with
      | true =>
        obtain ⟨_, s₂, h₂, h⟩ := Solver.yields_bind.1 h
        obtain ⟨-, rfl⟩ := Solver.yields_pure.1 h
        exact .app trivial (ih.spines h₁) (ih.values h₂)
      | false => simp at h
    · simp at h
  case h_3 => exact .car trivial (ih.spines h)
  case h_4 => exact .cdr trivial (ih.spines h)
  case h_5 e j f k =>
    split at h
    · next hjk =>
      subst hjk
      exact .dot trivial (ih.spines h)
    · simp at h
  case h_6 => simp at h

theorem chains_succ (ih : FollowsRules n) {c d : Chain}
    (h : (unifyChains (n + 1) ctx c d).Yields s true s') :
    Unifies (fun _ _ _ _ => True) (n + 1) ctx (.chains c d) s s' := by
  unfold unifyChains at h
  split at h
  case h_1 =>
    obtain ⟨-, rfl⟩ := Solver.yields_pure.1 h
    exact .nil trivial
  case h_2 j a c k b d =>
    split at h
    · next hjk =>
      subst hjk
      simp only [Solver.yields_bind, Solver.yields_witness, Solver.yields_lift] at h
      obtain ⟨_, s₁, h₁, _, _, ⟨rfl, rfl⟩, c', _, ⟨hc, rfl⟩, d', _, ⟨hd, rfl⟩, h₂⟩ := h
      exact .declared trivial (ih.values h₁) hc hd (ih.chains h₂)
    · simp at h
  case h_3 j a x c k b y d =>
    split at h
    · next hjk =>
      subst hjk
      simp only [Solver.yields_bind] at h
      obtain ⟨_, s₁, h₁, _, s₂, h₂, h₃⟩ := h
      exact .fulfilled trivial (ih.values h₁) (ih.values h₂) (ih.chains h₃)
    · simp at h
  case h_4 => simp at h

theorem fields (ih : FollowsRules n) {a l : Value} {fs gs : List (Name × Value)}
    (h : Solver.Yields (fs.forM (unifyField n ctx a l (.object gs) gs)) s () s') :
    Unifies (fun _ _ _ _ => True) n ctx (.fields a l fs gs) s s' := by
  induction fs generalizing s with
  | nil =>
    obtain ⟨-, rfl⟩ := Solver.yields_pure.1 h
    exact .noFields trivial
  | cons f fs ihfs =>
    obtain ⟨_, s₁, h₁, h₂⟩ := Solver.yields_forM_cons.1 h
    obtain ⟨y, hy, ⟨b, hb, h₁⟩ | ⟨hb, rfl, t, u, ht, hu, halpha⟩⟩ := yields_unifyField.1 h₁
    · exact .field trivial hy hb (ih.values h₁) (ihfs h₂)
    · exact .untypedField trivial hy hb ht hu halpha (ihfs h₂)

theorem forms_succ (ih : FollowsRules n) {a l r : Value}
    (h : (unifyForms (n + 1) ctx a l r).Yields s () s') :
    Unifies (fun _ _ _ _ => True) (n + 1) ctx (.forms a l r) s s' := by
  unfold unifyForms at h
  split at h
  case h_1 | h_2 | h_3 | h_4 =>
    obtain ⟨-, rfl⟩ := Solver.yields_pure.1 h
    exact .atom trivial True.intro
  case h_5 =>
    split at h
    · next htu =>
      obtain ⟨-, rfl⟩ := Solver.yields_pure.1 h
      subst htu
      exact .atom trivial True.intro
    · simp at h
  case h_6 =>
    split at h
    · next hpq =>
      subst hpq
      exact .pi trivial (ih.binders h)
    · simp at h
  case h_7 => exact .sigma trivial (ih.binders h)
  case h_8 =>
    split at h
    · next hpq =>
      subst hpq
      simp only [Solver.yields_bind, Solver.yields_witness, Solver.yields_lift] at h
      obtain ⟨_, _, ⟨rfl, rfl⟩, b, _, ⟨hb, rfl⟩, f, _, ⟨hf, rfl⟩, g, _, ⟨hg, rfl⟩, h⟩ := h
      exact .fn trivial hb hf hg (ih.values h)
    · simp at h
  case h_9 =>
    obtain ⟨isFn, _, hfunction, h⟩ := Solver.yields_bind.1 h
    obtain rfl := Solver.eq_of_isFunction hfunction
    cases isFn with
    | true =>
      simp only [if_true, Solver.yields_bind, Solver.yields_witness, Solver.yields_lift] at h
      obtain ⟨_, _, ⟨rfl, rfl⟩, b, _, ⟨hb, rfl⟩, f, _, ⟨hf, rfl⟩, g, _, ⟨hg, rfl⟩, h⟩ := h
      exact .expandRight trivial hfunction hb hf hg (ih.values h)
    | false => simp at h
  case h_10 =>
    obtain ⟨isFn, _, hfunction, h⟩ := Solver.yields_bind.1 h
    obtain rfl := Solver.eq_of_isFunction hfunction
    cases isFn with
    | true =>
      simp only [if_true, Solver.yields_bind, Solver.yields_witness, Solver.yields_lift] at h
      obtain ⟨_, _, ⟨rfl, rfl⟩, b, _, ⟨hb, rfl⟩, f, _, ⟨hf, rfl⟩, g, _, ⟨hg, rfl⟩, h⟩ := h
      exact .expandLeft trivial hfunction hb hf hg (ih.values h)
    | false => simp at h
  case h_11 =>
    split at h
    · simp only [Solver.yields_bind, Solver.yields_lift] at h
      obtain ⟨_, s₁, h₁, b, _, ⟨hb, rfl⟩, h₂⟩ := h
      exact .cons trivial (ih.values h₁) hb (ih.values h₂)
    · simp at h
  case h_12 =>
    simp only [Solver.yields_bind] at h
    obtain ⟨_, s₁, h₁, _, s₂, h₂, h₃⟩ := h
    exact .equal trivial (ih.values h₁) (ih.values h₂) (ih.values h₃)
  case h_13 =>
    split at h
    · exact .proof trivial (ih.values h)
    · simp at h
  case h_14 =>
    obtain ⟨same, s₁, h₁, h⟩ := Solver.yields_bind.1 h
    cases same with
    | true =>
      obtain ⟨-, rfl⟩ := Solver.yields_pure.1 h
      exact .classes trivial (ih.chains h₁)
    | false => simp at h
  case h_15 fs gs =>
    have hobjects : (unifyForms (n + 1) ctx a (.object fs) (.object gs)).Yields s () s' := by
      unfold unifyForms
      exact h
    rw [unifyForms_object] at hobjects
    split at hobjects
    · next hlength => exact .objects trivial hlength (ih.fields hobjects)
    · simp at hobjects
  case h_16 =>
    obtain ⟨same, s₁, h₁, h⟩ := Solver.yields_bind.1 h
    cases same with
    | true =>
      obtain ⟨-, rfl⟩ := Solver.yields_pure.1 h
      exact .stuck trivial (ih.spines h₁)
    | false => simp at h
  case h_17 => simp at h

theorem all (n : Nat) : FollowsRules n := by
  induction n with
  | zero =>
    constructor <;> intros
      <;> simp_all [unify, unifyForms, unifyBinders, unifyNeutrals, unifyChains]
  | succ n ih =>
    exact ⟨fun h => ih.values_succ h, fun h => ih.forms_succ h, fun h => ih.binders_succ h,
      fun h => ih.spines_succ h, fun h => ih.chains_succ h⟩

end FollowsRules

/-- Unification is what can be derived. -/
theorem unifies_iff {n : Nat} {ctx : Context} {g : Problem} {s s' : Solution} :
    Unifies (fun _ _ _ _ => True) n ctx g s s' ↔ g.Run n ctx s s' := by
  refine ⟨Unifies.run, fun h => ?_⟩
  have hrules := FollowsRules.all n
  cases g with
  | values => exact hrules.values h
  | forms => exact hrules.forms h
  | binders => exact hrules.binders h
  | fields => exact hrules.fields h
  | spines => exact hrules.spines h
  | chains => exact hrules.chains h

end DependentClasses
