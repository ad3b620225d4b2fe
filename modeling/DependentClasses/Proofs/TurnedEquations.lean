import DependentClasses.Proofs.Persistence
import DependentClasses.Proofs.SimilarSolving
import DependentClasses.Proofs.UnificationRules

/-! Equations turned round. Unification takes some things from the left side only: which of two
pattern variables it solves, the types of parameters and of the parts of pairs, computations and
classes, and the order of fields. As long as the right side would have given the same, an equation
that is solved is solved with its sides exchanged as well. -/
namespace DependentClasses

/-- Two types that bind a value bind it alike, or do not use it. -/
def Closure.Balanced (c c' : Value) (d d' : Closure) : Prop :=
  c.Similar Eq c' ∨ d.x ∉ d.body.freeNames ∧ d'.x ∉ d'.body.freeNames

/-- What is taken from the left one of two values is the same on the right. -/
def Value.Balanced (a : Value) : Value → Value → Prop
  | .fn _ c _, .fn _ c' _ => c.Similar Eq c'
  | .cons x _, .cons x' _ =>
    ∀ c d n, a = .sigma c d → Eval.Rel (Value.Similar Eq) (d.apply n x) (d.apply n x')
  | .equal c _ _, .equal c' _ _ => c.Similar Eq c'
  | .object fs, .object gs => fs.map Prod.fst = gs.map Prod.fst ∧ (fs.map Prod.fst).Nodup ∧
      ∀ n k, Eval.Rel (Option.Rel (Value.Similar Eq)) (a.fieldType n (.object fs) k)
        (a.fieldType n (.object gs) k)
  | _, _ => True

def Neutral.Balanced : Neutral → Neutral → Prop
  | .app _ _ a _, .app _ _ b _ => a.Similar Eq b
  | _, _ => True

def Chain.Balanced : Chain → Chain → Prop
  | .declared _ a c, .declared _ b d => Closure.Balanced a b c d
  | .fulfilled _ a _ _, .fulfilled _ b _ _ => a.Similar Eq b
  | _, _ => True

/-- The next step on the problem does not depend on which side is the left one. -/
def Problem.Balanced (s : Solution) : Problem → Prop
  | .values _ l r =>
    ∀ n l' r' p q, l.force n s = .ok l' → r.force n s = .ok r' → l'.patternSpine s = some p →
        r'.patternSpine s = some q → p.head = q.head
  | .forms a l r => Value.Balanced a l r
  | .binders c c' d d' => Closure.Balanced c c' d d'
  | .fields .. => True
  | .spines e f => e.Balanced f
  | .chains c d => c.Balanced d

/-- The next step does not depend on the side, and the solution mentions only names that are in use
where the problem stands: no parameter that was bound in it. -/
structure Problem.Even (ctx : Context) (g : Problem) (s s' : Solution) : Prop where
  balanced : g.Balanced s
  kept : s'.Over (· ∈ s'.usedNames ctx)

/-- A field `f` of one object faces a field of the other one. The objects whose fields are looked up
have the fields `fs` and `gs`. -/
structure FieldTurned (ρ : Renaming) (gs fs : List (Name × Value)) (f g : Name × Value) : Prop where
  label : f.1 = g.1
  right : ∃ y, gs.lookup f.1 = some y ∧ y.Similar ρ g.2
  left : ∃ x, fs.lookup g.1 = some x ∧ f.2.Similar ρ x

/-- The second problem is the first one with its sides exchanged, under other names. -/
inductive Problem.Turned (ρ : Renaming) : Problem → Problem → Prop
  | values {a a' l l' r r'} : a.Similar ρ a' → l.Similar ρ l' → r.Similar ρ r' →
      Turned ρ (.values a l r) (.values a' r' l')
  | forms {a a' l l' r r'} : a.Similar ρ a' → l.Similar ρ l' → r.Similar ρ r' →
      Turned ρ (.forms a l r) (.forms a' r' l')
  | binders {c c₁ c' c₁' d d₁ d' d₁'} : c.Similar ρ c₁ → c'.Similar ρ c₁' → d.Similar ρ d₁ →
      d'.Similar ρ d₁' →
      Turned ρ (.binders c c' d d') (.binders c₁' c₁ d₁' d₁)
  | fields {a a' l r fs gs fs' gs'} :
      (∀ n k, Eval.Rel (Option.Rel (Value.Similar ρ)) (a.fieldType n l k) (a'.fieldType n r k)) →
      List.Forall₂ (FieldTurned ρ gs fs') fs gs' →
        Turned ρ (.fields a l fs gs) (.fields a' r gs' fs')
  | spines {e e' f f'} : e.Similar ρ e' → f.Similar ρ f' → Turned ρ (.spines e f) (.spines f' e')
  | chains {c c' d d'} : c.Similar ρ c' → d.Similar ρ d' → Turned ρ (.chains c d) (.chains d' c')

theorem Neutral.head_of_patternSpine {s : Solution} :
    {e : Neutral} → {p : PatternSpine} → e.patternSpine s = some p →
    e.head = p.head
  | .var x, p, h => by
    unfold patternSpine at h
    split at h
    · cases h
      rfl
    · cases h
  | .app _ f _ _, p, h => by
    unfold patternSpine at h
    obtain ⟨q, hq, rfl⟩ := Option.map_eq_some_iff.1 h
    have hhead := head_of_patternSpine (e := f) hq
    exact hhead

/-- A pattern variable is not solved by an application of itself. -/
theorem PatternSpine.not_solve_of_head {s s' : Solution} {ctx : Context} {n : Nat}
    {p q : PatternSpine} {v : Value} (hq : v.patternSpine s = some q) (hhead : p.head = q.head) :
    ¬ (p.solve n s ctx v).Yields s' := by
  intro h
  obtain ⟨b, rfl, rfl, rfl, rfl, -⟩ := exists_binding h
  cases hv : b.other with
  | neutral a e =>
    rw [hv] at hq
    have hsame : e.head = b.head := (Neutral.head_of_patternSpine hq).trans hhead.symm
    have hunsolved : ¬ b.before.IsSolved e.head := hsame ▸ b.not_isSolved_head
    have hbody := b.body_eq
    rw [hv] at hbody
    obtain ⟨m, hm⟩ := Value.reify_neutral hbody hunsolved
    have hfree : b.head ∈ b.body.freeNames := hsame ▸ Neutral.head_mem_freeNames hm
    exact (b.of_mem_body hfree).1 rfl
  | _ =>
    rw [hv] at hq
    cases hq

section

variable {fixed : Name → Prop} {ρ : Renaming} {s s' : Solution} {ctx ctx' : Context} {n : Nat}

/-- Unification keeps the names that are in use. -/
theorem Unifies.names_eq {E : Context → Problem → Solution → Solution → Prop} {g : Problem}
    (h : Unifies E n ctx g s s') :
    s'.names = s.names := by
  induction h with
  | same | atom | noFields | var | nil => rfl
  | choice _ _ _ _ _ hsolve | solveLeft _ _ _ _ hsolve | solveRight _ _ _ _ hsolve =>
    obtain ⟨b, rfl, -, -, -, rfl⟩ := PatternSpine.exists_binding hsolve
    rfl
  | rigid _ _ _ _ _ ih | pi _ _ ih | sigma _ _ ih | fn _ _ _ _ _ ih | expandRight _ _ _ _ _ _ ih
  | expandLeft _ _ _ _ _ _ ih | proof _ _ ih | classes _ _ ih | objects _ _ _ ih | stuck _ _ ih
  | untypedField _ _ _ _ _ _ _ ih | car _ _ ih | cdr _ _ ih | dot _ _ ih => exact ih
  | cons _ _ _ _ ih₁ ih₂ | binders _ _ _ _ _ ih₁ ih₂ | field _ _ _ _ _ ih₁ ih₂ | app _ _ _ ih₁ ih₂
  | declared _ _ _ _ _ ih₁ ih₂ => exact ih₂.trans ih₁
  | equal _ _ _ _ ih₁ ih₂ ih₃ | fulfilled _ _ _ _ ih₁ ih₂ ih₃ => exact ih₃.trans (ih₂.trans ih₁)

theorem Forced.turned {a l r a' l' r' b l₁ r₁ : Value} (hforced : Forced n s a l r a' l' r')
    (h : Abreast fixed ρ s ctx s' ctx') (ha : a.Similar ρ b) (hl : l.Similar ρ l₁)
    (hr : r.Similar ρ r₁) :
    ∃ b' l₁' r₁', Forced n s' b r₁ l₁ b' r₁' l₁' ∧ a'.Similar ρ b' ∧ l'.Similar ρ l₁' ∧
      r'.Similar ρ r₁' := by
  obtain ⟨b', hb, hab⟩ := h.force ha a' hforced.type
  obtain ⟨l₁', hl₁, hll⟩ := h.force hl l' hforced.left
  obtain ⟨r₁', hr₁, hrr⟩ := h.force hr r' hforced.right
  exact ⟨b', l₁', r₁', ⟨hb, hr₁, hl₁⟩, hab, hll, hrr⟩

/-- The contexts below two binders, with parameters of similar types. -/
theorem Abreast.witness (h : Abreast fixed ρ s ctx s' ctx') (x x' : Name) {a a' : Value}
    (ha : a.Similar ρ a') :
    ∃ ρ' : Renaming, (∀ y y', ρ y y' → ρ' y y') ∧ (∀ y y', y ∈ s.usedNames ctx → ρ' y y' → ρ y y') ∧
      Abreast fixed ρ' s (s.witness ctx x a).1 s' (s'.witness ctx' x' a').1 ∧
      (s.witness ctx x a).2.Similar ρ' (s'.witness ctx' x' a').2 := by
  have hx := s.freshName_not_mem ctx x
  have hx' := s'.freshName_not_mem ctx' x'
  have hle := h.similar.le_under hx hx'
  refine ⟨_, hle, fun y y' hy hρ => ?_, h.enter hx hx' ha _ _,
    .neutral (ha.mono hle) (.var (.inl ⟨rfl, rfl⟩))⟩
  rcases hρ with ⟨rfl, -⟩ | ⟨-, -, hρ⟩
  · exact absurd hy hx
  · exact hρ

/-- The bodies of two binders at a new parameter, which is typed from the left on one side and from
the right on the other. -/
theorem Abreast.bodies (h : Abreast fixed ρ s ctx s' ctx') {c c' c₁' : Value}
    {d d' d₁ d₁' : Closure} (hbalanced : Closure.Balanced c c' d d') (hc' : c'.Similar ρ c₁')
    (hd : d.Similar ρ d₁) (hd' : d'.Similar ρ d₁') :
    ∃ ρ' : Renaming, (∀ y y', ρ y y' → ρ' y y') ∧ (∀ y y', y ∈ s.usedNames ctx → ρ' y y' → ρ y y') ∧
      Abreast fixed ρ' s (s.witness ctx d.x c).1 s' (s'.witness ctx' d₁'.x c₁').1 ∧
      Eval.Rel (Value.Similar ρ') (d.apply n (s.witness ctx d.x c).2)
        (d₁.apply n (s'.witness ctx' d₁'.x c₁').2) ∧
      Eval.Rel (Value.Similar ρ') (d'.apply n (s.witness ctx d.x c).2)
        (d₁'.apply n (s'.witness ctx' d₁'.x c₁').2) := by
  rcases hbalanced with hc | ⟨hunused, hunused'⟩
  · obtain ⟨ρ', hle, hback, hinner, hv⟩ := h.witness d.x d₁'.x (hc.of_eq hc')
    refine ⟨ρ', hle, hback, hinner, ?_, ?_⟩
    · exact (ComputesSimilarly.all ρ' n).apply (hd.mono hle) hv
    · exact (ComputesSimilarly.all ρ' n).apply (hd'.mono hle) hv
  · have hinner :=
      h.enterUnused (s.freshName_not_mem ctx d.x) (s'.freshName_not_mem ctx' d₁'.x) c c₁'
      (s.freshName ctx d.x) (s'.freshName ctx' d₁'.x)
    refine ⟨ρ, fun _ _ => id, fun _ _ _ => id, hinner, ?_, ?_⟩
    · exact Closure.apply_unused hd hunused _ _
    · exact Closure.apply_unused hd' hunused' _ _

theorem Value.fieldType_similar {a a' l l' : Value} {k : Name} (ha : a.Similar ρ a')
    (hl : l.Similar ρ l') :
    Eval.Rel (Option.Rel (Value.Similar ρ)) (a.fieldType n l k) (a'.fieldType n l' k) := by
  cases ha with
  | classOf hc => exact Chain.typeOf_similar hc hl
  | _ => exact .pure .none

theorem Solver.isFunction_abreast (h : Abreast fixed ρ s ctx s' ctx') {a a' : Value}
    (ha : a.Similar ρ a') (hfunction : (Solver.isFunction n a).Yields s true s) :
    (Solver.isFunction n a').Yields s' true s' := by
  unfold Solver.isFunction at hfunction ⊢
  simp only [Solver.yields_bind, Solver.yields_force] at hfunction ⊢
  obtain ⟨b, _, ⟨hb, rfl⟩, hfunction⟩ := hfunction
  obtain ⟨b', hb', hbb'⟩ := h.force ha b hb
  refine ⟨b', s', ⟨hb', rfl⟩, ?_⟩
  split at hfunction
  · cases hbb' with
    | pi => exact Solver.yields_pure.2 ⟨rfl, rfl⟩
  · cases (Solver.yields_pure.1 hfunction).1

/-- What is similar to the left side of a balanced step is found from the right side as well. -/
theorem Eval.Rel.of_eq {x y z : Eval Value} (hxy : Eval.Rel (Value.Similar Eq) x y)
    (hyz : Eval.Rel (Value.Similar ρ) y z) :
    Eval.Rel (Value.Similar ρ) x z := by
  intro a ha
  obtain ⟨b, hb, hab⟩ := hxy a ha
  obtain ⟨c, hc, hbc⟩ := hyz b hb
  exact ⟨c, hc, hab.of_eq hbc⟩

theorem Eval.Rel.of_eq_option {x y z : Eval (Option Value)}
    (hxy : Eval.Rel (Option.Rel (Value.Similar Eq)) x y)
    (hyz : Eval.Rel (Option.Rel (Value.Similar ρ)) y z) :
        Eval.Rel (Option.Rel (Value.Similar ρ)) x z := by
  intro a ha
  obtain ⟨b, hb, hab⟩ := hxy a ha
  obtain ⟨c, hc, hbc⟩ := hyz b hb
  refine ⟨c, hc, ?_⟩
  cases hab with
  | none => exact hbc
  | some hab =>
    cases hbc with
    | some hbc => exact .some (hab.of_eq hbc)

/-- The fields of two objects with the same labels face each other in turn. -/
theorem fields_turned {fs gs fs' gs' : List (Name × Value)}
    (hlabels : fs.map Prod.fst = gs.map Prod.fst) (hnodup : (fs.map Prod.fst).Nodup)
    (hfs : FieldsAlike (Value.Similar ρ) fs fs') (hgs : FieldsAlike (Value.Similar ρ) gs gs') :
    List.Forall₂ (FieldTurned ρ gs fs') fs gs' := by
  have hlabels' : fs.map Prod.fst = fs'.map Prod.fst := (fieldsAlike_iff.1 hfs).1
  have hlength : fs.length = gs.length := by simpa using congrArg List.length hlabels
  have hnodup' : (fs'.map Prod.fst).Nodup := hlabels' ▸ hnodup
  rw [hlabels] at hnodup
  refine List.forall₂_iff_get.2 ⟨hlength.trans hgs.length_eq, fun i hi hi' => ?_⟩
  have hg : i < gs.length := hlength ▸ hi
  have hf : i < fs'.length := hfs.length_eq ▸ hi
  obtain ⟨hleft, hx⟩ := hfs.get hi hf
  obtain ⟨hright, hy⟩ := hgs.get hg hi'
  have hlabel : (fs.get ⟨i, hi⟩).1 = (gs.get ⟨i, hg⟩).1 := by
    simpa [hi, hg] using congrArg (·[i]?) hlabels
  have hfound : gs.lookup (gs.get ⟨i, hg⟩).1 = some (gs.get ⟨i, hg⟩).2 :=
    lookup_of_mem hnodup (List.get_mem gs _)
  have hfound' : fs'.lookup (fs'.get ⟨i, hf⟩).1 = some (fs'.get ⟨i, hf⟩).2 :=
    lookup_of_mem hnodup' (List.get_mem fs' _)
  refine ⟨hlabel.trans hright, ⟨_, hlabel ▸ hfound, hy⟩, ⟨_, ?_, hx⟩⟩
  rw [← hright, ← hlabel, hleft]
  exact hfound'

end

def Problem.Turns (fixed : Name → Prop) (n : Nat) (ctx : Context) (g : Problem)
    (s s₁ : Solution) : Prop :=
  ∀ ⦃ρ : Renaming⦄ ⦃s' : Solution⦄ ⦃ctx' : Context⦄ ⦃g' : Problem⦄, Abreast fixed ρ s ctx s'
    ctx' → g.Turned ρ g' →
    ∃ s₁', Unifies (fun _ _ _ _ => True) n ctx' g' s' s₁' ∧ Abreast fixed ρ s₁ ctx s₁' ctx'

namespace Problem.Turns

variable {fixed : Name → Prop} {ρ : Renaming} {s s' s₁ s₂ s₃ : Solution}
  {ctx ctx' : Context} {n : Nat}

/-- Two values that are compared at a new parameter. What they and their type are computed from is
similar below the binders. -/
theorem opened {x x' : Name} {a a' b c c' l r : Value} {left right : Eval Value}
    (h : Abreast fixed ρ s ctx s' ctx') (hc : c.Similar ρ c') (ha : a.Similar ρ a')
    (hb : a.resultType n (s.witness ctx x c).2 = .ok b)
      (hl : ∀ ρ' : Renaming, (∀ y y', ρ y y' → ρ' y y') →
        (s.witness ctx x c).2.Similar ρ' (s'.witness ctx' x' c').2 →
      ∃ l', left = .ok l' ∧ l.Similar ρ' l')
    (hr : ∀ ρ' : Renaming, (∀ y y', ρ y y' → ρ' y y') →
      (s.witness ctx x c).2.Similar ρ' (s'.witness ctx' x' c').2 →
      ∃ r', right = .ok r' ∧ r.Similar ρ' r')
    (hrest : Turns fixed n (s.witness ctx x c).1 (.values b l r) s s₁) (hnames : s₁.names = s.names)
    (hkept : s₁.Over (· ∈ s₁.usedNames ctx)) :
    ∃ b' l' r' s₁', a'.resultType n (s'.witness ctx' x' c').2 = .ok b' ∧ left = .ok l' ∧
      right = .ok r' ∧
      Unifies (fun _ _ _ _ => True) n (s'.witness ctx' x' c').1 (.values b' r' l') s' s₁' ∧
      Abreast fixed ρ s₁ ctx s₁' ctx' := by
  obtain ⟨ρ', hle, hback, hinner, hv⟩ := h.witness x x' hc
  obtain ⟨b', hb', hbb'⟩ := Value.resultType_similar (ha.mono hle) hv b hb
  obtain ⟨l', hl', hll'⟩ := hl ρ' hle hv
  obtain ⟨r', hr', hrr'⟩ := hr ρ' hle hv
  obtain ⟨s₁', hrest', hafter⟩ := hrest hinner (.values hbb' hll' hrr')
  have hback' := h.leave hafter hnames hrest'.names_eq hle hback hkept
  exact ⟨b', l', r', s₁', hb', hl', hr', hrest', hback'⟩

theorem fn {p : Plicity} {a b c c' l r : Value} {f g : Closure}
    (heven : Problem.Even ctx (.forms a (.fn p c f) (.fn p c' g)) s s₁)
    (hb : a.resultType n (s.witness ctx f.x c).2 = .ok b)
    (hl : f.apply n (s.witness ctx f.x c).2 = .ok l)
    (hr : g.apply n (s.witness ctx f.x c).2 = .ok r) (hnames : s₁.names = s.names)
    (hrest : Turns fixed n (s.witness ctx f.x c).1 (.values b l r) s s₁) :
    Turns fixed (n + 1) ctx (.forms a (.fn p c f) (.fn p c' g)) s s₁ := by
  intro ρ s' ctx' _ h hturned
  cases hturned with
  | forms ha hleft hright =>
    cases hleft with
    | fn hc hf =>
      cases hright with
      | fn hc' hg =>
        have hbalanced : c.Similar Eq c' := heven.balanced
        have hdomain := hbalanced.of_eq hc'
        obtain ⟨b', l', r', s₁', hb', hl', hr', hrest', hafter⟩ := opened h hdomain ha hb
          (fun ρ' hle hv => (ComputesSimilarly.all ρ' n).apply (hf.mono hle) hv l hl)
          (fun ρ' hle hv => (ComputesSimilarly.all ρ' n).apply (hg.mono hle) hv r hr) hrest
            hnames heven.kept
        exact ⟨s₁', .fn trivial hb' hr' hl' hrest', hafter⟩

theorem expandRight {a b c d l r : Value} {f : Closure} {e : Neutral}
    (heven : Problem.Even ctx (.forms a (.fn .explicit c f) (.neutral d e)) s s₁)
    (hfunction : (Solver.isFunction n d).Yields s true s)
    (hb : a.resultType n (s.witness ctx f.x c).2 = .ok b)
    (hl : f.apply n (s.witness ctx f.x c).2 = .ok l)
    (hr : (Value.neutral d e).app n .explicit (s.witness ctx f.x c).2 = .ok r)
    (hnames : s₁.names = s.names)
    (hrest : Turns fixed n (s.witness ctx f.x c).1 (.values b l r) s s₁) :
    Turns fixed (n + 1) ctx (.forms a (.fn .explicit c f) (.neutral d e)) s s₁ := by
  intro ρ s' ctx' _ h hturned
  cases hturned with
  | forms ha hleft hright =>
    cases hleft with
    | fn hc hf =>
      cases hright with
      | neutral hd he =>
        obtain ⟨b', l', r', s₁', hb', hl', hr', hrest', hafter⟩ := opened h hc ha hb
          (fun ρ' hle hv => (ComputesSimilarly.all ρ' n).apply (hf.mono hle) hv l hl)
          (fun ρ' hle hv => (ComputesSimilarly.all ρ' n).app
            (.neutral (hd.mono hle) (he.mono hle)) hv r hr)
          hrest hnames heven.kept
        exact ⟨s₁', .expandLeft trivial (Solver.isFunction_abreast h hd hfunction) hb' hr'
          hl' hrest', hafter⟩

theorem expandLeft {a b c d l r : Value} {g : Closure} {e : Neutral}
    (heven : Problem.Even ctx (.forms a (.neutral d e) (.fn .explicit c g)) s s₁)
    (hfunction : (Solver.isFunction n d).Yields s true s)
    (hb : a.resultType n (s.witness ctx g.x c).2 = .ok b)
    (hl : (Value.neutral d e).app n .explicit (s.witness ctx g.x c).2 = .ok l)
    (hr : g.apply n (s.witness ctx g.x c).2 = .ok r) (hnames : s₁.names = s.names)
    (hrest : Turns fixed n (s.witness ctx g.x c).1 (.values b l r) s s₁) :
    Turns fixed (n + 1) ctx (.forms a (.neutral d e) (.fn .explicit c g)) s s₁ := by
  intro ρ s' ctx' _ h hturned
  cases hturned with
  | forms ha hleft hright =>
    cases hleft with
    | neutral hd he =>
      cases hright with
      | fn hc hg =>
        obtain ⟨b', l', r', s₁', hb', hl', hr', hrest', hafter⟩ := opened h hc ha hb
          (fun ρ' hle hv => (ComputesSimilarly.all ρ' n).app
          (.neutral (hd.mono hle) (he.mono hle)) hv l hl)
          (fun ρ' hle hv => (ComputesSimilarly.all ρ' n).apply (hg.mono hle) hv r hr) hrest
            hnames heven.kept
        exact ⟨s₁', .expandRight trivial (Solver.isFunction_abreast h hd hfunction) hb' hr'
          hl' hrest', hafter⟩

theorem cons {b c x x' y y' : Value} {d : Closure}
    (heven : Problem.Even ctx (.forms (.sigma c d) (.cons x y) (.cons x' y')) s s₂)
    (hfirst : Turns fixed n ctx (.values c x x') s s₁) (hb : d.apply n x = .ok b)
    (hsecond : Turns fixed n ctx (.values b y y') s₁ s₂) :
    Turns fixed (n + 1) ctx (.forms (.sigma c d) (.cons x y) (.cons x' y')) s s₂ := by
  intro ρ s' ctx' _ h hturned
  cases hturned with
  | forms ha hleft hright =>
    cases ha with
    | sigma hc hd =>
      cases hleft with
      | cons hx hy =>
        cases hright with
        | cons hx' hy' =>
          have hbalanced := heven.balanced c d n rfl
          obtain ⟨b', hb', hbb'⟩ := hbalanced.of_eq ((ComputesSimilarly.all ρ n).apply hd hx') b hb
          obtain ⟨s₁', hfirst', hmiddle⟩ := hfirst h (.values hc hx hx')
          obtain ⟨s₂', hsecond', hafter⟩ := hsecond hmiddle (.values hbb' hy hy')
          exact ⟨s₂', .cons trivial hfirst' hb' hsecond', hafter⟩

theorem equal {a c c' x x' y y' : Value}
    (heven : Problem.Even ctx (.forms a (.equal c x y) (.equal c' x' y')) s s₃)
    (htypes : Turns fixed n ctx (.values .type c c') s s₁)
    (hlefts : Turns fixed n ctx (.values c x x') s₁ s₂)
    (hrights : Turns fixed n ctx (.values c y y') s₂ s₃) :
    Turns fixed (n + 1) ctx (.forms a (.equal c x y) (.equal c' x' y')) s s₃ := by
  intro ρ s' ctx' _ h hturned
  cases hturned with
  | forms _ hleft hright =>
    cases hleft with
    | equal hc hx hy =>
      cases hright with
      | equal hc' hx' hy' =>
        have hbalanced : c.Similar Eq c' := heven.balanced
        have htype := hbalanced.of_eq hc'
        obtain ⟨s₁', htypes', hmiddle⟩ := htypes h (.values .type hc hc')
        obtain ⟨s₂', hlefts', hmiddle'⟩ := hlefts hmiddle (.values htype hx hx')
        obtain ⟨s₃', hrights', hafter⟩ := hrights hmiddle' (.values htype hy hy')
        exact ⟨s₃', .equal trivial htypes' hlefts' hrights', hafter⟩

theorem objects {a : Value} {fs gs : List (Name × Value)}
    (heven : Problem.Even ctx (.forms a (.object fs) (.object gs)) s s₁)
    (hlength : fs.length = gs.length)
    (hrest : Turns fixed n ctx (.fields a (.object fs) fs gs) s s₁) :
    Turns fixed (n + 1) ctx (.forms a (.object fs) (.object gs)) s s₁ := by
  intro ρ s' ctx' _ h hturned
  cases hturned with
  | forms ha hleft hright =>
    cases hleft with
    | @object _ fs' hfs hfs' =>
      cases hright with
      | @object _ gs' hgs hgs' =>
        have hlefts : FieldsAlike (Value.Similar ρ) fs fs' := fieldsAlike_iff.2 ⟨hfs, hfs'⟩
        have hrights : FieldsAlike (Value.Similar ρ) gs gs' := fieldsAlike_iff.2 ⟨hgs, hgs'⟩
        obtain ⟨hlabels, hnodup, htypes⟩ := heven.balanced
        have hright : Value.Similar ρ (.object gs) (.object gs') := .object hrights
        obtain ⟨s₁', hrest', hafter⟩ := hrest h
          (.fields (fun m k => (htypes m k).of_eq_option (Value.fieldType_similar ha hright))
            (fields_turned hlabels hnodup hlefts hrights))
        have hlength' : gs'.length = fs'.length := by
          rw [← hlefts.length_eq, ← hrights.length_eq, hlength]
        exact ⟨s₁', .objects trivial hlength' hrest', hafter⟩

theorem field {a b l x y : Value} {k : Name} {fs gs : List (Name × Value)}
    (hy : gs.lookup k = some y) (hb : a.fieldType n l k = .ok (some b))
    (hfirst : Turns fixed n ctx (.values b x y) s s₁)
    (hrest : Turns fixed n ctx (.fields a l fs gs) s₁ s₂) : Turns fixed n ctx
        (.fields a l ((k, x) :: fs) gs) s s₂ := by
  intro ρ s' ctx' _ h hturned
  cases hturned with
  | fields htypes hfields =>
    cases hfields with
    | @cons _ g _ _ hfield hfields =>
      obtain ⟨k', y'⟩ := g
      obtain ⟨rfl, ⟨y₁, hy₁, hyy'⟩, x', hx', hxx'⟩ := hfield
      cases hy.symm.trans hy₁
      obtain ⟨_, hb', hrel⟩ := htypes n k (some b) hb
      obtain ⟨b', rfl, hbb'⟩ := rel_some hrel rfl
      obtain ⟨s₁', hfirst', hmiddle⟩ := hfirst h (.values hbb' hxx' hyy')
      obtain ⟨s₂', hrest', hafter⟩ := hrest hmiddle (.fields htypes hfields)
      exact ⟨s₂', .field trivial hx' hb' hfirst' hrest', hafter⟩

theorem untypedField {a l x y : Value} {k : Name} {t u : Term} {fs gs : List (Name × Value)}
    (hy : gs.lookup k = some y) (hb : a.fieldType n l k = .ok none) (ht : s.reify n ctx x = .ok t)
    (hu : s.reify n ctx y = .ok u) (halpha : t.alphaEquivalent u)
    (hrest : Turns fixed n ctx (.fields a l fs gs) s s₁) :
    Turns fixed n ctx (.fields a l ((k, x) :: fs) gs) s s₁ := by
  intro ρ s' ctx' _ h hturned
  cases hturned with
  | fields htypes hfields =>
    cases hfields with
    | @cons _ g _ _ hfield hfields =>
      obtain ⟨k', y'⟩ := g
      obtain ⟨rfl, ⟨y₁, hy₁, hyy'⟩, x', hx', hxx'⟩ := hfield
      cases hy.symm.trans hy₁
      obtain ⟨_, hb', hrel⟩ := htypes n k none hb
      obtain rfl := rel_none hrel rfl
      obtain ⟨t', ht', htt'⟩ := h.reify hxx' t ht
      obtain ⟨u', hu', huu'⟩ := h.reify hyy' u hu
      have halpha' := Term.alphaEquivalent_of_alike h.functional htt' huu' halpha
      obtain ⟨s₁', hrest', hafter⟩ := hrest h (.fields htypes hfields)
      exact ⟨s₁', .untypedField trivial hx' hb' hu' ht' (Term.alphaEquivalent_symm halpha') hrest',
        hafter⟩

theorem binders {b b' c c' : Value} {d d' : Closure}
    (heven : Problem.Even ctx (.binders c c' d d') s s₂)
    (hfirst : Turns fixed n ctx (.values .type c c') s s₁)
    (hb : d.apply n (s₁.witness ctx d.x c).2 = .ok b)
    (hb' : d'.apply n (s₁.witness ctx d.x c).2 = .ok b') (hnames : s₂.names = s₁.names)
    (hsecond : Turns fixed n (s₁.witness ctx d.x c).1 (.values .type b b') s₁ s₂) :
    Turns fixed (n + 1) ctx (.binders c c' d d') s s₂ := by
  intro ρ s' ctx' _ h hturned
  cases hturned with
  | binders hc hc' hd hd' =>
    obtain ⟨s₁', hfirst', hmiddle⟩ := hfirst h (.values .type hc hc')
    obtain ⟨ρ', hle, hback, hinner, hleft, hright⟩ := hmiddle.bodies heven.balanced hc' hd hd'
    obtain ⟨b₁, hb₁, hbb₁⟩ := hleft b hb
    obtain ⟨b₁', hb₁', hbb₁'⟩ := hright b' hb'
    obtain ⟨s₂', hsecond', hafter⟩ := hsecond hinner (.values .type hbb₁ hbb₁')
    have hafter' := hmiddle.leave hafter hnames hsecond'.names_eq hle hback heven.kept
    exact ⟨s₂', .binders trivial hfirst' hb₁' hb₁ hsecond', hafter'⟩

theorem declared {k : Name} {a b : Value} {c d : Closure} {c' d' : Chain}
    (heven : Problem.Even ctx (.chains (.declared k a c) (.declared k b d)) s s₂)
    (hfirst : Turns fixed n ctx (.values .type a b) s s₁)
    (hc : c.applyChain n (s₁.witness ctx c.x a).2 = .ok c')
    (hd : d.applyChain n (s₁.witness ctx c.x a).2 = .ok d') (hnames : s₂.names = s₁.names)
    (hsecond : Turns fixed n (s₁.witness ctx c.x a).1 (.chains c' d') s₁ s₂) :
    Turns fixed (n + 1) ctx (.chains (.declared k a c) (.declared k b d)) s s₂ := by
  intro ρ s' ctx' _ h hturned
  cases hturned with
  | chains hleft hright =>
    cases hleft with
    | declared ha hc₁ =>
      cases hright with
      | declared hb hd₁ =>
        obtain ⟨s₁', hfirst', hmiddle⟩ := hfirst h (.values .type ha hb)
        obtain ⟨ρ', hle, hback, hinner, hleft, hright⟩ := hmiddle.bodies heven.balanced hb hc₁ hd₁
        obtain ⟨c₁', hc₁', hcc₁'⟩ := Closure.applyChain_rel hleft c' hc
        obtain ⟨d₁', hd₁', hdd₁'⟩ := Closure.applyChain_rel hright d' hd
        obtain ⟨s₂', hsecond', hafter⟩ := hsecond hinner (.chains hcc₁' hdd₁')
        have hafter' := hmiddle.leave hafter hnames hsecond'.names_eq hle hback heven.kept
        exact ⟨s₂', .declared trivial hfirst' hd₁' hc₁' hsecond', hafter'⟩

theorem fulfilled {k : Name} {a b x y : Value} {c d : Chain}
    (heven : Problem.Even ctx (.chains (.fulfilled k a x c) (.fulfilled k b y d)) s s₃)
    (htypes : Turns fixed n ctx (.values .type a b) s s₁)
    (hvalues : Turns fixed n ctx (.values a x y) s₁ s₂)
    (hrest : Turns fixed n ctx (.chains c d) s₂ s₃) :
    Turns fixed (n + 1) ctx (.chains (.fulfilled k a x c) (.fulfilled k b y d)) s s₃ := by
  intro ρ s' ctx' _ h hturned
  cases hturned with
  | chains hleft hright =>
    cases hleft with
    | fulfilled ha hx hc =>
      cases hright with
      | fulfilled hb hy hd =>
        have hbalanced : a.Similar Eq b := heven.balanced
        obtain ⟨s₁', htypes', hmiddle⟩ := htypes h (.values .type ha hb)
        obtain ⟨s₂', hvalues', hmiddle'⟩ := hvalues hmiddle (.values (hbalanced.of_eq hb) hx hy)
        obtain ⟨s₃', hrest', hafter⟩ := hrest hmiddle' (.chains hc hd)
        exact ⟨s₃', .fulfilled trivial htypes' hvalues' hrest', hafter⟩

theorem app {p : Plicity} {e f : Neutral} {a b x y : Value}
    (heven : Problem.Even ctx (.spines (.app p e a x) (.app p f b y)) s s₂)
    (hheads : Turns fixed n ctx (.spines e f) s s₁)
    (hargs : Turns fixed n ctx (.values a x y) s₁ s₂) :
    Turns fixed (n + 1) ctx (.spines (.app p e a x) (.app p f b y)) s s₂ := by
  intro ρ s' ctx' _ h hturned
  cases hturned with
  | spines hleft hright =>
    cases hleft with
    | app he ha hx =>
      cases hright with
      | app hf hb hy =>
        have hbalanced : a.Similar Eq b := heven.balanced
        obtain ⟨s₁', hheads', hmiddle⟩ := hheads h (.spines he hf)
        obtain ⟨s₂', hargs', hafter⟩ := hargs hmiddle (.values (hbalanced.of_eq hb) hx hy)
        exact ⟨s₂', .app trivial hheads' hargs', hafter⟩

end Problem.Turns

section

variable {fixed : Name → Prop} {s s' s₁ : Solution} {ctx ctx' : Context} {n : Nat}

/-- An equation is balanced if one of its sides is not an application of a pattern variable. -/
theorem Problem.balanced_of_none {a l r w : Value} (h : l.force n s = .ok w ∨ r.force n s = .ok w)
    (hw : w.patternSpine s = none) : (Problem.values a l r).Balanced s := by
  intro m l' r' p q hl hr hp hq
  rcases h with h | h
  · cases Eval.eq_of_ok (fun n => Value.force_grows n s l) h hl
    simp [hw] at hp
  · cases Eval.eq_of_ok (fun n => Value.force_grows n s r) h hr
    simp [hw] at hq

/-- What is unified evenly is unified with its sides exchanged. -/
theorem Unifies.turns {g : Problem} (h : Unifies Problem.Even n ctx g s s₁) :
    g.Turns fixed n ctx s s₁ := by
  -- Every rule but one has a counterpart for the other side. The exception solves the left one of
  -- two pattern variables, and an even step has the same variable on both sides.
  induction h with
  | same _ hforced hp hq hsame =>
    intro ρ s' ctx' _ h hturned
    cases hturned with
    | values ha hl hr =>
      obtain ⟨_, _, _, hforced', -, hl', hr'⟩ := hforced.turned h ha hl hr
      obtain ⟨p', hp', hpp'⟩ := rel_some (Value.patternSpine_similar h hl') hp
      obtain ⟨q', hq', hqq'⟩ := rel_some (Value.patternSpine_similar h hr') hq
      exact ⟨s', .same trivial hforced' hq' hp' (PatternSpine.same_turned h hpp' hqq' hsame), h⟩
  | choice heven hforced hp hq _ hsolve =>
    have hhead := heven.balanced _ _ _ _ _ hforced.left hforced.right hp hq
    exact absurd hsolve (PatternSpine.not_solve_of_head hq hhead)
  | solveLeft _ hforced hp hr hsolve =>
    intro ρ s' ctx' _ h hturned
    cases hturned with
    | values ha hl₁ hr₁ =>
      obtain ⟨_, _, _, hforced', -, hl', hr'⟩ := hforced.turned h ha hl₁ hr₁
      obtain ⟨p', hp', hpp'⟩ := rel_some (Value.patternSpine_similar h hl') hp
      have hnone := rel_none (Value.patternSpine_similar h hr') hr
      obtain ⟨s₁', hsolve', hafter⟩ := PatternSpine.solve_similar h hpp' hr' hsolve
      exact ⟨s₁', .solveRight trivial hforced' hnone hp' hsolve', hafter⟩
  | solveRight _ hforced hl hq hsolve =>
    intro ρ s' ctx' _ h hturned
    cases hturned with
    | values ha hl₁ hr₁ =>
      obtain ⟨_, _, _, hforced', -, hl', hr'⟩ := hforced.turned h ha hl₁ hr₁
      obtain ⟨q', hq', hqq'⟩ := rel_some (Value.patternSpine_similar h hr') hq
      have hnone := rel_none (Value.patternSpine_similar h hl') hl
      obtain ⟨s₁', hsolve', hafter⟩ := PatternSpine.solve_similar h hqq' hl' hsolve
      exact ⟨s₁', .solveLeft trivial hforced' hq' hnone hsolve', hafter⟩
  | rigid _ hforced hl hr _ ih =>
    intro ρ s' ctx' _ h hturned
    cases hturned with
    | values ha hl₁ hr₁ =>
      obtain ⟨_, _, _, hforced', ha', hl', hr'⟩ := hforced.turned h ha hl₁ hr₁
      have hnone := rel_none (Value.patternSpine_similar h hl') hl
      have hnone' := rel_none (Value.patternSpine_similar h hr') hr
      obtain ⟨s₁', hforms, hafter⟩ := ih h (.forms ha' hl' hr')
      exact ⟨s₁', .rigid trivial hforced' hnone' hnone hforms, hafter⟩
  | atom _ hatom =>
    intro ρ s' ctx' _ h hturned
    cases hturned with
    | forms _ hl hr =>
      refine ⟨s', ?_, h⟩
      cases hl with
      | type | string | quote | trivial | sole =>
        cases hr
        exact .atom trivial hatom
      | _ => exact hatom.elim
  | pi _ _ ih =>
    intro ρ s' ctx' _ h hturned
    cases hturned with
    | forms _ hl hr =>
      cases hl with
      | pi hc hd =>
        cases hr with
        | pi hc' hd' =>
          obtain ⟨s₁', hrest, hafter⟩ := ih h (.binders hc hc' hd hd')
          exact ⟨s₁', .pi trivial hrest, hafter⟩
  | sigma _ _ ih =>
    intro ρ s' ctx' _ h hturned
    cases hturned with
    | forms _ hl hr =>
      cases hl with
      | sigma hc hd =>
        cases hr with
        | sigma hc' hd' =>
          obtain ⟨s₁', hrest, hafter⟩ := ih h (.binders hc hc' hd hd')
          exact ⟨s₁', .sigma trivial hrest, hafter⟩
  | fn heven hb hl hr hrest ih => exact .fn heven hb hl hr hrest.names_eq ih
  | expandRight heven hfunction hb hl hr hrest ih =>
    exact .expandRight heven hfunction hb hl hr hrest.names_eq ih
  | expandLeft heven hfunction hb hl hr hrest ih =>
    exact .expandLeft heven hfunction hb hl hr hrest.names_eq ih
  | cons heven _ hb _ ih₁ ih₂ => exact .cons heven ih₁ hb ih₂
  | equal heven _ _ _ ih₁ ih₂ ih₃ => exact .equal heven ih₁ ih₂ ih₃
  | proof _ _ ih =>
    intro ρ s' ctx' _ h hturned
    cases hturned with
    | forms ha hl hr =>
      cases ha with
      | equal hc _ _ =>
        cases hl with
        | same hx =>
          cases hr with
          | same hy =>
            obtain ⟨s₁', hrest, hafter⟩ := ih h (.values hc hx hy)
            exact ⟨s₁', .proof trivial hrest, hafter⟩
  | classes _ _ ih =>
    intro ρ s' ctx' _ h hturned
    cases hturned with
    | forms _ hl hr =>
      cases hl with
      | classOf hc =>
        cases hr with
        | classOf hd =>
          obtain ⟨s₁', hrest, hafter⟩ := ih h (.chains hc hd)
          exact ⟨s₁', .classes trivial hrest, hafter⟩
  | objects heven hlength _ ih => exact .objects heven hlength ih
  | stuck _ _ ih =>
    intro ρ s' ctx' _ h hturned
    cases hturned with
    | forms _ hl hr =>
      cases hl with
      | neutral _ he =>
        cases hr with
        | neutral _ hf =>
          obtain ⟨s₁', hrest, hafter⟩ := ih h (.spines he hf)
          exact ⟨s₁', .stuck trivial hrest, hafter⟩
  | binders heven _ hb hb' hrest ih₁ ih₂ => exact .binders heven ih₁ hb hb' hrest.names_eq ih₂
  | noFields =>
    intro ρ s' ctx' _ h hturned
    cases hturned with
    | fields _ hfields =>
      cases hfields
      exact ⟨s', .noFields trivial, h⟩
  | field _ hy hb _ _ ih₁ ih₂ => exact .field hy hb ih₁ ih₂
  | untypedField _ hy hb ht hu halpha _ ih => exact .untypedField hy hb ht hu halpha ih
  | var =>
    intro ρ s' ctx' _ h hturned
    cases hturned with
    | spines he hf =>
      cases he with
      | var hx =>
        cases hf with
        | var hx' =>
          obtain rfl := h.functional _ _ _ hx hx'
          exact ⟨s', .var trivial, h⟩
  | app heven _ _ ih₁ ih₂ => exact .app heven ih₁ ih₂
  | car _ _ ih =>
    intro ρ s' ctx' _ h hturned
    cases hturned with
    | spines hl hr =>
      cases hl with
      | car he =>
        cases hr with
        | car hf =>
          obtain ⟨s₁', hrest, hafter⟩ := ih h (.spines he hf)
          exact ⟨s₁', .car trivial hrest, hafter⟩
  | cdr _ _ ih =>
    intro ρ s' ctx' _ h hturned
    cases hturned with
    | spines hl hr =>
      cases hl with
      | cdr he =>
        cases hr with
        | cdr hf =>
          obtain ⟨s₁', hrest, hafter⟩ := ih h (.spines he hf)
          exact ⟨s₁', .cdr trivial hrest, hafter⟩
  | dot _ _ ih =>
    intro ρ s' ctx' _ h hturned
    cases hturned with
    | spines hl hr =>
      cases hl with
      | dot he =>
        cases hr with
        | dot hf =>
          obtain ⟨s₁', hrest, hafter⟩ := ih h (.spines he hf)
          exact ⟨s₁', .dot trivial hrest, hafter⟩
  | nil =>
    intro ρ s' ctx' _ h hturned
    cases hturned with
    | chains hl hr =>
      cases hl
      cases hr
      exact ⟨s', .nil trivial, h⟩
  | declared heven _ hc hd hrest ih₁ ih₂ => exact .declared heven ih₁ hc hd hrest.names_eq ih₂
  | fulfilled heven _ _ _ ih₁ ih₂ ih₃ => exact .fulfilled heven ih₁ ih₂ ih₃

/-- The context and the solution speak of names that are in use, and of no others. -/
structure Solution.InUse (s : Solution) (ctx : Context) : Prop where
  named : s.NamedIn s.names
  stored : s.Over (· ∈ s.usedNames ctx)
  scopes : ∀ x a scope, s.find x = some (.unsolved a scope) → ∀ y ∈ scope, y ∈ s.usedNames ctx
  context : ctx.Over (· ∈ s.usedNames ctx)

theorem Solution.InUse.abreast (h : s.InUse ctx) :
    Abreast (· ∈ s.usedNames ctx) (.only (· ∈ s.usedNames ctx)) s ctx s ctx where
  functional := by
    rintro x y y' ⟨rfl, -⟩ ⟨rfl, -⟩
    rfl
  injective := by
    rintro x x' y ⟨rfl, -⟩ ⟨rfl, -⟩
    rfl
  mem := by
    rintro x _ ⟨rfl, hx⟩
    exact ⟨hx, hx⟩
  named := h.named
  named' := h.named
  find := (h.stored.similar (fun _ hy => ⟨hy, hy⟩) (h.named.usedNames ctx)
    (h.named.usedNames ctx)).find
  entry := by
    rintro x _ ⟨rfl, -⟩
    cases he : ctx.entry x with
    | none => exact .none
    | some e =>
      obtain ⟨htype, hvalue⟩ := h.context e (List.mem_of_find?_eq_some he)
      refine .some ⟨Value.Over.similar htype, ?_⟩
      cases hv : e.value with
      | none => exact .none
      | some v => exact .some (Value.Over.similar (hvalue v hv))
  scope := by
    rintro x _ a a' scope scope' ⟨rfl, -⟩ hfind hfind'
    cases hfind.symm.trans hfind'
    exact ⟨rfl, h.scopes x a scope hfind⟩
  unchanged := by
    rintro x _ ⟨rfl, -⟩ -
    rfl
  known _ hy := hy

theorem Forced.symm {a l r a' l' r' : Value} (h : Forced n s a l r a' l' r') :
    Forced n s a r l a' r' l' :=
  ⟨h.type, h.right, h.left⟩

theorem Forced.unique {a l r a' l' r' b l₁ r₁ : Value} (h : Forced n s a l r a' l' r')
    (h' : Forced n s a l r b l₁ r₁) :
    b = a' ∧ l₁ = l' ∧ r₁ = r' :=
  ⟨Except.ok.inj (h'.type.symm.trans h.type), Except.ok.inj (h'.left.symm.trans h.left),
    Except.ok.inj (h'.right.symm.trans h.right)⟩

section

variable {a l r a' l' r' : Value} {p q : PatternSpine}

/-- The only application of a pattern variable is solved, if it stands on the left. -/
theorem Forced.yields_solveLeft (h : Forced n s a l r a' l' r') (hp : l'.patternSpine s = some p)
    (hr : r'.patternSpine s = none) :
    (unify (n + 1) ctx a l r).Yields s () s₁ ↔ (p.solve n s ctx r').Yields s₁ := by
  constructor
  · intro hrun
    obtain ⟨_, _, _, hforced, hrun⟩ := yields_unify.1 hrun
    obtain ⟨rfl, rfl, rfl⟩ := h.unique hforced
    rw [hp, hr] at hrun
    exact yields_solvePattern.1 hrun
  · intro hsolve
    exact (Unifies.solveLeft (E := fun _ _ _ _ => True) trivial h hp hr hsolve).run

/-- It is solved on the right as well. -/
theorem Forced.yields_solveRight (h : Forced n s a l r a' l' r') (hl : l'.patternSpine s = none)
    (hq : r'.patternSpine s = some q) :
    (unify (n + 1) ctx a l r).Yields s () s₁ ↔ (q.solve n s ctx l').Yields s₁ := by
  constructor
  · intro hrun
    obtain ⟨_, _, _, hforced, hrun⟩ := yields_unify.1 hrun
    obtain ⟨rfl, rfl, rfl⟩ := h.unique hforced
    rw [hl, hq] at hrun
    exact yields_solvePattern.1 hrun
  · intro hsolve
    exact (Unifies.solveRight (E := fun _ _ _ _ => True) trivial h hl hq hsolve).run

/-- Of two applications of pattern variables, the left one is solved unless they are the same. -/
theorem Forced.yields_choice (h : Forced n s a l r a' l' r') (hp : l'.patternSpine s = some p)
    (hq : r'.patternSpine s = some q) : (unify (n + 1) ctx a l r).Yields s () s₁ ↔
      p.same n s ctx q = .ok true ∧ s₁ = s ∨ p.same n s ctx q = .ok false ∧
      (p.solve n s ctx r').Yields s₁ := by
  constructor
  · intro hrun
    obtain ⟨_, _, _, hforced, hrun⟩ := yields_unify.1 hrun
    obtain ⟨rfl, rfl, rfl⟩ := h.unique hforced
    rw [hp, hq] at hrun
    simp only [Solver.yields_bind, Solver.yields_lift] at hrun
    obtain ⟨same, _, ⟨hsame, rfl⟩, hrun⟩ := hrun
    cases same with
    | true => exact .inl ⟨hsame, (Solver.yields_pure.1 hrun).2⟩
    | false => exact .inr ⟨hsame, yields_solvePattern.1 hrun⟩
  · rintro (⟨hsame, rfl⟩ | ⟨hsame, hsolve⟩)
    · exact (Unifies.same (E := fun _ _ _ _ => True) trivial h hp hq hsame).run
    · exact (Unifies.choice (E := fun _ _ _ _ => True) trivial h hp hq hsame hsolve).run

theorem Forced.yields_other (h : Forced n s a l r a' l' r') (hp : l'.patternSpine s = some p)
    (hq : r'.patternSpine s = some q) (hheads : p.head ≠ q.head) :
    (unify (n + 1) ctx a l r).Yields s () s₁ ↔ (p.solve n s ctx r').Yields s₁ := by
  have hsame : p.same n s ctx q = .ok false := by
    unfold PatternSpine.same
    rw [if_neg fun heads => hheads heads.1]
    rfl
  rw [h.yields_choice hp hq, hsame]
  simp

/-- Two applications of one variable are the same from either side. -/
theorem Forced.same_symm (h : Forced n s a l r a' l' r') (hs : s.InUse ctx)
    (hl : l.Over (· ∈ s.usedNames ctx)) (hr : r.Over (· ∈ s.usedNames ctx))
    (hp : l'.patternSpine s = some p) (hq : r'.patternSpine s = some q)
    (hsame : p.same n s ctx q = .ok true) : q.same n s ctx p = .ok true := by
  have hl' := Value.Over.similar (Value.force_all hs.stored.keeps h.left hl)
  have hr' := Value.Over.similar (Value.force_all hs.stored.keeps h.right hr)
  obtain ⟨p', hp', hpp'⟩ := rel_some (Value.patternSpine_similar hs.abreast hl') hp
  obtain ⟨q', hq', hqq'⟩ := rel_some (Value.patternSpine_similar hs.abreast hr') hq
  cases hp.symm.trans hp'
  cases hq.symm.trans hq'
  exact PatternSpine.same_turned hs.abreast hpp' hqq' hsame

theorem Forced.yields_same (h : Forced n s a l r a' l' r') (hp : l'.patternSpine s = some p)
    (hq : r'.patternSpine s = some q) (hheads : p.head = q.head) :
    (unify (n + 1) ctx a l r).Yields s () s₁ ↔ p.same n s ctx q = .ok true ∧ s₁ = s := by
  have hfail : ¬ (p.solve n s ctx r').Yields s₁ := PatternSpine.not_solve_of_head hq hheads
  rw [h.yields_choice hp hq]
  simp [hfail]

/-- Unless the sides are applications of two different variables, one application of a variable is
enough for the sides to be exchanged. -/
theorem Forced.yields_symm (h : Forced n s a l r a' l' r') (hs : s.InUse ctx)
    (hl : l.Over (· ∈ s.usedNames ctx)) (hr : r.Over (· ∈ s.usedNames ctx))
    (hp : l'.patternSpine s = some p) (hheads : ∀ q, r'.patternSpine s = some q → p.head = q.head) :
    (unify (n + 1) ctx a l r).Yields s () s₁ ↔ (unify (n + 1) ctx a r l).Yields s () s₁ := by
  cases hq : r'.patternSpine s with
  | none => rw [h.yields_solveLeft hp hq, h.symm.yields_solveRight hq hp]
  | some q =>
    have hhead := hheads q hq
    rw [h.yields_same hp hq hhead, h.symm.yields_same hq hp hhead.symm]
    constructor
    · rintro ⟨hsame, rfl⟩
      exact ⟨h.same_symm hs hl hr hp hq hsame, rfl⟩
    · rintro ⟨hsame, rfl⟩
      exact ⟨h.symm.same_symm hs hr hl hq hp hsame, rfl⟩

end

/-- Values over the names in use get the same normal forms from both solutions. -/
theorem Abreast.reify_alpha {X : Name → Prop} (h : Abreast fixed (.only X) s ctx s' ctx')
    {v : Value} (hv : v.Over X) {k : Nat} {t : Term} (ht : s.reify k ctx v = .ok t) :
    ∃ t', s'.reify k ctx' v = .ok t' ∧ t.alphaEquivalent t' := by
  obtain ⟨t', ht', halike⟩ := h.reify (Value.Over.similar hv) t ht
  exact ⟨t', ht', halike.alphaEquivalent⟩

/-- Every run is a derivation. If it is even, the equation is unified with its sides exchanged as
well, and with the same result: values over the names in use get the same normal forms. An
application of an unsolved pattern variable is solved on either side, with the same solution, unless
the other side is an application of another one. In that case the one on the left is solved, and the
verdict may depend on the side. -/
theorem even_equations_turn {a l r : Value} (hs : s.InUse ctx) (ha : a.Over (· ∈ s.usedNames ctx))
    (hl : l.Over (· ∈ s.usedNames ctx)) (hr : r.Over (· ∈ s.usedNames ctx)) :
    (∀ s₁, ((unify n ctx a l r).Yields s () s₁ ↔
      Unifies (fun _ _ _ _ => True) n ctx (.values a l r) s s₁) ∧
      (Unifies Problem.Even n ctx (.values a l r) s s₁ → (unify n ctx a l r).Yields s () s₁ ∧
        ∃ s₂, (unify n ctx a r l).Yields s () s₂ ∧ ∀ v, v.Over (· ∈ s.usedNames ctx) →
          ∀ k t, s₁.reify k ctx v = .ok t →
          ∃ t', s₂.reify k ctx v = .ok t' ∧ t.alphaEquivalent t')) ∧
      ∀ a' l' r' p s₁, Forced n s a l r a' l' r' → l'.patternSpine s = some p →
        ((∀ q, r'.patternSpine s = some q → p.head = q.head) →
          ((unify (n + 1) ctx a l r).Yields s () s₁ ↔ (unify (n + 1) ctx a r l).Yields s () s₁)) ∧
        (r'.patternSpine s = none →
          ((unify (n + 1) ctx a l r).Yields s () s₁ ↔ (p.solve n s ctx r').Yields s₁)) ∧
        ∀ q, r'.patternSpine s = some q → p.head ≠ q.head →
          ((unify (n + 1) ctx a l r).Yields s () s₁ ↔ (p.solve n s ctx r').Yields s₁) ∧
          ((unify (n + 1) ctx a r l).Yields s () s₁ ↔ (q.solve n s ctx l').Yields s₁) := by
  constructor
  · intro s₁
    refine ⟨(unifies_iff (g := .values a l r)).symm, fun h => ?_⟩
    have hturned : Problem.Turned (.only (· ∈ s.usedNames ctx)) (.values a l r) (.values a r l) :=
      .values (Value.Over.similar ha) (Value.Over.similar hl) (Value.Over.similar hr)
    obtain ⟨s₂, hturn, hafter⟩ := h.turns hs.abreast hturned
    exact ⟨h.run, s₂, hturn.run, fun v hv k t ht => hafter.reify_alpha hv ht⟩
  · intro a' l' r' p s₁ hforced hp
    refine ⟨hforced.yields_symm hs hl hr hp, hforced.yields_solveLeft hp, fun q hq hheads => ?_⟩
    exact ⟨hforced.yields_other hp hq hheads, hforced.symm.yields_other hq hp hheads.symm⟩

end

namespace AppliedToText

def x : Name := ⟨"x", 0⟩
def f : Name := ⟨"f", 0⟩
def k : Name := ⟨"k", 0⟩

def ctx : Context := Context.bind [] x x .string

def function : Value := .pi .explicit .string ⟨[], x, .string⟩

/-- `f : String -> String` and `k : String` are not solved. -/
def solution : Solution := (Solution.create {} f function [x]).create k .string [x]

def applied : Value := .neutral .string (.app .explicit (.var f) .string (.quote "a"))

def pairs : Value := .sigma .string ⟨[], x, .string⟩

def left : Value := .cons (.variable .string k) (.quote "b")

def right : Value := .cons (.variable .string x) (.quote "b")

def solved : Solution := solution.bind k (.variable .string x)

abbrev Used (y : Name) : Prop := y ∈ solution.usedNames ctx

theorem function_over : function.Over Used :=
  Value.all_pi.2 ⟨Value.all_string, Closure.over_of_forall (by simp)⟩

theorem string_over (y : Name) (hy : Used y) : (Value.variable .string y).Over Used :=
  Value.all_variable.2 ⟨Value.all_string, hy⟩

theorem find_eq_some {y : Name} {p : PatternVariable} (h : solution.find y = some p) :
    p = .unsolved .string [x] ∨ p = .unsolved function [x] := by
  rw [solution, Solution.find_create, Solution.find_create] at h
  by_cases hk : y = k
  · rw [if_pos hk] at h
    cases h
    exact .inl rfl
  · by_cases hf : y = f
    · rw [if_neg hk, if_pos hf] at h
      cases h
      exact .inr rfl
    · rw [if_neg hk, if_neg hf] at h
      cases h

theorem inUse : solution.InUse ctx where
  named := .create (.create fun _ _ h => nomatch h)
  stored y p hp := by
    rcases find_eq_some hp with rfl | rfl
    · exact Value.all_string
    · exact function_over
  scopes y a scope hp := by
    rcases find_eq_some hp with h | h
    all_goals
      cases h
      decide
  context e he := by
    cases List.mem_singleton.1 he
    exact ⟨Value.all_string, fun _ hv => nomatch hv⟩

theorem solved_over : solved.Over Used := by
  intro y p hp
  by_cases hk : y = k
  · subst hk
    cases hp
    exact ⟨Value.all_string, string_over x (by decide)⟩
  · rw [solved, Solution.find_bind_of_ne hk] at hp
    exact inUse.stored y p hp

theorem pairs_even : Unifies Problem.Even 20 ctx (.values pairs left right) solution solved := by
  have hstring (m : Nat) (v v' : Value) : Eval.Rel (Value.Similar Eq)
      (Closure.apply m ⟨[], x, .string⟩ v) (Closure.apply m ⟨[], x, .string⟩ v') := by
    cases m with
    | zero => exact .outOfFuel _
    | succ m => exact .pure .string
  have hfirst : Unifies Problem.Even 18 ctx
      (.values .string (.variable .string k) (.variable .string x)) solution solved :=
    .solveLeft ⟨Problem.balanced_of_none (n := 1) (.inr rfl) rfl, solved_over⟩
      ⟨rfl, rfl, rfl⟩ rfl rfl rfl
  have hsecond : Unifies Problem.Even 18 ctx (.values .string (.quote "b") (.quote "b"))
      solved solved :=
    .rigid ⟨Problem.balanced_of_none (n := 1) (.inl rfl) rfl, solved_over⟩ ⟨rfl, rfl, rfl⟩ rfl rfl
      (.atom ⟨True.intro, solved_over⟩ True.intro)
  have hpairs : Value.Balanced pairs left right := by
    rintro c d m h
    cases h
    exact hstring m _ _
  exact .rigid ⟨Problem.balanced_of_none (n := 1) (.inl rfl) rfl, solved_over⟩
    ⟨rfl, rfl, rfl⟩ rfl rfl (.cons ⟨hpairs, solved_over⟩ hfirst rfl hsecond)

end AppliedToText

open AppliedToText in
/-- `f("a") = k` is refused and `k = f("a")` is solved. An even equation in the same place is solved
either way. -/
theorem turned_application_refused :
    ((unify 20 ctx pairs left right).Yields solution () solved ∧
      ∃ s₂, (unify 20 ctx pairs right left).Yields solution () s₂) ∧
      (∃ s₁, (unify 20 ctx .string (.variable .string k) applied).Yields solution () s₁) ∧
      ∀ s₁, ¬ (unify 20 ctx .string applied (.variable .string k)).Yields solution () s₁ := by
  have hx : (Value.variable .string x).Over Used := string_over x (by decide)
  have hk : (Value.variable .string k).Over Used := string_over k (by decide)
  have hquote (text : String) : (Value.quote text).Over Used := Value.all_quote text
  have hpairs : pairs.Over Used :=
    Value.all_sigma.2 ⟨Value.all_string, Closure.over_of_forall (by simp)⟩
  have hf : Used f := by decide
  have happlied : applied.Over Used :=
    Value.all_neutral.2
      ⟨Value.all_string, Neutral.all_app.2 ⟨Neutral.all_var.2 hf, Value.all_string, hquote "a"⟩⟩
  obtain ⟨heven, -⟩ :=
    even_equations_turn (n := 20) inUse hpairs (Value.all_cons.2 ⟨hk, hquote "b"⟩)
    (Value.all_cons.2 ⟨hx, hquote "b"⟩)
  obtain ⟨hforth, s₂, hback, -⟩ := (heven solved).2 pairs_even
  obtain ⟨-, hspines⟩ := even_equations_turn (n := 19) inUse Value.all_string happlied hk
  have hturn (s₁ : Solution) :=
    (hspines .string applied (.variable .string k) ⟨f, [⟨.explicit, .string, .quote "a"⟩]⟩ s₁
    ⟨rfl, rfl, rfl⟩ rfl).2.2 ⟨k, []⟩ rfl (by decide)
  refine ⟨⟨hforth, s₂, hback⟩, ⟨_, (hturn _).2.2 rfl⟩, fun s₁ h => ?_⟩
  have hrefused := (hturn s₁).1.1 h
  cases hrefused

end DependentClasses
