import DependentClasses.Proofs.AlphaInvariance
import DependentClasses.Proofs.MirroredProperties

/-! Pattern variables that are solved side by side. Two solutions say the same of the names in use,
under other names. If one of them solves a pattern variable, so does the other, and they still say
the same afterwards. -/
namespace DependentClasses

/-- The names that `ρ` relates are in use on both sides, and the same is known of both. Scopes hold
only names that are `fixed`, which are the same on both sides. -/
structure Abreast (fixed : Name → Prop) (ρ : Renaming) (s : Solution) (ctx : Context)
    (s' : Solution) (ctx' : Context) :
    Prop where
  functional : ∀ x y y', ρ x y → ρ x y' → y = y'
  injective : ∀ x x' y, ρ x y → ρ x' y → x = x'
  mem : ∀ x x', ρ x x' → x ∈ s.usedNames ctx ∧ x' ∈ s'.usedNames ctx'
  named : s.NamedIn s.names
  named' : s'.NamedIn s'.names
  find : ∀ x x', ρ x x' → Option.Rel (PatternVariable.Similar ρ) (s.find x) (s'.find x')
  entry : ∀ x x', ρ x x' → Option.Rel (Context.Entry.Similar ρ) (ctx.entry x) (ctx'.entry x')
  scope : ∀ x x' a a' scope scope', ρ x x' → s.find x = some (.unsolved a scope) →
    s'.find x' = some (.unsolved a' scope') → scope' = scope ∧ ∀ y ∈ scope, fixed y
  unchanged : ∀ x x', ρ x x' → fixed x → x' = x
  known : ∀ y, fixed y → y ∈ s.usedNames ctx

structure PatternSpine.Arg.Similar (ρ : Renaming) (a a' : PatternSpine.Arg) : Prop where
  plicity : a.plicity = a'.plicity
  type : a.type.Similar ρ a'.type
  value : a.value.Similar ρ a'.value

structure PatternSpine.Similar (ρ : Renaming) (p p' : PatternSpine) : Prop where
  head : ρ p.head p'.head
  args : List.Forall₂ (PatternSpine.Arg.Similar ρ) p.args p'.args

section

variable {fixed : Name → Prop} {ρ : Renaming} {s s' : Solution} {ctx ctx' : Context} {n : Nat}

namespace Abreast

theorem similar (h : Abreast fixed ρ s ctx s' ctx') :
    s.Similar ρ (s.usedNames ctx) (s'.usedNames ctx') s' :=
  ⟨h.find, h.mem, h.named.usedNames ctx, h.named'.usedNames ctx'⟩

theorem force (h : Abreast fixed ρ s ctx s' ctx') {v v' : Value} (hv : v.Similar ρ v') :
    Eval.Rel (Value.Similar ρ) (v.force n s) (v'.force n s') :=
  Value.force_similar h.similar hv

theorem reify (h : Abreast fixed ρ s ctx s' ctx') {v v' : Value} (hv : v.Similar ρ v') :
    Eval.Rel (Term.Alike ρ) (s.reify n ctx v) (s'.reify n ctx' v') :=
  (ReadsAlike.all s s' n).value h.similar hv

theorem eval (h : Abreast fixed ρ s ctx s' ctx') {t t' : Term} (ht : t.Alike ρ t') :
    Eval.Rel (Value.Similar ρ) (eval n (s.environment ctx) t)
      (DependentClasses.eval n (s'.environment ctx') t') :=
  (ComputesSimilarly.all ρ n).eval
    ⟨ht, fun y _ y' _ hy => Solution.lookup_similar (h.find y y' hy) (h.entry y y' hy) hy⟩

theorem isUnsolved (h : Abreast fixed ρ s ctx s' ctx') {x x' : Name} (hx : ρ x x') :
    s.isUnsolved x = s'.isUnsolved x' := by
  have hfind := h.find x x' hx
  unfold Solution.isUnsolved
  generalize s.find x = o at hfind ⊢
  generalize s'.find x' = o' at hfind ⊢
  cases hfind with
  | none => rfl
  | some hp =>
    cases hp with
    | unsolved => rfl
    | solved => rfl

theorem isPatternVariable (h : Abreast fixed ρ s ctx s' ctx') {x x' : Name} (hx : ρ x x') :
    s.isPatternVariable x = s'.isPatternVariable x' :=
  Solution.isPatternVariable_similar (h.find x x' hx)

theorem isAbstract (h : Abreast fixed ρ s ctx s' ctx') {x x' : Name} (hx : ρ x x') :
    ctx.isAbstract x = ctx'.isAbstract x' := by
  have hentry : Option.Rel (Context.Entry.Similar ρ) (ctx.find? fun e => e.name = x)
      (ctx'.find? fun e => e.name = x') :=
    h.entry x x' hx
  unfold Context.isAbstract
  generalize (ctx.find? fun e => e.name = x) = o at hentry ⊢
  generalize (ctx'.find? fun e => e.name = x') = o' at hentry ⊢
  cases hentry with
  | none => rfl
  | @some e e' he =>
    have hvalue := he.value
    dsimp only
    generalize e.value = o at hvalue ⊢
    generalize e'.value = o' at hvalue ⊢
    cases hvalue with
    | none => rfl
    | some => rfl

theorem eq_iff (h : Abreast fixed ρ s ctx s' ctx') {x x' y y' : Name} (hx : ρ x x') (hy : ρ y y') :
    y = x ↔ y' = x' := by
  constructor
  · rintro rfl
    exact h.functional y y' x' hy hx
  · rintro rfl
    exact h.injective y x y' hy hx

theorem mem_iff (h : Abreast fixed ρ s ctx s' ctx') {xs xs' : List Name}
    (hxs : List.Forall₂ ρ xs xs') {y y' : Name} (hy : ρ y y') : y ∈ xs ↔ y' ∈ xs' := by
  induction hxs with
  | nil => simp
  | cons hx _ ih => rw [List.mem_cons, List.mem_cons, h.eq_iff hx hy, ih]

/-- Names that stand for each other may be bound by the binders of alike terms. -/
theorem le_under (h : Abreast fixed ρ s ctx s' ctx') {x x' : Name} (hx : ρ x x')
    (y y' : Name) (hy : ρ y y') :
    ρ.under x x' y y' := by
  by_cases hyx : y = x
  · exact .inl ⟨hyx, (h.eq_iff hx hy).1 hyx⟩
  · exact .inr ⟨hyx, fun heq => hyx ((h.eq_iff hx hy).2 heq), hy⟩

/-- The pattern variables that stand for each other are given similar values. -/
theorem bind (h : Abreast fixed ρ s ctx s' ctx') {m m' : Name} (hm : ρ m m') {v v' : Value}
    (hv : v.Similar ρ v') :
    Abreast fixed ρ (s.bind m v) ctx (s'.bind m' v') ctx' where
  functional := h.functional
  injective := h.injective
  mem := h.mem
  named := h.named.bind
  named' := h.named'.bind
  find x x' hx := by
    have hfind := h.find x x' hx
    have hsame := h.eq_iff hm hx
    rw [Solution.find_bind, Solution.find_bind]
    generalize s.find x = o at hfind ⊢
    generalize s'.find x' = o' at hfind ⊢
    cases hfind with
    | none => exact .none
    | some hp =>
      refine .some ?_
      dsimp only
      by_cases hxm : x = m
      · rw [if_pos hxm, if_pos (hsame.1 hxm)]
        exact .solved hv
      · rw [if_neg hxm, if_neg fun heq => hxm (hsame.2 heq)]
        exact hp
  entry := h.entry
  scope x x' a a' scope scope' hx hfind hfind' := by
    have hsame := h.eq_iff hm hx
    have hxm : x ≠ m := by
      rintro rfl
      rw [Solution.find_bind, Option.map_eq_some_iff] at hfind
      obtain ⟨old, -, hold⟩ := hfind
      simp at hold
    have hxm' : x' ≠ m' := fun heq => hxm (hsame.2 heq)
    rw [Solution.find_bind_of_ne hxm] at hfind
    rw [Solution.find_bind_of_ne hxm'] at hfind'
    exact h.scope x x' a a' scope scope' hx hfind hfind'
  unchanged := h.unchanged
  known := h.known

/-- Two parameters with new names that stand for each other. -/
theorem enter (h : Abreast fixed ρ s ctx s' ctx') {x x' : Name} (hx : x ∉ s.usedNames ctx)
    (hx' : x' ∉ s'.usedNames ctx') {a a' : Value} (ha : a.Similar ρ a') (label label' : Name) :
    Abreast fixed (ρ.under x x') s (ctx.bind label x a) s' (ctx'.bind label' x' a') where
  functional := Renaming.under_functional h.functional
  injective := Renaming.under_injective h.injective
  mem := (h.similar.under hx hx').mem
  named := h.named
  named' := h.named'
  find := (h.similar.under hx hx').find
  entry := by
    have hle := h.similar.le_under hx hx'
    rintro y y' (⟨rfl, rfl⟩ | ⟨hne, hne', hy⟩)
    · simp only [Context.entry, Context.bind, List.find?_cons, decide_true]
      exact .some ⟨ha.mono hle, .none⟩
    · rw [Context.entry_bind_of_ne hne, Context.entry_bind_of_ne hne']
      exact rel_mono (fun e e' he => he.mono hle) (h.entry y y' hy)
  scope := by
    rintro y y' b b' scope scope' (⟨rfl, rfl⟩ | ⟨-, -, hy⟩) hfind hfind'
    · rw [h.similar.named.find_eq_none hx] at hfind
      cases hfind
    · exact h.scope y y' b b' scope scope' hy hfind hfind'
  unchanged := by
    rintro y y' (⟨rfl, rfl⟩ | ⟨-, -, hy⟩) hfixed
    · exact absurd (h.known y hfixed) hx
    · exact h.unchanged y y' hy hfixed
  known y hy := List.mem_cons_of_mem x (h.known y hy)

/-- Two parameters with new names that nothing mentions. -/
theorem enterUnused (h : Abreast fixed ρ s ctx s' ctx') {x x' : Name} (hx : x ∉ s.usedNames ctx)
    (hx' : x' ∉ s'.usedNames ctx') (a a' : Value) (label label' : Name) :
    Abreast fixed ρ s (ctx.bind label x a) s' (ctx'.bind label' x' a') :=
  { h with
    mem := fun y y' hy => by
      obtain ⟨hmem, hmem'⟩ := h.mem y y' hy
      exact ⟨List.mem_cons_of_mem x hmem, List.mem_cons_of_mem x' hmem'⟩
    entry := fun y y' hy => by
      obtain ⟨hmem, hmem'⟩ := h.mem y y' hy
      have hne : y ≠ x := fun heq => hx (heq ▸ hmem)
      have hne' : y' ≠ x' := fun heq => hx' (heq ▸ hmem')
      rw [Context.entry_bind_of_ne hne, Context.entry_bind_of_ne hne']
      exact h.entry y y' hy
    known := fun y hy => List.mem_cons_of_mem x (h.known y hy) }

/-- Back outside, if the solution mentions no name that was new inside. -/
theorem leave {ρ' : Renaming} {s₁ s₁' : Solution} {inner inner' : Context}
    (h : Abreast fixed ρ s ctx s' ctx') (hin : Abreast fixed ρ' s₁ inner s₁' inner')
    (hnames : s₁.names = s.names) (hnames' : s₁'.names = s'.names) (hle : ∀ y y', ρ y y' → ρ' y y')
    (hback : ∀ y y', y ∈ s.usedNames ctx → ρ' y y' → ρ y y')
    (hover : s₁.Over (· ∈ s₁.usedNames ctx)) : Abreast fixed ρ s₁ ctx s₁' ctx' := by
  have hused : s₁.usedNames ctx = s.usedNames ctx := by
    rw [Solution.usedNames, Solution.usedNames, hnames]
  have hused' : s₁'.usedNames ctx' = s'.usedNames ctx' := by
    rw [Solution.usedNames, Solution.usedNames, hnames']
  rw [hused] at hover
  have hrestrict {v v' : Value} (hv : v.Over (· ∈ s.usedNames ctx)) (hvv' : v.Similar ρ' v') :
      v.Similar ρ v' :=
    Similar.restrict hvv' fun y y' hy hρ => hback y y' (hv (.name y) hy) hρ
  exact {
    functional := h.functional
    injective := h.injective
    mem := fun x x' hx => by
      rw [hused, hused']
      exact h.mem x x' hx
    named := hin.named
    named' := hin.named'
    find := fun x x' hx => by
      have hfind := hin.find x x' (hle x x' hx)
      generalize hp : s₁.find x = o at hfind ⊢
      generalize s₁'.find x' = o' at hfind ⊢
      cases hfind with
      | none => exact .none
      | some hsimilar =>
        have hparts := hover x _ hp
        cases hsimilar with
        | unsolved ha => exact .some (.unsolved (hrestrict hparts ha))
        | solved hv => exact .some (.solved (hrestrict hparts.2 hv))
    entry := h.entry
    scope := fun x x' a a' scope scope' hx => hin.scope x x' a a' scope scope' (hle x x' hx)
    unchanged := h.unchanged
    known := fun y hy => by
      rw [hused]
      exact h.known y hy }

end Abreast

theorem Closure.applyChain_rel {c c' : Closure} {v v' : Value}
    (h : Eval.Rel (Value.Similar ρ) (c.apply n v) (c'.apply n v')) :
    Eval.Rel (Chain.Similar ρ) (c.applyChain n v) (c'.applyChain n v') :=
  .bind h fun _ _ hr => Value.chain_similar hr

/-- What a closure is applied to does not matter if its body does not mention it. -/
theorem Closure.apply_unused {c c' : Closure} (h : c.Similar ρ c') (hc : c.x ∉ c.body.freeNames)
    (v v' : Value) :
    Eval.Rel (Value.Similar ρ) (c.apply n v) (c'.apply n v') := by
  have hc' : c'.x ∉ c'.body.freeNames := by
    cases h with
    | closure halike _ _ =>
      intro hx'
      obtain ⟨y, hy, ⟨rfl, -⟩ | ⟨-, hne, -⟩⟩ := halike.symm.exists_free hx'
      · exact hc hy
      · exact hne rfl
  have hkept {d : Closure} (hd : d.x ∉ d.body.freeNames) {y : Name}
      (hy : y ∈ d.body.freeNames) (w : Value) : (d.bind w).lookup y = d.env.lookup y := by
    have hne : y ≠ d.x := fun heq => hd (heq ▸ hy)
    rw [Closure.bind, lookup_cons_ite, if_neg hne]
  have hargument : Value.Similar ρ .type .type := .type
  obtain ⟨θ, halike, hlookup⟩ := h.bind hargument
  refine (ComputesSimilarly.all ρ n).eval ⟨halike, fun y hy y' hy' hθ => ?_⟩
  have hrel := hlookup y hy y' hy' hθ
  rw [hkept hc hy, hkept hc' hy'] at hrel ⊢
  exact hrel

/-- What is an application of an unsolved pattern variable on one side is one on the other side. -/
theorem Neutral.patternSpine_similar (h : Abreast fixed ρ s ctx s' ctx') :
    {e e' : Neutral} → e.Similar ρ e' →
    Option.Rel (PatternSpine.Similar ρ) (e.patternSpine s) (e'.patternSpine s')
  | .var x, _, .var hx => by
    unfold patternSpine
    rw [h.isUnsolved hx]
    split
    · exact .some ⟨hx, .nil⟩
    · exact .none
  | .app p e a v, _, .app he ha hv => by
    have hspine := patternSpine_similar h (e := e) he
    simp only [patternSpine]
    generalize e.patternSpine s = o at hspine ⊢
    generalize Neutral.patternSpine s' _ = o' at hspine ⊢
    cases hspine with
    | none => exact .none
    | some hp => exact .some ⟨hp.head, List.rel_append hp.args (.cons ⟨rfl, ha, hv⟩ .nil)⟩
  | .car _, _, .car _ | .cdr _, _, .cdr _ | .dot _ _, _, .dot _ => .none

theorem Value.patternSpine_similar (h : Abreast fixed ρ s ctx s' ctx') {v v' : Value}
    (hv : v.Similar ρ v') :
    Option.Rel (PatternSpine.Similar ρ) (v.patternSpine s) (v'.patternSpine s') := by
  cases hv with
  | neutral _ he => exact Neutral.patternSpine_similar h he
  | _ => exact .none

namespace PatternSpine

theorem parameters_similar (h : Abreast fixed ρ s ctx s' ctx') {head head' : Name}
    {seen seen' : List Name} (hseen : List.Forall₂ ρ seen seen') {args args' : List Arg}
    (hargs : List.Forall₂ (Arg.Similar ρ) args args') :
    Verdict.Rel (List.Forall₂ ρ) (parameters n s ctx head seen args)
      (parameters n s' ctx' head' seen' args') := by
  induction hargs generalizing seen seen' with
  | nil => exact .pure hseen
  | cons ha _ ih =>
    unfold parameters
    refine .after (h.force ha.value) fun v v' hv => ?_
    cases hv with
    | neutral _ he =>
      cases he with
      | @var x x' hx =>
        have hnew : decide (x ∉ seen) = decide (x' ∉ seen') :=
          decide_eq_decide.2 (not_congr (h.mem_iff hseen hx))
        dsimp only
        rw [h.isAbstract hx, h.isPatternVariable hx, hnew]
        split
        · exact ih (List.rel_append hseen (.cons hx .nil))
        · exact .refuse _
      | _ => exact .refuse _
    | _ => exact .refuse _

theorem abstracted_similar (h : Abreast fixed ρ s ctx s' ctx') {args args' : List Arg}
    (hargs : List.Forall₂ (Arg.Similar ρ) args args') {xs xs' : List Name}
    (hxs : List.Forall₂ ρ xs xs') {t t' : Term} (ht : t.Alike ρ t') :
    Eval.Rel (Term.Alike ρ) (abstracted n s ctx (args.zip xs) t)
      (abstracted n s' ctx' (args'.zip xs') t') := by
  induction hargs generalizing xs xs' with
  | nil =>
    rw [List.zip_nil_left, List.zip_nil_left]
    exact .pure ht
  | @cons a a' args args' ha _ ih =>
    cases hxs with
    | nil =>
      rw [List.zip_nil_right, List.zip_nil_right]
      exact .pure ht
    | @cons x x' xs xs' hx hxs =>
      rw [List.zip_cons_cons, List.zip_cons_cons]
      unfold abstracted
      refine .bind (ih hxs) fun u u' hu => .bind (h.reify ha.type) fun d d' hd => .pure ?_
      rw [ha.plicity]
      exact .fn hd (hu.mono fun y _ y' _ hy => h.le_under hx y y' hy)

theorem checkScope_similar (h : Abreast fixed ρ s ctx s' ctx') {head head' : Name}
    (hhead : ρ head head') {xs xs' scope : List Name} (hxs : List.Forall₂ ρ xs xs')
    (hscope : ∀ y ∈ scope, fixed y) {t t' : Term} (ht : t.Alike ρ t')
    (hcheck : (checkScope s head xs scope (s.listing.arrange t.freeNames)).Yields ()) :
    (checkScope s' head' xs' scope (s'.listing.arrange t'.freeNames)).Yields () := by
  simp only [checkScope_iff, Listing.mem_arrange] at hcheck ⊢
  intro y' hy'
  obtain ⟨y, hy, hyy'⟩ := ht.symm.exists_free hy'
  have hρ : ρ y y' := hyy'
  obtain ⟨hne, hin⟩ := hcheck y hy
  refine ⟨fun heq => hne ((h.eq_iff hhead hρ).2 heq), ?_⟩
  rcases hin with hin | hin | hin
  · exact .inl ((h.mem_iff hxs hρ).1 hin)
  · have hsame := h.unchanged y y' hρ (hscope y hin)
    exact .inr (.inl (hsame ▸ hin))
  · rw [h.isPatternVariable hρ] at hin
    exact .inr (.inr hin)

/-- If one side solves a pattern variable, so does the other. -/
theorem solve_similar (h : Abreast fixed ρ s ctx s' ctx') {p p' : PatternSpine}
    (hp : p.Similar ρ p') {v v' : Value} (hv : v.Similar ρ v') {s₁ : Solution}
    (hsolve : (p.solve n s ctx v).Yields s₁) :
    ∃ s₁', (p'.solve n s' ctx' v').Yields s₁' ∧ Abreast fixed ρ s₁ ctx s₁' ctx' := by
  unfold solve at hsolve
  simp only [Verdict.yields_bind, Verdict.yields_lift] at hsolve
  obtain ⟨xs, hxs, t, ht, hsolve⟩ := hsolve
  split at hsolve
  · next a scope hfind =>
    simp only [Verdict.yields_bind, Verdict.yields_lift, Verdict.yields_pure] at hsolve
    obtain ⟨_, hcheck, u, hu, w, hw, rfl⟩ := hsolve
    obtain ⟨xs', hxs', hxsxs'⟩ := parameters_similar h .nil hp.args xs hxs
    obtain ⟨t', ht', htt'⟩ := h.reify hv t ht
    obtain ⟨u', hu', huu'⟩ := abstracted_similar h hp.args hxsxs' htt' u hu
    obtain ⟨w', hw', hww'⟩ := h.eval huu' w hw
    obtain ⟨_, hfind', hpattern⟩ := rel_some (h.find p.head p'.head hp.head) hfind
    cases hpattern with
    | @unsolved _ a' _ scope' _ =>
      obtain ⟨rfl, hscope⟩ := h.scope p.head p'.head a a' scope scope' hp.head hfind hfind'
      have hcheck' := checkScope_similar h hp.head hxsxs' hscope htt' hcheck
      refine ⟨s'.bind p'.head w', ?_, h.bind hp.head hww'⟩
      unfold solve
      simp only [Verdict.yields_bind, Verdict.yields_lift, hfind', Verdict.yields_pure]
      exact ⟨xs', hxs', t', ht', (), hcheck', u', hu', w', hw', rfl⟩
  · simp at hsolve

/-- Arguments with the same normal forms stay so if the sides are exchanged. -/
theorem sameArgs_turned (h : Abreast fixed ρ s ctx s' ctx') {as bs as' bs' : List Arg}
    (has : List.Forall₂ (Arg.Similar ρ) as as') (hbs : List.Forall₂ (Arg.Similar ρ) bs bs')
    (hsame : sameArgs n s ctx as bs = .ok true) : sameArgs n s' ctx' bs' as' = .ok true := by
  induction has generalizing bs bs' with
  | nil =>
    cases hbs with
    | nil => rfl
    | cons => simp [sameArgs] at hsame
  | cons ha _ ih =>
    cases hbs with
    | nil => simp [sameArgs] at hsame
    | cons hb hbs =>
      unfold sameArgs at hsame ⊢
      split at hsame
      · next hplicity =>
        simp only [Eval.bind_eq_ok] at hsame
        obtain ⟨t, ht, u, hu, hsame⟩ := hsame
        split at hsame
        · next halpha =>
          obtain ⟨t', ht', htt'⟩ := h.reify ha.value t ht
          obtain ⟨u', hu', huu'⟩ := h.reify hb.value u hu
          have halpha' := Term.alphaEquivalent_of_alike h.functional htt' huu' halpha
          rw [if_pos (by rw [← ha.plicity, ← hb.plicity, hplicity])]
          simp only [Eval.bind_eq_ok]
          refine ⟨u', hu', t', ht', ?_⟩
          rw [if_pos (Term.alphaEquivalent_symm halpha')]
          exact ih hbs hsame
        · simp at hsame
      · simp at hsame

theorem same_turned (h : Abreast fixed ρ s ctx s' ctx') {p p' q q' : PatternSpine}
    (hp : p.Similar ρ p') (hq : q.Similar ρ q') (hsame : p.same n s ctx q = .ok true) :
    q'.same n s' ctx' p' = .ok true := by
  unfold same at hsame ⊢
  split at hsame
  · next hheads =>
    have hhead : q'.head = p'.head := ((h.eq_iff hp.head hq.head).1 hheads.1.symm)
    have hlength : q'.args.length = p'.args.length := by
      rw [← hq.args.length_eq, ← hp.args.length_eq, hheads.2]
    rw [if_pos ⟨hhead, hlength⟩]
    exact sameArgs_turned h hp.args hq.args hsame
  · simp at hsame

end PatternSpine

end

end DependentClasses
