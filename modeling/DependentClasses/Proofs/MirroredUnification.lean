import DependentClasses.Proofs.Mirroring

/-! Unification side by side. Nothing that the values mention waits for a solution, so that
unification only compares. -/
namespace DependentClasses

open Solver (Mirrored)

section

variable {ρ : Renaming} {s s' : Solution} {ctx ctx' : Context} {n : Nat}

theorem Neutral.head_similar : {e e' : Neutral} → e.Similar ρ e' → ρ e.head e'.head
  | .var _, _, .var hx => hx
  | .app _ e _ _, _, .app he _ _ | .car e, _, .car he | .cdr e, _, .cdr he
  | .dot e _, _, .dot he => by
    have hhead := head_similar (e := e) he
    exact hhead

theorem Paired.isPatternHeaded (h : Paired ρ s ctx s' ctx') {v v' : Value} (hv : v.Similar ρ v') :
    s.isPatternHeaded v = false := by
  cases hv with
  | neutral _ he => exact h.settled _ _ (Neutral.head_similar he)
  | _ => rfl

theorem Neutral.isUnsolved_of_patternSpine :
    {e : Neutral} → {p : PatternSpine} → e.patternSpine s = some p →
    s.isUnsolved e.head
  | .var x, p, h => by
    unfold patternSpine at h
    split at h
    · assumption
    · cases h
  | .app _ f _ _, p, h => by
    unfold patternSpine at h
    obtain ⟨q, hq, -⟩ := Option.map_eq_some_iff.1 h
    exact isUnsolved_of_patternSpine (e := f) hq

theorem Value.patternSpine_eq_none {v : Value} (h : s.isPatternHeaded v = false) :
    v.patternSpine s = none := by
  cases v with
  | neutral a spine =>
    refine Option.eq_none_iff_forall_ne_some.2 fun p hp => ?_
    have hunsolved := Neutral.isUnsolved_of_patternSpine hp
    simp [Solution.isPatternHeaded, hunsolved] at h
  | _ => rfl

/-- Nothing is there that a pattern variable could be solved for. -/
theorem Paired.patternSpine (h : Paired ρ s ctx s' ctx') {v v' : Value} (hv : v.Similar ρ v') :
    v.patternSpine s = none ∧ v'.patternSpine s' = none :=
  ⟨Value.patternSpine_eq_none (h.isPatternHeaded hv),
    Value.patternSpine_eq_none (h.symm.isPatternHeaded hv.symm)⟩

theorem Value.resultType_similar {a a' v v' : Value} (ha : a.Similar ρ a') (hv : v.Similar ρ v') :
    Eval.Rel (Value.Similar ρ) (a.resultType n v) (a'.resultType n v') := by
  cases ha with
  | pi _ hb => exact (ComputesSimilarly.all ρ n).apply hb hv
  | _ => exact .pure .type

structure UnifyMirrors (n : Nat) : Prop where
  value {ρ : Renaming} {s s' : Solution} {ctx ctx' : Context} {a a' l l' r r' : Value} :
    Paired ρ s ctx s' ctx' → a.Similar ρ a' → l.Similar ρ l' → r.Similar ρ r' →
    Mirrored ctx ctx' (fun _ _ => True) (unify n ctx a l r) (unify n ctx' a' l' r') s s'
  forms {ρ : Renaming} {s s' : Solution} {ctx ctx' : Context} {a a' l l' r r' : Value} :
    Paired ρ s ctx s' ctx' → a.Similar ρ a' → l.Similar ρ l' → r.Similar ρ r' →
    Mirrored ctx ctx' (fun _ _ => True) (unifyForms n ctx a l r) (unifyForms n ctx' a' l' r') s s'
  binders {ρ : Renaming} {s s' : Solution} {ctx ctx' : Context} {a a' b b' : Value}
    {c c' d d' : Closure} :
    Paired ρ s ctx s' ctx' → a.Similar ρ a' → b.Similar ρ b' → c.Similar ρ c' → d.Similar ρ d' →
    Mirrored ctx ctx' (fun _ _ => True) (unifyBinders n ctx a b c d)
      (unifyBinders n ctx' a' b' c' d') s s'
  spines {ρ : Renaming} {s s' : Solution} {ctx ctx' : Context} {l l' r r' : Neutral} :
    Paired ρ s ctx s' ctx' → l.Similar ρ l' → r.Similar ρ r' →
    Mirrored ctx ctx' Eq (unifyNeutrals n ctx l r) (unifyNeutrals n ctx' l' r') s s'
  chains {ρ : Renaming} {s s' : Solution} {ctx ctx' : Context} {c c' d d' : Chain} :
    Paired ρ s ctx s' ctx' → c.Similar ρ c' → d.Similar ρ d' →
    Mirrored ctx ctx' Eq (unifyChains n ctx c d) (unifyChains n ctx' c' d') s s'

theorem isFunction_mirrored (h : Paired ρ s ctx s' ctx') {a a' : Value} (ha : a.Similar ρ a') :
    Mirrored ctx ctx' Eq (Solver.isFunction n a) (Solver.isFunction n a') s s' := by
  refine .force h ha fun b b' _ hb => ?_
  cases hb with
  | @pi p _ _ _ _ _ _ => cases p <;> exact .pure rfl
  | _ => exact .pure rfl

namespace UnifyMirrors

theorem value_succ (ih : UnifyMirrors n) (h : Paired ρ s ctx s' ctx') {a a' l l' r r' : Value}
    (ha : a.Similar ρ a') (hl : l.Similar ρ l') (hr : r.Similar ρ r') :
    Mirrored ctx ctx' (fun _ _ => True) (unify (n + 1) ctx a l r)
      (unify (n + 1) ctx' a' l' r') s s' := by
  unfold unify
  refine .force h ha fun a a' _ ha => .force h hl fun l l' _ hl =>
    .force h hr fun r r' _ hr => .get ?_
  rw [(h.patternSpine hl).1, (h.patternSpine hl).2, (h.patternSpine hr).1, (h.patternSpine hr).2]
  exact ih.forms h ha hl hr

theorem binders_succ (ih : UnifyMirrors n) (h : Paired ρ s ctx s' ctx') {a a' b b' : Value}
    {c c' d d' : Closure} (ha : a.Similar ρ a') (hb : b.Similar ρ b') (hc : c.Similar ρ c')
    (hd : d.Similar ρ d') :
    Mirrored ctx ctx' (fun _ _ => True) (unifyBinders (n + 1) ctx a b c d)
      (unifyBinders (n + 1) ctx' a' b' c' d') s s' := by
  unfold unifyBinders
  refine .bind h (ih.value h .type ha hb) fun _ _ s s' _ _ h => ?_
  refine .witness h ha fun ρ' hle hinner hv => ?_
  refine .after ((ComputesSimilarly.all ρ' n).apply (hc.mono hle) hv) fun c c' _ hc => ?_
  exact .after ((ComputesSimilarly.all ρ' n).apply (hd.mono hle) hv) fun d d' _ hd =>
    ih.value hinner .type hc hd

theorem spines_succ (ih : UnifyMirrors n) (h : Paired ρ s ctx s' ctx') {l l' r r' : Neutral}
    (hl : l.Similar ρ l') (hr : r.Similar ρ r') :
    Mirrored ctx ctx' Eq (unifyNeutrals (n + 1) ctx l r)
      (unifyNeutrals (n + 1) ctx' l' r') s s' := by
  unfold unifyNeutrals
  cases hl with
  | @var x x' hx =>
    cases hr with
    | @var y y' hy =>
      refine .pure (decide_eq_decide.2 ⟨fun heq => ?_, fun heq => ?_⟩)
      · exact h.functional x x' y' hx (heq ▸ hy)
      · exact h.injective x y x' hx (heq ▸ hy)
    | _ => exact .pure rfl
  | app hf ha hx =>
    cases hr with
    | app hg _ hy =>
      dsimp only
      split
      · refine .bind h (ih.spines h hf hg) fun b _ s s' _ hb h => ?_
        subst hb
        split
        · exact .bind h (ih.value h ha hx hy) fun _ _ _ _ _ _ _ => .pure rfl
        · exact .pure rfl
      · exact .pure rfl
    | _ => exact .pure rfl
  | car hp =>
    cases hr with
    | car hq => exact ih.spines h hp hq
    | _ => exact .pure rfl
  | cdr hp =>
    cases hr with
    | cdr hq => exact ih.spines h hp hq
    | _ => exact .pure rfl
  | dot hp =>
    cases hr with
    | dot hq =>
      dsimp only
      split
      · exact ih.spines h hp hq
      · exact .pure rfl
    | _ => exact .pure rfl

theorem chains_succ (ih : UnifyMirrors n) (h : Paired ρ s ctx s' ctx') {c c' d d' : Chain}
    (hc : c.Similar ρ c') (hd : d.Similar ρ d') :
    Mirrored ctx ctx' Eq (unifyChains (n + 1) ctx c d) (unifyChains (n + 1) ctx' c' d') s s' := by
  unfold unifyChains
  cases hc with
  | nil =>
    cases hd with
    | nil | declared | fulfilled => exact .pure rfl
  | declared ha hc =>
    cases hd with
    | declared hb hd =>
      dsimp only
      split
      · refine .bind h (ih.value h .type ha hb) fun _ _ s s' _ _ h => ?_
        refine .witness h ha fun ρ' hle hinner hv => ?_
        refine .after (Closure.applyChain_similar (hc.mono hle) hv) fun c c' _ hc => ?_
        exact .after (Closure.applyChain_similar (hd.mono hle) hv) fun d d' _ hd =>
          ih.chains hinner hc hd
      · exact .pure rfl
    | nil | fulfilled => exact .pure rfl
  | fulfilled ha hv hc =>
    cases hd with
    | fulfilled hb hw hd =>
      dsimp only
      split
      · refine .bind h (ih.value h .type ha hb) fun _ _ s s' _ _ h => ?_
        exact .bind h (ih.value h ha hv hw) fun _ _ s s' _ _ h => ih.chains h hc hd
      · exact .pure rfl
    | nil | declared => exact .pure rfl

/-- The bodies of two functions, at a new argument. -/
theorem functions (ih : UnifyMirrors n) (h : Paired ρ s ctx s' ctx') {a a' c c' : Value}
    (ha : a.Similar ρ a') (hc : c.Similar ρ c') (x x' : Name) {f g f' g' : Value → Eval Value}
    (hf : ∀ {ρ' : Renaming} {v v' : Value}, (∀ y y', ρ y y' → ρ' y y') → v.Similar ρ' v' →
      Eval.Rel (Value.Similar ρ') (f v) (f' v'))
    (hg : ∀ {ρ' : Renaming} {v v' : Value}, (∀ y y', ρ y y' → ρ' y y') → v.Similar ρ' v' →
      Eval.Rel (Value.Similar ρ') (g v) (g' v')) :
    Mirrored ctx ctx' (fun _ _ => True)
      (do
        let (ctx, v) ← Solver.witness ctx x c
        let b ← a.resultType n v
        let f ← f v
        let g ← g v
        unify n ctx b f g)
      (do
        let (ctx, v) ← Solver.witness ctx' x' c'
        let b ← a'.resultType n v
        let f ← f' v
        let g ← g' v
        unify n ctx b f g) s s' := by
  refine .witness h hc fun ρ' hle hinner hv => ?_
  refine .after (Value.resultType_similar (ha.mono hle) hv) fun b b' _ hb => ?_
  exact .after (hf hle hv) fun f f' _ hf => .after (hg hle hv) fun g g' _ hg =>
    ih.value hinner hb hf hg

/-- A field of two objects. Its type is asked of the class, if there is one that has it. -/
theorem field (ih : UnifyMirrors n) (h : Paired ρ s ctx s' ctx')
    {a a' l l' r r' x x' y y' : Value} {k : Name} (ha : a.Similar ρ a') (hl : l.Similar ρ l')
    (hx : x.Similar ρ x') (hy : y.Similar ρ y') :
    Mirrored ctx ctx' (fun _ _ => True)
      (do
        let b : Option Value ← match a with
          | .classOf c => (c.typeOf n l k : Eval (Option Value))
          | _ => pure none
        match b with
        | some b => unify n ctx b x y
        | none => do
          let t ← Solver.reify n ctx x
          let u ← Solver.reify n ctx y
          if t.alphaEquivalent u then pure () else Solver.cannotUnify n ctx l r)
      (do
        let b : Option Value ← match a' with
          | .classOf c => (c.typeOf n l' k : Eval (Option Value))
          | _ => pure none
        match b with
        | some b => unify n ctx' b x' y'
        | none => do
          let t ← Solver.reify n ctx' x'
          let u ← Solver.reify n ctx' y'
          if t.alphaEquivalent u then pure () else Solver.cannotUnify n ctx' l' r') s s' := by
  have hcompare (b b' : Option Value) (hb : Option.Rel (Value.Similar ρ) b b') : Mirrored ctx ctx'
      (fun _ _ => True)
      (match b with
        | some b => unify n ctx b x y
        | none => do
          let t ← Solver.reify n ctx x
          let u ← Solver.reify n ctx y
          if t.alphaEquivalent u then pure () else Solver.cannotUnify n ctx l r)
      (match b' with
        | some b => unify n ctx' b x' y'
        | none => do
          let t ← Solver.reify n ctx' x'
          let u ← Solver.reify n ctx' y'
          if t.alphaEquivalent u then pure () else Solver.cannotUnify n ctx' l' r') s s' := by
    cases hb with
    | some hb => exact ih.value h hb hx hy
    | none =>
      refine .reify h hx fun t t' _ ht => .reify h hy fun u u' _ hu => ?_
      split
      · next htu =>
        rw [if_pos (h.alphaEquivalent ht hu htu)]
        exact .pure trivial
      · exact .cannotUnify
  cases ha with
  | classOf hc => exact .after (Chain.typeOf_similar hc hl) fun b b' _ => hcompare b b'
  | _ => simpa only [pure_bind] using hcompare none none .none

theorem forms_succ (ih : UnifyMirrors n) (h : Paired ρ s ctx s' ctx') {a a' l l' r r' : Value}
    (ha : a.Similar ρ a') (hl : l.Similar ρ l') (hr : r.Similar ρ r') :
    Mirrored ctx ctx' (fun _ _ => True) (unifyForms (n + 1) ctx a l r)
      (unifyForms (n + 1) ctx' a' l' r') s s' := by
  have hl₀ := hl
  have hr₀ := hr
  unfold unifyForms
  cases hl with
  | type =>
    cases hr with
    | type => exact .pure trivial
    | _ => exact .cannotUnify
  | string =>
    cases hr with
    | string => exact .pure trivial
    | _ => exact .cannotUnify
  | trivial =>
    cases hr with
    | trivial => exact .pure trivial
    | _ => exact .cannotUnify
  | sole =>
    cases hr with
    | sole => exact .pure trivial
    | _ => exact .cannotUnify
  | quote t =>
    cases hr with
    | quote u =>
      dsimp only
      split
      · exact .pure trivial
      · exact .cannotUnify
    | _ => exact .cannotUnify
  | pi hc hd =>
    cases hr with
    | pi hc' hd' =>
      dsimp only
      split
      · exact ih.binders h hc hc' hd hd'
      · exact .cannotUnify
    | _ => exact .cannotUnify
  | sigma hc hd =>
    cases hr with
    | sigma hc' hd' => exact ih.binders h hc hc' hd hd'
    | _ => exact .cannotUnify
  | @fn p _ _ _ _ hc hf =>
    cases hr with
    | fn _ hg =>
      dsimp only
      split
      · exact ih.functions h ha hc
          _ _ (fun hle hv => (ComputesSimilarly.all _ n).apply (hf.mono hle) hv)
          fun hle hv => (ComputesSimilarly.all _ n).apply (hg.mono hle) hv
      · exact .cannotUnify
    | neutral hd _ =>
      cases p with
      | implicit => exact .cannotUnify
      | explicit =>
        refine .bind h (isFunction_mirrored h hd) fun b _ s s' _ hb h => ?_
        subst hb
        split
        · exact ih.functions h ha hc
            _ _ (fun hle hv => (ComputesSimilarly.all _ n).apply (hf.mono hle) hv)
            fun hle hv => (ComputesSimilarly.all _ n).app (hr₀.mono hle) hv
        · exact .cannotUnify
    | _ => cases p <;> exact .cannotUnify
  | neutral hd hp =>
    cases hr with
    | neutral _ hq =>
      refine .bind h (ih.spines h hp hq) fun b _ s s' _ hb h => ?_
      subst hb
      split
      · exact .pure trivial
      · exact .cannotUnify
    | @fn q _ _ _ _ hc hg =>
      cases q with
      | implicit => exact .cannotUnify
      | explicit =>
        refine .bind h (isFunction_mirrored h hd) fun b _ s s' _ hb h => ?_
        subst hb
        split
        · exact ih.functions h ha hc
            _ _ (fun hle hv => (ComputesSimilarly.all _ n).app (hl₀.mono hle) hv)
            fun hle hv => (ComputesSimilarly.all _ n).apply (hg.mono hle) hv
        · exact .cannotUnify
    | _ => exact .cannotUnify
  | cons hx hy =>
    cases hr with
    | cons hx' hy' =>
      cases ha with
      | sigma hc hd =>
        refine .bind h (ih.value h hc hx hx') fun _ _ s s' _ _ h => ?_
        exact .after ((ComputesSimilarly.all ρ n).apply hd hx) fun d d' _ hd => ih.value h hd hy hy'
      | _ => exact .cannotUnify
    | _ => exact .cannotUnify
  | equal hc hx hy =>
    cases hr with
    | equal hc' hx' hy' =>
      refine .bind h (ih.value h .type hc hc') fun _ _ s s' _ _ h => ?_
      exact .bind h (ih.value h hc hx hx') fun _ _ s s' _ _ h => ih.value h hc hy hy'
    | _ => exact .cannotUnify
  | same hx =>
    cases hr with
    | same hy =>
      cases ha with
      | equal hc _ _ => exact ih.value h hc hx hy
      | _ => exact .cannotUnify
    | _ => exact .cannotUnify
  | classOf hc =>
    cases hr with
    | classOf hd =>
      refine .bind h (ih.chains h hc hd) fun b _ s s' _ hb h => ?_
      subst hb
      split
      · exact .pure trivial
      · exact .cannotUnify
    | _ => exact .cannotUnify
  | @object fs fs' hlabels hfields =>
    cases hr with
    | @object gs gs' hlabels' hfields' =>
      have hfs : FieldsAlike (Value.Similar ρ) fs fs' := fieldsAlike_iff.2 ⟨hlabels, hfields⟩
      have hgs : FieldsAlike (Value.Similar ρ) gs gs' := fieldsAlike_iff.2 ⟨hlabels', hfields'⟩
      dsimp only
      split
      · next hlength =>
        rw [if_pos (by rw [← hfs.length_eq, ← hgs.length_eq, hlength])]
        refine .forM hfs (fun f f' hf s s' h => ?_) s s' h
        obtain ⟨k, x⟩ := f
        obtain ⟨_, x'⟩ := f'
        obtain ⟨rfl, hx⟩ := hf
        have hrel := hgs.lookup k
        dsimp only
        generalize gs.lookup k = o at hrel ⊢
        generalize gs'.lookup k = o' at hrel ⊢
        cases hrel with
        | none => exact .cannotUnify
        | some hy => exact ih.field h ha hl₀ hx hy
      · exact .cannotUnify
    | _ => exact .cannotUnify

theorem all (n : Nat) : UnifyMirrors n := by
  induction n with
  | zero => constructor <;> intros <;> exact .outOfFuel
  | succ n ih =>
    exact ⟨fun h => ih.value_succ h, fun h => ih.forms_succ h, fun h => ih.binders_succ h,
      fun h => ih.spines_succ h, fun h => ih.chains_succ h⟩

end UnifyMirrors

end

end DependentClasses
