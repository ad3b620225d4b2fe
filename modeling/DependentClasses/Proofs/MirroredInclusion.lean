import DependentClasses.Proofs.MirroredProperties

/-! Inclusion side by side. A success of inclusion on one side is mirrored by a success on the
other, whatever the names that stand for the properties of classes on the way. -/
namespace DependentClasses

open Solver (Mirrored)

theorem includeEqual_mirrored {ρ : Renaming} {s s' : Solution} {ctx ctx' : Context} {n : Nat}
    (h : Paired ρ s ctx s' ctx') {l l' r r' : Value} (hl : l.Similar ρ l') (hr : r.Similar ρ r') :
    Mirrored ctx ctx' (fun _ _ => True) (includeEqual n ctx l r)
      (includeEqual n ctx' l' r') s s' := by
  refine .reify h hl fun t t' _ ht => .reify h hr fun u u' _ hu => ?_
  split
  · next htu =>
    rw [if_pos (h.alphaEquivalent ht hu htu)]
    exact .pure trivial
  · refine .of_not_yields fun a s₁ ha => ?_
    simp [h.unsolvedIn ht, h.unsolvedIn hu] at ha

structure IncludeMirrors (n : Nat) : Prop where
  inclusion {ρ : Renaming} {s s' : Solution} {ctx ctx' : Context} {l l' r r' : Value} :
    Paired ρ s ctx s' ctx' →
    s.Sound False → ctx.WellFormed False → l.WellFormed False → r.WellFormed False →
      l.Similar ρ l' → r.Similar ρ r' →
    Mirrored ctx ctx' (fun _ _ => True) (inclusion n ctx l r) (inclusion n ctx' l' r') s s'
  forms {ρ : Renaming} {s s' : Solution} {ctx ctx' : Context} {l l' r r' : Value} :
    Paired ρ s ctx s' ctx' →
    s.Sound False → ctx.WellFormed False → l.WellFormed False → r.WellFormed False →
      l.Similar ρ l' → r.Similar ρ r' →
    Mirrored ctx ctx' (fun _ _ => True) (includeForms n ctx l r) (includeForms n ctx' l' r') s s'
  unordered {ρ : Renaming} {s s' : Solution} {ctx ctx' : Context} {c c' d d' : Chain} :
    Paired ρ s ctx s' ctx' →
    s.Sound False → ctx.WellFormed False → c.WellFormed False → d.WellFormed False →
      c.Similar ρ c' → d.Similar ρ d' →
    Mirrored ctx ctx' (fun _ _ => True) (includeUnordered n ctx c d)
      (includeUnordered n ctx' c' d') s s'
  /-- The value of the property knows nothing of the image of its label; the type that is asked for
  may. -/
  property {ρ σ : Renaming} {s s' s₁ : Solution} {ctx ctx' : Context}
      {images images' : List (Name × Name)} {label x x' : Name}
      {p p' q q' : Property} {u : Unit} : (includeProperty n ctx images label p q).Yields s u s₁ →
    Paired ρ s ctx s' ctx' → Paired σ s ctx s' ctx' → (∀ y y', ρ y y' → σ y y') →
    s.Sound False → ctx.WellFormed False → p.WellFormed False → q.WellFormed False →
      p.Similar ρ p' → q.Similar σ q' →
    images.lookup label = some x → images'.lookup label = some x' → σ x x' →
    (p.value ≠ none → (∀ y', ¬ ρ x y') ∧ ∀ y, ¬ ρ y x') →
    ∃ s₁', (includeProperty n ctx' images' label p' q').Yields s' () s₁' ∧
      Paired ρ s₁ ctx s₁' ctx' ∧
      Paired σ s₁ ctx s₁' ctx' ∧ (∀ used ⊆ s.usedNames ctx, x ∉ used → s.Beyond used s₁) ∧
      ∀ used ⊆ s'.usedNames ctx', x' ∉ used → s'.Beyond used s₁'
  ordered {ρ : Renaming} {s s' : Solution} {ctx ctx' : Context} {c c' d d' : Chain} :
    Paired ρ s ctx s' ctx' →
    s.Sound False → ctx.WellFormed False → c.WellFormed False → d.WellFormed False →
      c.Similar ρ c' → d.Similar ρ d' →
    Mirrored ctx ctx' (fun _ _ => True) (includeOrdered n ctx c d)
      (includeOrdered n ctx' c' d') s s'
  inStep {ρ : Renaming} {s s' : Solution} {ctx ctx' : Context} {c c' d d' : Chain} :
    Paired ρ s ctx s' ctx' →
    s.Sound False → ctx.WellFormed False → c.WellFormed False → d.WellFormed False →
      c.Similar ρ c' → d.Similar ρ d' →
    Mirrored ctx ctx' (fun _ _ => True) (includeInStep n ctx c d) (includeInStep n ctx' c' d') s s'

namespace IncludeMirrors

variable {ρ : Renaming} {s s' : Solution} {ctx ctx' : Context} {n : Nat}

theorem inclusion_succ (ih : IncludeMirrors n) (h : Paired ρ s ctx s' ctx') (hs : s.Sound False)
    (hctx : ctx.WellFormed False) {l l' r r' : Value} (hl : l.WellFormed False)
    (hr : r.WellFormed False) (hll' : l.Similar ρ l') (hrr' : r.Similar ρ r') :
    Mirrored ctx ctx' (fun _ _ => True) (DependentClasses.inclusion (n + 1) ctx l r)
      (DependentClasses.inclusion (n + 1) ctx' l' r') s s' := by
  unfold DependentClasses.inclusion
  refine .force h hll' fun l₁ l₁' hl₁ hll₁ => .force h hrr' fun r₁ r₁' hr₁ hrr₁ => ?_
  exact .tryCatch (ih.forms h hs hctx (hs.wellFormed.force hl₁ hl) (hs.wellFormed.force hr₁ hr) hll₁
    hrr₁) (by simp) (by simp)

/-- A domain is included, and then a codomain at a parameter of one of the domains. -/
theorem binders (ih : IncludeMirrors n) (h : Paired ρ s ctx s' ctx') (hs : s.Sound False)
    (hctx : ctx.WellFormed False) {l l' r r' a a' : Value} {b b' d d' : Closure}
    (hl : l.WellFormed False) (hr : r.WellFormed False) (ha : a.WellFormed False)
    (hb : b.WellFormed False) (hd : d.WellFormed False) (hll' : l.Similar ρ l')
    (hrr' : r.Similar ρ r') (haa' : a.Similar ρ a') (hbb' : b.Similar ρ b')
    (hdd' : d.Similar ρ d') :
    Mirrored ctx ctx' (fun _ _ => True)
      (do
        DependentClasses.inclusion n ctx l r
        let (ctx, v) ← Solver.witness ctx b.x a
        let b ← b.apply n v
        let d ← d.apply n v
        DependentClasses.inclusion n ctx b d)
      (do
        DependentClasses.inclusion n ctx' l' r'
        let (ctx, v) ← Solver.witness ctx' b'.x a'
        let b ← b'.apply n v
        let d ← d'.apply n v
        DependentClasses.inclusion n ctx b d) s s' := by
  refine .bind h (ih.inclusion h hs hctx hl hr hll' hrr') fun _ _ s₁ s₁' hyields _ h₁ => ?_
  have hs₁ := ((IncludesByGrowth.all n).inclusion hyields hs hctx hl hr).sound
  obtain ⟨hinner, hv⟩ := hctx.witness (s := s₁) ha b.x
  refine .witness h₁ haa' fun ρ' hle hp hvv' => ?_
  refine .after ((ComputesSimilarly.all ρ' n).apply (hbb'.mono hle) hvv') fun b₁ b₁' hb₁ hbb₁ => ?_
  refine .after ((ComputesSimilarly.all ρ' n).apply (hdd'.mono hle) hvv') fun d₁ d₁' hd₁ hdd₁ => ?_
  exact ih.inclusion hp hs₁ hinner (Closure.apply_all hb₁ hb hv)
    (Closure.apply_all hd₁ hd hv) hbb₁ hdd₁

theorem forms_succ (ih : IncludeMirrors n) (h : Paired ρ s ctx s' ctx') (hs : s.Sound False)
    (hctx : ctx.WellFormed False) {l l' r r' : Value} (hl : l.WellFormed False)
    (hr : r.WellFormed False) (hll' : l.Similar ρ l') (hrr' : r.Similar ρ r') :
    Mirrored ctx ctx' (fun _ _ => True) (includeForms (n + 1) ctx l r)
      (includeForms (n + 1) ctx' l' r') s s' := by
  have hequal := includeEqual_mirrored (n := n) h hll' hrr'
  unfold includeForms
  refine .get ?_
  rw [h.isPatternHeaded hll', h.isPatternHeaded hrr', h.symm.isPatternHeaded hll'.symm,
    h.symm.isPatternHeaded hrr'.symm]
  simp only [Bool.or_self, Bool.false_eq_true, if_false]
  cases hll' with
  | pi ha hb =>
    cases hrr' with
    | pi hc hd =>
      obtain ⟨haWF, hbWF⟩ := Value.all_pi.1 hl
      obtain ⟨hcWF, hdWF⟩ := Value.all_pi.1 hr
      dsimp only
      split
      · exact ih.binders h hs hctx hcWF haWF haWF hbWF hdWF hc ha ha hb hd
      · exact hequal
    | _ => exact hequal
  | sigma ha hb =>
    cases hrr' with
    | sigma hc hd =>
      obtain ⟨haWF, hbWF⟩ := Value.all_sigma.1 hl
      obtain ⟨hcWF, hdWF⟩ := Value.all_sigma.1 hr
      exact ih.binders h hs hctx haWF hcWF haWF hbWF hdWF ha hc ha hb hd
    | _ => exact hequal
  | classOf hc =>
    cases hrr' with
    | classOf hd =>
      refine .after (Chain.isOrdered_similar hc hd) fun b _ _ hb => ?_
      subst hb
      split
      · exact ih.ordered h hs hctx (Value.all_classOf.1 hl) (Value.all_classOf.1 hr) hc hd
      · exact ih.unordered h hs hctx (Value.all_classOf.1 hl) (Value.all_classOf.1 hr) hc hd
    | _ => exact hequal
  | equal ha hx hy =>
    cases hrr' with
    | equal hb hx' hy' =>
      refine .bind h
        (ih.inclusion h hs hctx (Value.all_equal.1 hl).1 (Value.all_equal.1 hr).1 ha hb)
        fun _ _ s₁ s₁' _ _ h₁ => ?_
      refine .bind h₁ (.judging ((ConvertMirrors.all n).value h₁ hb hx hx'))
        fun _ _ s₂ s₂' _ _ h₂ => ?_
      exact .judging ((ConvertMirrors.all n).value h₂ hb hy hy')
    | _ => exact hequal
  | _ => exact hequal

theorem ordered_succ (ih : IncludeMirrors n) (h : Paired ρ s ctx s' ctx') (hs : s.Sound False)
    (hctx : ctx.WellFormed False) {c c' d d' : Chain} (hc : c.WellFormed False)
    (hd : d.WellFormed False) (hcc' : c.Similar ρ c') (hdd' : d.Similar ρ d') :
    Mirrored ctx ctx' (fun _ _ => True) (includeOrdered (n + 1) ctx c d)
      (includeOrdered (n + 1) ctx' c' d') s s' := by
  unfold includeOrdered includeIfCovered
  refine .after (Chain.labels_similar hcc') fun among _ _ hamong =>
    .after (Chain.labels_similar hdd') fun labels _ _ hlabels => ?_
  subst hamong hlabels
  dsimp only
  split
  · exact ih.inStep h hs hctx hc hd hcc' hdd'
  · exact .refuse _

theorem inStep_succ (ih : IncludeMirrors n) (h : Paired ρ s ctx s' ctx') (hs : s.Sound False)
    (hctx : ctx.WellFormed False) {c c' d d' : Chain} (hc : c.WellFormed False)
    (hd : d.WellFormed False) (hcc' : c.Similar ρ c') (hdd' : d.Similar ρ d') :
    Mirrored ctx ctx' (fun _ _ => True) (includeInStep (n + 1) ctx c d)
      (includeInStep (n + 1) ctx' c' d') s s' := by
  unfold includeInStep includeNext
  cases hdd' with
  | nil => exact .pure trivial
  | @declared label a a' rest rest' haa' hrest' =>
    obtain ⟨-, -, ha, hrest⟩ := Chain.all_declared.1 hd
    refine .reading _ _ (Chain.seek_similar h hcc' label) ?_
    rintro ⟨inner, found⟩ ⟨inner', found'⟩ hseek hfound
    obtain ⟨hinner, hfoundWF, -⟩ := Chain.seek_wellFormed hseek hctx hc
    obtain ⟨σ, hle, hp, hchain, hnames, hnames'⟩ := hfound
    refine .outward hnames hnames' ?_
    cases hchain with
    | nil => exact .refuse _
    | @declared k b b' below below' hbb' hbelow' =>
      obtain ⟨-, -, hb, hbelow⟩ := Chain.all_declared.1 hfoundWF
      have htypes := ih.inclusion hp hs hinner hb ha hbb' (haa'.mono hle)
      refine .bind hp (.within htypes _ _) fun _ _ s₁ s₁' hyields _ hp₁ => ?_
      have hs₁ := ((IncludesByGrowth.all n).inclusion (Solver.yields_within.1 hyields) hs
        hinner hb ha).sound
      obtain ⟨hbelowctx, hv⟩ := hinner.witness (s := s₁) hb below.x
      refine .witness hp₁ hbb' fun τ hle' hp₂ hvv' => ?_
      refine .after (Closure.applyChain_similar (hbelow'.mono hle') hvv') fun sub sub' hsub hsub' =>
        ?_
      refine .after (Closure.applyChain_similar ((hrest'.mono hle).mono hle') hvv')
        fun super super' hsuper hsuper' => ?_
      exact ih.inStep hp₂ hs₁ hbelowctx (Closure.applyChain_all hsub hbelow hv)
        (Closure.applyChain_all hsuper hrest hv) hsub' hsuper'
    | @fulfilled k b b' v v' sub sub' hbb' hvv' hsub' =>
      obtain ⟨-, hb, hv, hsub⟩ := Chain.all_fulfilled.1 hfoundWF
      have htypes := ih.inclusion hp hs hinner hb ha hbb' (haa'.mono hle)
      refine .bind hp (.within htypes _ _) fun _ _ s₁ s₁' hyields _ hp₁ => ?_
      have hs₁ := ((IncludesByGrowth.all n).inclusion (Solver.yields_within.1 hyields) hs
        hinner hb ha).sound
      refine .solvedAfresh hp₁ hbb' hvv' fun t t' hunify hp₂ => ?_
      have hcreate := Solution.GrowsTo.create_fresh hs₁ inner label hb inner.names
      have ht := (unify_growsTo hunify hcreate.sound hinner hb
        (Value.WellFormed.variable hb _) hv []).sound
      refine .after (Closure.applyChain_similar (hrest'.mono hle) hvv')
        fun super super' hsuper hsuper' => ?_
      exact ih.inStep hp₂ ht hinner hsub (Closure.applyChain_all hsuper hrest hv) hsub' hsuper'
  | @fulfilled label a a' w w' rest rest' haa' hww' hrest' =>
    obtain ⟨-, ha, hw, hrest⟩ := Chain.all_fulfilled.1 hd
    refine .reading _ _ (Chain.seek_similar h hcc' label) ?_
    rintro ⟨inner, found⟩ ⟨inner', found'⟩ hseek hfound
    obtain ⟨hinner, hfoundWF, -⟩ := Chain.seek_wellFormed hseek hctx hc
    obtain ⟨σ, hle, hp, hchain, hnames, hnames'⟩ := hfound
    refine .outward hnames hnames' ?_
    cases hchain with
    | nil => exact .refuse _
    | declared => exact .refuse _
    | @fulfilled k b b' v v' sub sub' hbb' hvv' hsub' =>
      obtain ⟨-, hb, hv, hsub⟩ := Chain.all_fulfilled.1 hfoundWF
      have hproperty : Mirrored inner inner' (fun _ _ => True)
          (do DependentClasses.inclusion n inner b a; unify n inner b w v)
          (do DependentClasses.inclusion n inner' b' a'; unify n inner' b' w' v') s s' :=
        .bind hp (ih.inclusion hp hs hinner hb ha hbb' (haa'.mono hle)) fun _ _ _ _ _ _ hp₁ =>
          (UnifyMirrors.all n).value hp₁ hbb' (hww'.mono hle) hvv'
      refine .bind hp (.within hproperty _ _) fun _ _ s₂ s₂' hyields _ hp₂ => ?_
      simp only [Solver.yields_within, Solver.yields_bind] at hyields
      obtain ⟨_, s₁, h₁, h₂⟩ := hyields
      have hs₁ := ((IncludesByGrowth.all n).inclusion h₁ hs hinner hb ha).sound
      have hs₂ := (unify_growsTo h₂ hs₁ hinner hb hw hv []).sound
      exact ih.inStep hp₂ hs₂ hinner hsub hrest hsub' (hrest'.mono hle)

theorem property_succ (ih : IncludeMirrors n) {σ : Renaming} {s₁ : Solution}
    {images images' : List (Name × Name)} {label x x' : Name} {p p' q q' : Property} {u : Unit}
    (hyields : (includeProperty (n + 1) ctx images label p q).Yields s u s₁)
    (hρ : Paired ρ s ctx s' ctx') (hσ : Paired σ s ctx s' ctx') (hle : ∀ y y', ρ y y' → σ y y')
    (hs : s.Sound False) (hctx : ctx.WellFormed False) (hp : p.WellFormed False)
    (hq : q.WellFormed False) (hpp' : p.Similar ρ p') (hqq' : q.Similar σ q')
    (hx : images.lookup label = some x) (hx' : images'.lookup label = some x') (hxx' : σ x x')
    (hnew : p.value ≠ none → (∀ y', ¬ ρ x y') ∧ ∀ y, ¬ ρ y x') :
    ∃ s₁', (includeProperty (n + 1) ctx' images' label p' q').Yields s' () s₁' ∧
      Paired ρ s₁ ctx s₁' ctx' ∧
      Paired σ s₁ ctx s₁' ctx' ∧ (∀ used ⊆ s.usedNames ctx, x ∉ used → s.Beyond used s₁) ∧
      ∀ used ⊆ s'.usedNames ctx', x' ∉ used → s'.Beyond used s₁' := by
  obtain ⟨b, v⟩ := p
  obtain ⟨b', v'⟩ := p'
  obtain ⟨a, w⟩ := q
  obtain ⟨a', w'⟩ := q'
  obtain ⟨hbb', hvv'⟩ := hpp'
  obtain ⟨haa', hww'⟩ := hqq'
  unfold includeProperty at hyields ⊢
  obtain ⟨_, s₂, htypes, hyields⟩ := Solver.yields_bind.1 hyields
  obtain ⟨_, s₂', htypes', -, hbeyond, hbeyond'⟩ :=
    ih.inclusion hσ hs hctx hp.1 hq.1 (hbb'.mono hle) haa' _ _ htypes
  have hρ₂ := hρ.beyond hbeyond hbeyond'
  have hσ₂ := hσ.beyond hbeyond hbeyond'
  cases hvv' with
  | none =>
    cases hww' with
    | none =>
      obtain ⟨-, rfl⟩ := Solver.yields_pure.1 hyields
      exact ⟨s₂', Solver.yields_bind.2 ⟨_, s₂', htypes', Solver.yields_pure.2 ⟨rfl, rfl⟩⟩, hρ₂, hσ₂,
        fun used hused _ => hbeyond.mono hused, fun used hused _ => hbeyond'.mono hused⟩
    | some => simp at hyields
  | some hvv' =>
    cases hww' with
    | some hww' =>
      obtain ⟨_, s₁', hunify', -, hmore, hmore'⟩ :=
        (UnifyMirrors.all n).value hσ₂ haa' hww' (hvv'.mono hle) _ _ hyields
      have hused : s.usedNames ctx ⊆ s₂.usedNames ctx :=
        Solution.usedNames_subset (fun _ => id) hbeyond.names
      have hused' : s'.usedNames ctx' ⊆ s₂'.usedNames ctx' :=
        Solution.usedNames_subset (fun _ => id) hbeyond'.names
      exact ⟨s₁', Solver.yields_bind.2 ⟨_, s₂', htypes', hunify'⟩, hρ₂.beyond hmore hmore',
        hσ₂.beyond hmore hmore',
        fun used h _ => (hbeyond.trans (hmore.mono hused)).mono h, fun used h _ =>
          (hbeyond'.trans (hmore'.mono hused')).mono h⟩
    | none =>
      obtain ⟨houtside, houtside'⟩ := hnew (by simp)
      simp only [Solver.yields_bind, Solver.yields_judging, Property.yields_image,
        Solver.yields_create] at hyields ⊢
      obtain ⟨_, _, ⟨hx₁, rfl⟩, _, _, ⟨rfl, rfl⟩, hunify⟩ := hyields
      cases hx.symm.trans hx₁
      obtain ⟨t, t', rfl, htt', hunify'⟩ := hρ₂.created houtside houtside' hbb' hvv' hunify
      refine ⟨_, ⟨_, s₂', htypes', x', s₂', ⟨hx', rfl⟩, _, _, ⟨rfl, rfl⟩, hunify'⟩,
        hρ₂.solve (.inr ⟨houtside, houtside'⟩) htt' _ _ _ _,
        hσ₂.solve (.inl hxx') (htt'.mono hle) _ _ _ _, ?_, ?_⟩
      · exact fun used hused hnot =>
          (hbeyond.mono hused).trans (Solution.beyond_solved _ hnot _ _ _)
      · exact fun used hused hnot =>
          (hbeyond'.mono hused).trans (Solution.beyond_solved _ hnot _ _ _)

/-- The properties of a class are gone through once. The images of the labels to come are kept
free. -/
theorem properties (ih : IncludeMirrors n) {σ : Renaming} {s₁ : Solution}
    {images images' : List (Name × Name)} {ps ps' qs qs' : List (Name × Property)}
    {used used' : List Name} (hle : ∀ y y', ρ y y' → σ y y') (hctx : ctx.WellFormed False)
    (hps : ∀ p ∈ ps, p.2.WellFormed False) (hpsps' : Property.AllSimilar ρ ps ps')
    (hqsqs' : Property.AllSimilar σ qs qs') (hqs : ∀ q ∈ qs, q.2.WellFormed False)
    (hlabels : (qs.map Prod.fst).Nodup) (himages : Name.Separate used images)
      (hnew : ∀ k p x x', ps.lookup k = some p → p.value ≠ none → images.lookup k = some x →
        images'.lookup k = some x' →
      (∀ y', ¬ ρ x y') ∧ ∀ y, ¬ ρ y x')
    (himage : ∀ k ∈ qs.map Prod.fst, ∃ x x', images.lookup k = some x ∧ images'.lookup k = some x' ∧
      σ x x' ∧ x ∉ used ∧
      x' ∉ used')
    (hρ : Paired ρ s ctx s' ctx') (hσ : Paired σ s ctx s' ctx') (hs : s.Sound False)
    (hused : used ⊆ s.usedNames ctx) (hused' : used' ⊆ s'.usedNames ctx')
    (hfree : ∀ k ∈ qs.map Prod.fst, ∀ x, images.lookup k = some x → x ∈ s.names ∧ s.find x = none)
    {u : PUnit} (h : Solver.Yields (qs.forM fun (label, q) =>
      match ps.lookup label with
      | none => refuse (.missingProperty label)
      | some p =>
        Solver.within (.property label) (includeProperty n ctx images label p q)) s u s₁) :
    ∃ s₁', Solver.Yields (qs'.forM fun (label, q) =>
      match ps'.lookup label with
      | none => refuse (.missingProperty label)
      | some p =>
        Solver.within (.property label) (includeProperty n ctx' images' label p q)) s' () s₁' ∧
      s.Beyond used s₁ ∧ s'.Beyond used' s₁' := by
  induction hqsqs' generalizing s s' with
  | nil =>
    obtain ⟨-, rfl⟩ := Solver.yields_pure.1 h
    exact ⟨s', Solver.yields_pure.2 ⟨rfl, rfl⟩, .refl _ _, .refl _ _⟩
  | @cons q q' qs qs' hqq' _ ihqs =>
    obtain ⟨label, q⟩ := q
    obtain ⟨_, q'⟩ := q'
    obtain ⟨rfl, hqq'⟩ := hqq'
    obtain ⟨_, s₂, h₂, h⟩ := Solver.yields_forM_cons.1 h
    obtain ⟨hlabel, hrest⟩ := List.nodup_cons.1 hlabels
    obtain ⟨x, x', hx, hx', hxx', hxused, hxused'⟩ := himage label List.mem_cons_self
    have hlookup := hpsps'.lookup label
    cases hp : ps.lookup label with
    | none => simp [hp] at h₂
    | some p =>
      rw [hp] at hlookup
      cases hp' : ps'.lookup label with
      | none => rw [hp'] at hlookup; cases hlookup
      | some p' =>
        rw [hp'] at hlookup
        obtain ⟨hpp'⟩ := hlookup
        simp only [hp, Solver.yields_within] at h₂
        have hpWF := hps _ (mem_of_lookup hp)
        have hqWF := hqs _ List.mem_cons_self
        obtain ⟨s₂', h₂', hρ₂, hσ₂, hbeyond, hbeyond'⟩ :=
          ih.property h₂ hρ hσ hle hs hctx hpWF hqWF hpp' hqq' hx hx' hxx'
          fun hv => hnew label p x x' hp hv hx hx'
        have hs₂ : s₂.Sound False := by
          have hgrow : s.GrowsTo False [] s₂ :=
              (IncludesByGrowth.all n).property h₂ hs hctx hpWF hqWF (fun y hy => by
            obtain ⟨hmem, hnone⟩ := hfree label List.mem_cons_self y hy
            exact ⟨hmem, hnone, List.not_mem_nil⟩) (by simp)
          exact hgrow.sound
        have hstep := hbeyond used hused hxused
        have hstep' := hbeyond' used' hused' hxused'
        have hfree₂ : ∀ k ∈ qs.map Prod.fst, ∀ y, images.lookup k = some y → y ∈ s₂.names ∧
            s₂.find y = none := by
          intro k hk y hy
          obtain ⟨hmem, hnone⟩ := hfree k (List.mem_cons_of_mem _ hk) y hy
          have hne : x ∉ [y] := fun heq => by
            cases List.mem_singleton.1 heq
            exact hlabel (himages.eq_of_mem (mem_of_lookup hx) (mem_of_lookup hy) ▸ hk)
          have hkept :=
            hbeyond [y] (fun z hz => List.mem_singleton.1 hz ▸ List.mem_append_right _ hmem) hne
          exact ⟨hkept.names hmem, (hkept.find y List.mem_cons_self).trans hnone⟩
        obtain ⟨s₁', h', hmore, hmore'⟩ :=
          ihqs (fun q hq => hqs q (List.mem_cons_of_mem _ hq)) hrest
          (fun k hk => himage k (List.mem_cons_of_mem _ hk)) hρ₂ hσ₂ hs₂
          (fun y hy => Solution.usedNames_subset (fun _ => id) hstep.names (hused hy))
          (fun y hy => Solution.usedNames_subset (fun _ => id) hstep'.names (hused' hy)) hfree₂ h
        refine ⟨s₁', Solver.yields_forM_cons.2 ⟨(), s₂', ?_, h'⟩, hstep.trans hmore,
          hstep'.trans hmore'⟩
        simpa only [hp', Solver.yields_within] using h₂'

theorem unordered_succ (ih : IncludeMirrors n) (h : Paired ρ s ctx s' ctx') (hs : s.Sound False)
    (hctx : ctx.WellFormed False) {c c' d d' : Chain} (hc : c.WellFormed False)
    (hd : d.WellFormed False) (hcc' : c.Similar ρ c') (hdd' : d.Similar ρ d') :
    Mirrored ctx ctx' (fun _ _ => True) (includeUnordered (n + 1) ctx c d)
      (includeUnordered (n + 1) ctx' c' d') s s' := by
  unfold includeUnordered
  refine .after (Chain.labels_similar hcc') fun among _ _ hamong =>
    .after (Chain.labels_similar hdd') fun labels _ hread hlabels => ?_
  subst hamong hlabels
  have hread := Chain.labels_wellFormed hread hd
  refine .get ?_
  intro _ s₁ hyields
  simp only [Solver.yields_bind, Solver.yields_set, Solver.yields_judging] at hyields ⊢
  have himages := Name.freshImages_separate (s.usedNames ctx) (among ++ labels)
  have himages' := Name.freshImages_separate (s'.usedNames ctx') (among ++ labels)
  have hboth {k x : Name}
      (hx : (Name.freshImages (s.usedNames ctx) (among ++ labels)).lookup k = some x) :
      ∃ x', (Name.freshImages (s'.usedNames ctx') (among ++ labels)).lookup k = some x' :=
    Name.exists_freshImage (Name.mem_of_mem_freshImages (mem_of_lookup hx))
  have hgiven {k : Name} (hk : k ∈ labels) :
      ∃ x, (Name.freshImages (s.usedNames ctx) (among ++ labels)).lookup k = some x :=
    Name.exists_freshImage (List.mem_append_right _ hk)
  generalize Name.freshImages (s.usedNames ctx) (among ++ labels) = images at *
  generalize Name.freshImages (s'.usedNames ctx') (among ++ labels) = images' at *
  obtain ⟨_, _, rfl, ps, _, ⟨hps, rfl⟩, qs, _, ⟨hqs, rfl⟩, inner, _, ⟨hinner, rfl⟩, hyields⟩ :=
    hyields
  obtain ⟨hpsLabels, hpsWF⟩ := Chain.properties_wellFormed hps hc
  obtain ⟨hqsLabels, hqsWF⟩ := Chain.properties_wellFormed hqs hd
  obtain ⟨hinnerWF, hnames⟩ := Property.bindAll_wellFormed hinner hctx hpsWF
  -- the labels of the parameters; the others have images that nothing is known of yet
  let K : Name → Prop := fun k => ∃ a, (k, ⟨a, none⟩) ∈ ps
  have hle : ∀ y y', ρ.along K images images' y y' → ρ.along (fun _ => True) images images' y y' :=
    Renaming.along_mono fun _ _ => trivial
  have himage (k : Name) (a : Value) (hk : (k, ⟨a, none⟩) ∈ ps) (x : Name)
      (hx : images.lookup k = some x) :
      ∃ x', images'.lookup k = some x' ∧ ρ.along K images images' x x' := by
    obtain ⟨x', hx'⟩ := hboth hx
    exact ⟨x', hx', .inr ⟨k, ⟨a, hk⟩, hx, hx'⟩⟩
  have himageAll (k : Name) (x : Name) (hx : images.lookup k = some x) :
      ∃ x', images'.lookup k = some x' ∧ ρ.along (fun _ => True) images images' x x' := by
    obtain ⟨x', hx'⟩ := hboth hx
    exact ⟨x', hx', .inr ⟨k, trivial, hx, hx'⟩⟩
  obtain ⟨ps', hps', hpsps'⟩ := Chain.properties_similar (hcc'.mono fun _ _ => .inl) hps himage
  obtain ⟨qs', hqs', hqsqs'⟩ :=
    Chain.properties_similar (hdd'.mono fun _ _ => .inl) hqs fun k _ _ => himageAll k
  obtain ⟨inner', hinner', hnames', hentry⟩ :=
    Property.bindAll_similar (h.along_functional himages) (h.along_injective himages')
    hpsps' hinner himage (h.along_entry himages himages')
  have hρ := h.along himages himages' hnames hnames' hentry
  obtain ⟨_, hinner'', -, hentryAll⟩ :=
    Property.bindAll_similar (h.along_functional himages) (h.along_injective himages')
    (hpsps'.imp fun p p' hp => ⟨hp.1, hp.2.mono hle⟩) hinner (fun k _ _ => himageAll k)
      (h.along_entry himages himages')
  cases hinner'.unique hinner''
  have hσ := h.along himages himages' hnames hnames' hentryAll
  -- a fulfilled property is not a parameter as well
  have hnot {k : Name} {p : Property} (hp : ps.lookup k = some p)
      (hv : p.value ≠ none) : ¬ K k := by
    rintro ⟨a, ha⟩
    have hnodup : (ps.map Prod.fst).Nodup := hpsLabels ▸ Chain.nodup_classLabels hc
    cases List.inj_on_of_nodup_map hnodup (mem_of_lookup hp) ha rfl
    exact hv rfl
  have hnew (k : Name) (p : Property) (x x' : Name) (hp : ps.lookup k = some p)
      (hv : p.value ≠ none) (hx : images.lookup k = some x) (hx' : images'.lookup k = some x') :
      (∀ y', ¬ ρ.along K images images' x y') ∧ ∀ y, ¬ ρ.along K images images' y x' := by
    constructor
    · rintro y' (hy | ⟨j, hj, hy, -⟩)
      · exact himages.not_mem hx (h.mem x y' hy).1
      · exact hnot hp hv (himages.eq_of_mem (mem_of_lookup hx) (mem_of_lookup hy) ▸ hj)
    · rintro y (hy | ⟨j, hj, -, hy⟩)
      · exact himages'.not_mem hx' (h.mem y x' hy).2
      · exact hnot hp hv (himages'.eq_of_mem (mem_of_lookup hx') (mem_of_lookup hy) ▸ hj)
  have hreserve := Solution.GrowsTo.reserve hs (s.usedNames ctx) (images.map Prod.snd)
  have hstep : s.Beyond (s.usedNames ctx) (s.reserve (images.map Prod.snd)) :=
    ⟨fun _ _ => rfl, hreserve.names, fun hnamed => hnamed.reserve _⟩
  have hstep' : s'.Beyond (s'.usedNames ctx') (s'.reserve (images'.map Prod.snd)) :=
    ⟨fun _ _ => rfl, fun _ hy => Solution.mem_names_reserve.2 (.inr hy),
      fun hnamed => hnamed.reserve _⟩
  have hasked (k : Name) (hk : k ∈ qs.map Prod.fst) : ∃ x x', images.lookup k = some x ∧
      images'.lookup k = some x' ∧
      ρ.along (fun _ => True) images images' x x' ∧ x ∉ s.usedNames ctx ∧
          x' ∉ s'.usedNames ctx' := by
    obtain ⟨x, hx⟩ := hgiven (hread ▸ hqsLabels ▸ hk)
    obtain ⟨x', hx', hxx'⟩ := himageAll k x hx
    exact ⟨x, x', hx, hx', hxx', himages.not_mem hx, himages'.not_mem hx'⟩
  have hfree (k : Name) (_ : k ∈ qs.map Prod.fst) (x : Name) (hx : images.lookup k = some x) :
      x ∈ (s.reserve (images.map Prod.snd)).names ∧
      (s.reserve (images.map Prod.snd)).find x = none :=
    ⟨Solution.mem_names_reserve.2 (.inl (List.mem_map.2 ⟨(k, x), mem_of_lookup hx, rfl⟩)),
      h.similar.named.find_eq_none (himages.not_mem hx)⟩
  obtain ⟨s₁', hyields', hmore, hmore'⟩ := ih.properties hle hinnerWF hpsWF hpsps' hqsqs' hqsWF
    (hqsLabels ▸ Chain.nodup_classLabels hd) himages hnew hasked hρ hσ hreserve.sound
    (Solution.usedNames_subset hnames hreserve.names)
      (Solution.usedNames_subset hnames' hstep'.names) hfree hyields
  exact ⟨(), s₁', ⟨(), _, rfl, ps', _, ⟨hps', rfl⟩, qs', _, ⟨hqs', rfl⟩, inner', _, ⟨hinner', rfl⟩,
    hyields'⟩, trivial, hstep.trans hmore, hstep'.trans hmore'⟩

theorem all (n : Nat) : IncludeMirrors n := by
  induction n with
  | zero =>
    constructor
    · intros; exact .outOfFuel
    · intros; exact .outOfFuel
    · intros; exact .outOfFuel
    · intro _ _ _ _ _ _ _ _ _ _ _ _ _ _ _ _ _ hyields; simp [includeProperty] at hyields
    · intros; exact .outOfFuel
    · intros; exact .outOfFuel
  | succ n ih =>
    exact ⟨fun h hs hctx => ih.inclusion_succ h hs hctx, fun h hs hctx => ih.forms_succ h hs hctx,
      fun h hs hctx => ih.unordered_succ h hs hctx, ih.property_succ, fun h hs hctx =>
      ih.ordered_succ h hs hctx, fun h hs hctx => ih.inStep_succ h hs hctx⟩

end IncludeMirrors

end DependentClasses
