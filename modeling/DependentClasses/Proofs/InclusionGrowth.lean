import DependentClasses.Proofs.Growth

/-! Inclusion of well-formed types lets the solution grow. The names that stand for the
properties of two classes are reserved before they are used, and each property is met once,
so that none of them is given to two pattern variables. -/
namespace DependentClasses

variable {strict : Prop}

theorem Context.names_cons (e : Context.Entry) (ctx : Context) :
    ctx.names ⊆ Context.names (e :: ctx) :=
  fun _ hx => List.mem_cons_of_mem _ hx

def Property.WellFormed (strict : Prop) (p : Property) : Prop :=
  p.type.WellFormed strict ∧ ∀ v ∈ p.value, v.WellFormed strict

theorem Property.yields_image {images : List (Name × Name)} {label x : Name} :
    (Property.image images label).Yields x ↔ images.lookup label = some x := by
  unfold Property.image
  cases images.lookup label with
  | none => simp
  | some y => simp [eq_comm]

/-- The properties of a class are well-formed and have the labels of the class. -/
theorem Chain.properties_wellFormed {n : Nat} {images : List (Name × Name)} {c : Chain}
    {ps : List (Name × Property)} (h : (c.properties n images).Yields ps)
    (hc : c.WellFormed strict) :
    ps.map Prod.fst = c.classLabels ∧ ∀ p ∈ ps, p.2.WellFormed strict := by
  induction n generalizing c ps with
  | zero => simp [properties] at h
  | succ n ih =>
    cases c with
    | nil =>
      simp only [properties, Verdict.yields_pure] at h
      simp [h, classLabels]
    | declared k a rest =>
      simp only [properties, Verdict.yields_bind, Verdict.yields_lift, Verdict.yields_pure] at h
      obtain ⟨x, -, d, hd, more, hmore, rfl⟩ := h
      obtain ⟨-, hclass, ha, hrest⟩ := Chain.all_declared.1 hc
      have hd' : d.WellFormed strict :=
        Closure.applyChain_all hd hrest (Value.WellFormed.variable ha x)
      obtain ⟨hlabels, hps⟩ := ih hmore hd'
      rw [Closure.applyChain_classLabels hclass hd] at hlabels
      refine ⟨by simp [hlabels, classLabels], fun p hp => ?_⟩
      rcases List.mem_cons.1 hp with rfl | hp
      · exact ⟨ha, by simp⟩
      · exact hps p hp
    | fulfilled k a v rest =>
      simp only [properties, Verdict.yields_bind, Verdict.yields_pure] at h
      obtain ⟨more, hmore, rfl⟩ := h
      obtain ⟨-, ha, hv, hrest⟩ := Chain.all_fulfilled.1 hc
      obtain ⟨hlabels, hps⟩ := ih hmore hrest
      refine ⟨by simp [hlabels, classLabels], fun p hp => ?_⟩
      rcases List.mem_cons.1 hp with rfl | hp
      · exact ⟨ha, fun w hw => by cases hw; exact hv⟩
      · exact hps p hp

theorem Property.bindAll_wellFormed {images : List (Name × Name)} {ctx ctx' : Context}
    {ps : List (Name × Property)} (h : (Property.bindAll images ctx ps).Yields ctx')
    (hctx : ctx.WellFormed strict) (hps : ∀ p ∈ ps, p.2.WellFormed strict) :
    ctx'.WellFormed strict ∧ ctx.names ⊆ ctx'.names := by
  induction ps generalizing ctx with
  | nil =>
    rw [bindAll, Verdict.yields_pure] at h
    subst h
    exact ⟨hctx, fun _ => id⟩
  | cons p ps ih =>
    obtain ⟨label, p⟩ := p
    have hrest : ∀ p ∈ ps, p.2.WellFormed strict := fun q hq => hps q (List.mem_cons_of_mem _ hq)
    unfold bindAll at h
    split at h
    · exact ih h hctx hrest
    · simp only [Verdict.yields_bind] at h
      obtain ⟨x, -, h⟩ := h
      obtain ⟨hwf, hnames⟩ := ih h (hctx.bind (hps _ List.mem_cons_self).1 x x) hrest
      exact ⟨hwf, fun y hy => hnames (Context.names_cons _ ctx hy)⟩

theorem Chain.seek_wellFormed {n : Nat} {s : Solution} {ctx ctx' : Context}
    {label : Name} {c d : Chain} (h : c.seek n s ctx label = .ok (ctx', d))
    (hctx : ctx.WellFormed strict) (hc : c.WellFormed strict) :
    ctx'.WellFormed strict ∧ d.WellFormed strict ∧ ctx.names ⊆ ctx'.names := by
  have hfound {ctx ctx' : Context} {c d : Chain} (h : (ctx', d) = (ctx, c))
      (hctx : ctx.WellFormed strict)
      (hc : c.WellFormed strict) : ctx'.WellFormed strict ∧ d.WellFormed strict ∧
          ctx.names ⊆ ctx'.names := by
    cases h
    exact ⟨hctx, hc, fun _ => id⟩
  induction n generalizing ctx c with
  | zero => simp [seek] at h
  | succ n ih =>
    cases c with
    | nil =>
      rw [seek, Eval.pure_eq_ok] at h
      exact hfound h hctx hc
    | declared k a rest =>
      unfold seek at h
      split at h
      · exact hfound (Eval.pure_eq_ok.1 h) hctx hc
      · simp only [Eval.bind_eq_ok] at h
        obtain ⟨e, he, h⟩ := h
        obtain ⟨-, -, ha, hrest⟩ := Chain.all_declared.1 hc
        obtain ⟨hinner, hv⟩ := hctx.witness (s := s) ha rest.x
        obtain ⟨hctx', hd, hnames⟩ := ih h hinner (Closure.applyChain_all he hrest hv)
        exact ⟨hctx', hd, fun y hy => hnames (Context.names_cons _ ctx hy)⟩
    | fulfilled k a v rest =>
      unfold seek at h
      split at h
      · exact hfound (Eval.pure_eq_ok.1 h) hctx hc
      · exact ih h hctx (Chain.all_fulfilled.1 hc).2.2.2

structure IncludesByGrowth (strict : Prop) (n : Nat) : Prop where
  inclusion {ctx : Context} {sub super : Value} {s s' : Solution} {u : Unit} :
    (inclusion n ctx sub super).Yields s u s' → s.Sound strict → ctx.WellFormed strict →
    sub.WellFormed strict →
    super.WellFormed strict →
      s.GrowsTo strict (s.usedNames ctx) s'
  forms {ctx : Context} {sub super : Value} {s s' : Solution} {u : Unit} :
    (includeForms n ctx sub super).Yields s u s' → s.Sound strict → ctx.WellFormed strict →
    sub.WellFormed strict →
    super.WellFormed strict →
      s.GrowsTo strict (s.usedNames ctx) s'
  unordered {ctx : Context} {sub super : Chain} {s s' : Solution} {u : Unit} :
    (includeUnordered n ctx sub super).Yields s u s' → s.Sound strict → ctx.WellFormed strict →
      sub.WellFormed strict → super.WellFormed strict → s.GrowsTo strict (s.usedNames ctx) s'
  /-- The name that stands for the property may be given to a pattern variable. -/
  property {ctx : Context} {images : List (Name × Name)} {label : Name} {p q : Property}
      {s s' : Solution} {u : Unit} {avoid : List Name} :
    (includeProperty n ctx images label p q).Yields s u s' → s.Sound strict →
      ctx.WellFormed strict →
    p.WellFormed strict →
      q.WellFormed strict →
      (∀ x, images.lookup label = some x → x ∈ s.names ∧ s.find x = none ∧ x ∉ avoid) →
      avoid ⊆ s.usedNames ctx → s.GrowsTo strict avoid s'
  ordered {ctx : Context} {sub super : Chain} {s s' : Solution} {u : Unit} :
    (includeOrdered n ctx sub super).Yields s u s' → s.Sound strict → ctx.WellFormed strict →
      sub.WellFormed strict → super.WellFormed strict → s.GrowsTo strict (s.usedNames ctx) s'
  inStep {ctx : Context} {sub super : Chain} {s s' : Solution} {u : Unit} :
    (includeInStep n ctx sub super).Yields s u s' → s.Sound strict → ctx.WellFormed strict →
      sub.WellFormed strict → super.WellFormed strict → s.GrowsTo strict (s.usedNames ctx) s'

namespace IncludesByGrowth

variable {n : Nat} {ctx : Context} {s s' : Solution} {u : Unit}

theorem includeEqual {sub super : Value}
    (h : (DependentClasses.includeEqual n ctx sub super).Yields s u s') (hs : s.Sound strict)
    (hctx : ctx.WellFormed strict) (hsub : sub.WellFormed strict)
    (hsuper : super.WellFormed strict) :
    s.GrowsTo strict (s.usedNames ctx) s' := by
  unfold DependentClasses.includeEqual at h
  simp only [Solver.yields_bind, Solver.yields_reify] at h
  obtain ⟨l, _, ⟨-, rfl⟩, r, _, ⟨-, rfl⟩, h⟩ := h
  split at h
  · obtain ⟨-, rfl⟩ := Solver.yields_pure.1 h
    exact .refl hs _
  · simp only [Solver.yields_bind, Solver.yields_get] at h
    obtain ⟨_, _, ⟨rfl, rfl⟩, h⟩ := h
    split at h
    · simp at h
    · exact unify_growsTo h hs hctx Value.all_type hsub hsuper _

theorem inclusion_succ (ih : IncludesByGrowth strict n) {sub super : Value}
    (h : (DependentClasses.inclusion (n + 1) ctx sub super).Yields s u s') (hs : s.Sound strict)
    (hctx : ctx.WellFormed strict)
    (hsub : sub.WellFormed strict) (hsuper : super.WellFormed strict) :
    s.GrowsTo strict (s.usedNames ctx) s' := by
  unfold DependentClasses.inclusion at h
  simp only [Solver.yields_bind, Solver.yields_force] at h
  obtain ⟨l, _, ⟨hl, rfl⟩, r, _, ⟨hr, rfl⟩, h⟩ := h
  rw [Solver.yields_tryCatch (by simp)] at h
  exact ih.forms h hs hctx (hs.wellFormed.force hl hsub) (hs.wellFormed.force hr hsuper)

/-- A domain is included, and then a codomain at a parameter of the domain. -/
theorem binders (ih : IncludesByGrowth strict n) {a v w : Value} {b d : Closure} {s₁ : Solution}
    {x : Name} {u₁ : Unit} (hdomain : s.GrowsTo strict (s.usedNames ctx) s₁)
    (hv : b.apply n (s₁.witness ctx x a).2 = .ok v) (hw : d.apply n (s₁.witness ctx x a).2 = .ok w)
    (h : (DependentClasses.inclusion n (s₁.witness ctx x a).1 v w).Yields s₁ u₁ s')
    (hctx : ctx.WellFormed strict) (ha : a.WellFormed strict) (hb : b.WellFormed strict)
    (hd : d.WellFormed strict) :
    s.GrowsTo strict (s.usedNames ctx) s' := by
  obtain ⟨hinner, hvar⟩ := hctx.witness ha x
  have hcodomain :=
    ih.inclusion h hdomain.sound hinner (Closure.apply_all hv hb hvar)
      (Closure.apply_all hw hd hvar)
  exact hdomain.next (hcodomain.outward (Context.names_cons _ ctx))

theorem forms_succ (ih : IncludesByGrowth strict n) {sub super : Value}
    (h : (includeForms (n + 1) ctx sub super).Yields s u s') (hs : s.Sound strict)
    (hctx : ctx.WellFormed strict) (hsub : sub.WellFormed strict)
    (hsuper : super.WellFormed strict) : s.GrowsTo strict (s.usedNames ctx) s' := by
  unfold includeForms at h
  simp only [Solver.yields_bind, Solver.yields_get] at h
  obtain ⟨_, _, ⟨rfl, rfl⟩, h⟩ := h
  split at h
  · exact unify_growsTo h hs hctx Value.all_type hsub hsuper _
  · split at h
    case h_1 =>
      split at h
      · simp only [Solver.yields_bind, Solver.yields_witness, Solver.yields_lift] at h
        obtain ⟨_, s₁, h₁, _, _, ⟨rfl, rfl⟩, v, _, ⟨hv, rfl⟩, w, _, ⟨hw, rfl⟩, h⟩ := h
        obtain ⟨ha, hb⟩ := Value.all_pi.1 hsub
        obtain ⟨hc, hd⟩ := Value.all_pi.1 hsuper
        exact ih.binders (ih.inclusion h₁ hs hctx hc ha) hv hw h hctx ha hb hd
      · exact includeEqual h hs hctx hsub hsuper
    case h_2 =>
      simp only [Solver.yields_bind, Solver.yields_witness, Solver.yields_lift] at h
      obtain ⟨_, s₁, h₁, _, _, ⟨rfl, rfl⟩, v, _, ⟨hv, rfl⟩, w, _, ⟨hw, rfl⟩, h⟩ := h
      obtain ⟨ha, hb⟩ := Value.all_sigma.1 hsub
      obtain ⟨hc, hd⟩ := Value.all_sigma.1 hsuper
      exact ih.binders (ih.inclusion h₁ hs hctx ha hc) hv hw h hctx ha hb hd
    case h_3 =>
      simp only [Solver.yields_bind, Solver.yields_lift] at h
      obtain ⟨ordered, _, ⟨-, rfl⟩, h⟩ := h
      split at h
      · exact ih.ordered h hs hctx (Value.all_classOf.1 hsub) (Value.all_classOf.1 hsuper)
      · exact ih.unordered h hs hctx (Value.all_classOf.1 hsub) (Value.all_classOf.1 hsuper)
    case h_4 =>
      simp only [Solver.yields_bind, Solver.yields_judging] at h
      obtain ⟨_, s₁, h₁, _, _, ⟨-, rfl⟩, -, rfl⟩ := h
      exact ih.inclusion h₁ hs hctx (Value.all_equal.1 hsub).1 (Value.all_equal.1 hsuper).1
    case h_5 => exact includeEqual h hs hctx hsub hsuper

theorem property_succ (ih : IncludesByGrowth strict n) {images : List (Name × Name)} {label : Name}
    {p q : Property} {avoid : List Name}
    (h : (includeProperty (n + 1) ctx images label p q).Yields s u s') (hs : s.Sound strict)
    (hctx : ctx.WellFormed strict) (hp : p.WellFormed strict) (hq : q.WellFormed strict)
    (himage : ∀ x, images.lookup label = some x → x ∈ s.names ∧ s.find x = none ∧ x ∉ avoid)
    (havoid : avoid ⊆ s.usedNames ctx) : s.GrowsTo strict avoid s' := by
  unfold includeProperty at h
  simp only [Solver.yields_bind] at h
  obtain ⟨_, s₁, h₁, h⟩ := h
  have htypes := ih.inclusion h₁ hs hctx hp.1 hq.1
  have hfirst := htypes.mono havoid
  split at h
  · next v w hv hw =>
    exact hfirst.trans (unify_growsTo h hfirst.sound hctx hq.1 (hq.2 w hw) (hp.2 v hv) avoid)
  · next v hv _ =>
    simp only [Solver.yields_bind, Solver.yields_judging, Property.yields_image,
      Solver.yields_create] at h
    obtain ⟨x, _, ⟨hx, rfl⟩, _, _, ⟨rfl, rfl⟩, h⟩ := h
    obtain ⟨hmem, hnone, hnew⟩ := himage x hx
    have hcreate :=
      Solution.GrowsTo.create hfirst.sound (htypes.find_eq_none hmem hnone) hnew hp.1 ctx.names
    exact (hfirst.trans hcreate).trans
      (unify_growsTo h hcreate.sound hctx hp.1 (hp.1.variable x) (hp.2 v hv) avoid)
  · simp at h
  · obtain ⟨-, rfl⟩ := Solver.yields_pure.1 h
    exact hfirst

/-- The properties of a class are gone through once; the names that stand for those to come are kept
free. -/
theorem properties (ih : IncludesByGrowth strict n) {used : List Name} {images : List (Name × Name)}
    (himages : Name.Separate used images) {ps qs : List (Name × Property)} {avoid : List Name}
    (hps : ∀ p ∈ ps, p.2.WellFormed strict) (hqs : ∀ q ∈ qs, q.2.WellFormed strict)
    (hctx : ctx.WellFormed strict) (hlabels : (qs.map Prod.fst).Nodup) (hs : s.Sound strict)
    (havoid : avoid ⊆ s.usedNames ctx)
    (hfree : ∀ k ∈ qs.map Prod.fst, ∀ x, images.lookup k = some x → x ∈ s.names ∧ s.find x = none ∧
      x ∉ avoid) (h : Solver.Yields (qs.forM fun (label, q) =>
      match ps.lookup label with
      | none => refuse (.missingProperty label)
      | some p =>
        Solver.within (.property label) (includeProperty n ctx images label p q)) s u s') :
    s.GrowsTo strict avoid s' := by
  induction qs generalizing s with
  | nil =>
    obtain ⟨-, rfl⟩ := Solver.yields_pure.1 h
    exact .refl hs _
  | cons q qs ihqs =>
    obtain ⟨label, q⟩ := q
    obtain ⟨_, s₁, h₁, h⟩ := Solver.yields_forM_cons.1 h
    obtain ⟨hlabel, hrest⟩ := List.nodup_cons.1 hlabels
    dsimp only at h₁
    split at h₁
    · simp at h₁
    · next p hp =>
      rw [Solver.yields_within] at h₁
      have hpwf := hps _ (mem_of_lookup hp)
      have hqwf := hqs _ List.mem_cons_self
      have hthis := hfree label List.mem_cons_self
      have hstep := ih.property h₁ hs hctx hpwf hqwf hthis havoid
      refine hstep.trans
        (ihqs (fun q hq => hqs q (List.mem_cons_of_mem _ hq)) hrest hstep.sound ?_ ?_ h)
      · exact fun x hx => Solution.usedNames_subset (fun _ => id) hstep.names (havoid hx)
      · intro k hk x hx
        obtain ⟨hmem, hnone, hnew⟩ := hfree k (List.mem_cons_of_mem _ hk) x hx
        -- the name belongs to another property, so that this step may be asked to avoid it
        have hother : ∀ y, images.lookup label = some y → y ∈ s.names ∧
            s.find y = none ∧ y ∉ [x] := by
          intro y hy
          refine ⟨(hthis y hy).1, (hthis y hy).2.1, fun hyx => ?_⟩
          rw [List.mem_singleton.1 hyx] at hy
          have heq := himages.eq_of_mem (mem_of_lookup hy) (mem_of_lookup hx)
          exact hlabel (heq ▸ hk)
        have hsingle : [x] ⊆ s.usedNames ctx :=
          fun y hy => List.mem_singleton.1 hy ▸ List.mem_append_right _ hmem
        have hkept := ih.property h₁ hs hctx hpwf hqwf hother hsingle
        have hnone₁ : s₁.find x = none :=
          Option.eq_none_iff_forall_ne_some.2 fun r hr =>
            hkept.fresh x r hr hnone (List.mem_singleton.2 rfl)
        exact ⟨hstep.names hmem, hnone₁, hnew⟩

theorem unordered_succ (ih : IncludesByGrowth strict n) {sub super : Chain}
    (h : (includeUnordered (n + 1) ctx sub super).Yields s u s') (hs : s.Sound strict)
    (hctx : ctx.WellFormed strict) (hsub : sub.WellFormed strict)
    (hsuper : super.WellFormed strict) : s.GrowsTo strict (s.usedNames ctx) s' := by
  unfold includeUnordered at h
  simp only [Solver.yields_bind, Solver.yields_lift, Solver.yields_get, Solver.yields_set,
    Solver.yields_judging] at h
  obtain ⟨among, _, ⟨-, rfl⟩, labels, _, ⟨-, rfl⟩, _, s, ⟨rfl, rfl⟩, _, _, rfl, ps, _, ⟨hps, rfl⟩,
    qs, _, ⟨hqs, rfl⟩, inner, _, ⟨hinner, rfl⟩, h⟩ := h
  have himages := Name.freshImages_separate (s.usedNames ctx) (among ++ labels)
  obtain ⟨-, hpsWF⟩ := Chain.properties_wellFormed hps hsub
  obtain ⟨hlabels, hqsWF⟩ := Chain.properties_wellFormed hqs hsuper
  obtain ⟨hinnerWF, hnames⟩ := Property.bindAll_wellFormed hinner hctx hpsWF
  have hreserve := Solution.GrowsTo.reserve hs (s.usedNames ctx)
    ((Name.freshImages (s.usedNames ctx) (among ++ labels)).map Prod.snd)
  refine hreserve.trans (ih.properties himages hpsWF hqsWF hinnerWF ?_ hreserve.sound ?_ ?_ h)
  · rw [hlabels]
    exact Chain.nodup_classLabels hsuper
  · exact Solution.usedNames_subset hnames hreserve.names
  · intro k _ x hx
    have hmem : x ∈ (Name.freshImages (s.usedNames ctx) (among ++ labels)).map Prod.snd :=
      List.mem_map.2 ⟨(k, x), mem_of_lookup hx, rfl⟩
    have hnew := himages.2 x hmem
    refine ⟨Solution.mem_names_reserve.2 (.inl hmem), ?_, hnew⟩
    exact hs.find_eq_none fun hx => hnew (List.mem_append_right _ hx)

theorem ordered_succ (ih : IncludesByGrowth strict n) {sub super : Chain}
    (h : (includeOrdered (n + 1) ctx sub super).Yields s u s') (hs : s.Sound strict)
    (hctx : ctx.WellFormed strict) (hsub : sub.WellFormed strict)
    (hsuper : super.WellFormed strict) : s.GrowsTo strict (s.usedNames ctx) s' := by
  unfold includeOrdered includeIfCovered at h
  simp only [Solver.yields_bind, Solver.yields_lift] at h
  obtain ⟨among, _, ⟨-, rfl⟩, labels, _, ⟨-, rfl⟩, h⟩ := h
  split at h
  · exact ih.inStep h hs hctx hsub hsuper
  · simp at h

theorem inStep_succ (ih : IncludesByGrowth strict n) {sub super : Chain}
    (h : (includeInStep (n + 1) ctx sub super).Yields s u s') (hs : s.Sound strict)
    (hctx : ctx.WellFormed strict) (hsub : sub.WellFormed strict)
    (hsuper : super.WellFormed strict) : s.GrowsTo strict (s.usedNames ctx) s' := by
  unfold includeInStep includeNext at h
  cases super with
  | nil =>
    obtain ⟨-, rfl⟩ := Solver.yields_pure.1 h
    exact .refl hs _
  | declared label a rest =>
    simp only [Solver.yields_bind, Solver.yields_reading] at h
    obtain ⟨⟨inner, found⟩, _, ⟨hseek, rfl⟩, h⟩ := h
    obtain ⟨hinner, hfound, hnames⟩ := Chain.seek_wellFormed hseek hctx hsub
    obtain ⟨-, -, ha, hrest⟩ := Chain.all_declared.1 hsuper
    cases found with
    | nil => simp at h
    | declared k b subRest =>
      simp only [Solver.yields_bind, Solver.yields_within, Solver.yields_witness,
        Solver.yields_lift] at h
      obtain ⟨_, _, h₁, _, _, ⟨rfl, rfl⟩, sub', _, ⟨hsub', rfl⟩, super', s₁, ⟨hsuper', rfl⟩, h⟩ := h
      obtain ⟨-, -, hb, hsubRest⟩ := Chain.all_declared.1 hfound
      obtain ⟨hbelow, hv⟩ := hinner.witness (s := s₁) hb subRest.x
      have htypes := ih.inclusion h₁ hs hinner hb ha
      have hmore := ih.inStep h htypes.sound hbelow (Closure.applyChain_all hsub' hsubRest hv)
        (Closure.applyChain_all hsuper' hrest hv)
      exact (htypes.next (hmore.outward (Context.names_cons _ inner))).outward hnames
    | fulfilled k b v sub' =>
      simp only [Solver.yields_bind, Solver.yields_within, Solver.yields_freshName,
        Solver.yields_create, Solver.yields_lift] at h
      obtain ⟨_, s₁, h₁, _, _, ⟨rfl, rfl⟩, _, _, ⟨rfl, rfl⟩, _, s₂, h₂, super', _,
        ⟨hsuper', rfl⟩, h⟩ := h
      obtain ⟨-, hb, hv, hsub'⟩ := Chain.all_fulfilled.1 hfound
      have htypes := ih.inclusion h₁ hs hinner hb ha
      have hcreate := Solution.GrowsTo.create_fresh htypes.sound inner label hb inner.names
      have hunify := unify_growsTo h₂ hcreate.sound hinner hb (Value.WellFormed.variable hb _) hv
      have hmore :=
        ih.inStep h (hunify []).sound hinner hsub' (Closure.applyChain_all hsuper' hrest hv)
      exact (((htypes.next hcreate).next (hunify _)).next hmore).outward hnames
  | fulfilled label a w rest =>
    simp only [Solver.yields_bind, Solver.yields_reading] at h
    obtain ⟨⟨inner, found⟩, _, ⟨hseek, rfl⟩, h⟩ := h
    obtain ⟨hinner, hfound, hnames⟩ := Chain.seek_wellFormed hseek hctx hsub
    obtain ⟨-, ha, hw, hrest⟩ := Chain.all_fulfilled.1 hsuper
    cases found with
    | nil => simp at h
    | declared k b subRest => simp at h
    | fulfilled k b v sub' =>
      simp only [Solver.yields_bind, Solver.yields_within] at h
      obtain ⟨_, s₂, ⟨_, s₁, h₁, h₂⟩, h⟩ := h
      obtain ⟨-, hb, hv, hsub'⟩ := Chain.all_fulfilled.1 hfound
      have htypes := ih.inclusion h₁ hs hinner hb ha
      have hunify := unify_growsTo h₂ htypes.sound hinner hb hw hv
      have hmore := ih.inStep h (hunify []).sound hinner hsub' hrest
      exact ((htypes.next (hunify _)).next hmore).outward hnames

theorem all (n : Nat) : IncludesByGrowth strict n := by
  induction n with
  | zero =>
    constructor
    · intro ctx sub super s s' u h; simp [DependentClasses.inclusion] at h
    · intro ctx sub super s s' u h; simp [includeForms] at h
    · intro ctx sub super s s' u h; simp [includeUnordered] at h
    · intro ctx images label p q s s' u avoid h; simp [includeProperty] at h
    · intro ctx sub super s s' u h; simp [includeOrdered] at h
    · intro ctx sub super s s' u h; simp [includeInStep] at h
  | succ n ih =>
    exact ⟨ih.inclusion_succ, ih.forms_succ, ih.unordered_succ, ih.property_succ,
      ih.ordered_succ, ih.inStep_succ⟩

end IncludesByGrowth

end DependentClasses
