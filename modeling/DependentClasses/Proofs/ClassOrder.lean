import DependentClasses.Proofs.ClassWalks
import DependentClasses.Proofs.MirroredInclusion
import DependentClasses.Proofs.Persistence
import DependentClasses.Proofs.Subtyping

/-! Two classes whose common properties stand in the same order may be compared in step or property
by property. In step, the wider class is opened at parameters of the narrower types, or at the
values of the narrower class; property by property it is opened at parameters of its own types. Both
come to the same verdict if nothing in the wider class depends on the difference. -/
namespace DependentClasses

structure SoundlyPaired (ρ : Renaming) (s : Solution) (ctx : Context) (s' : Solution)
    (ctx' : Context) : Prop where
  paired : Paired ρ s ctx s' ctx'
  sound : s.Sound False
  sound' : s'.Sound False
  wellFormed : ctx.WellFormed False
  wellFormed' : ctx'.WellFormed False

namespace SoundlyPaired

variable {ρ : Renaming} {s s₁ s' : Solution} {ctx ctx' : Context} {n : Nat}
  {a a' b b' v v' w w' : Value}

theorem symm (h : SoundlyPaired ρ s ctx s' ctx') : SoundlyPaired ρ.symm s' ctx' s ctx :=
  ⟨h.paired.symm, h.sound', h.sound, h.wellFormed', h.wellFormed⟩

/-- A step of both runs that leaves alone what is in use. -/
theorem inclusion (h : SoundlyPaired ρ s ctx s' ctx') (hb : b.WellFormed False)
    (hb' : b'.WellFormed False) (ha : a.WellFormed False) (ha' : a'.WellFormed False)
    (hbb' : b.Similar ρ b') (haa' : a.Similar ρ a')
    (hyields : (inclusion n ctx b a).Yields s () s₁) :
    ∃ s₁', (DependentClasses.inclusion n ctx' b' a').Yields s' () s₁' ∧
      SoundlyPaired ρ s₁ ctx s₁' ctx' ∧
      s.Beyond (s.usedNames ctx) s₁ ∧ s'.Beyond (s'.usedNames ctx') s₁' := by
  obtain ⟨_, s₁', hyields', -, hbeyond, hbeyond'⟩ :=
    (IncludeMirrors.all n).inclusion h.paired h.sound h.wellFormed hb ha hbb' haa' _ _ hyields
  refine ⟨s₁', hyields', ⟨h.paired.beyond hbeyond hbeyond', ?_, ?_, h.wellFormed, h.wellFormed'⟩,
    hbeyond, hbeyond'⟩
  · exact ((IncludesByGrowth.all n).inclusion hyields h.sound h.wellFormed hb ha).sound
  · exact ((IncludesByGrowth.all n).inclusion hyields' h.sound' h.wellFormed' hb' ha').sound

theorem unify (h : SoundlyPaired ρ s ctx s' ctx') (hb : b.WellFormed False)
    (hb' : b'.WellFormed False) (hw : w.WellFormed False) (hw' : w'.WellFormed False)
    (hv : v.WellFormed False) (hv' : v'.WellFormed False) (hbb' : b.Similar ρ b')
    (hww' : w.Similar ρ w') (hvv' : v.Similar ρ v') (hyields : (unify n ctx b w v).Yields s () s₁) :
    ∃ s₁', (DependentClasses.unify n ctx' b' w' v').Yields s' () s₁' ∧
      SoundlyPaired ρ s₁ ctx s₁' ctx' ∧
      s.Beyond (s.usedNames ctx) s₁ ∧ s'.Beyond (s'.usedNames ctx') s₁' := by
  obtain ⟨_, s₁', hyields', -, hbeyond, hbeyond'⟩ :=
    (UnifyMirrors.all n).value h.paired hbb' hww' hvv' _ _ hyields
  refine ⟨s₁', hyields', ⟨h.paired.beyond hbeyond hbeyond', ?_, ?_, h.wellFormed, h.wellFormed'⟩,
    hbeyond, hbeyond'⟩
  · exact (unify_growsTo hyields h.sound h.wellFormed hb hw hv []).sound
  · exact (unify_growsTo hyields' h.sound' h.wellFormed' hb' hw' hv' []).sound

/-- A pattern variable is made for a value. -/
theorem created (h : SoundlyPaired ρ s ctx s' ctx') {x x' : Name} (hx : s.find x = none)
    (hx' : s'.find x' = none) (houtside : ∀ y', ¬ ρ x y') (houtside' : ∀ y, ¬ ρ y x')
    (hb : b.WellFormed False) (hb' : b'.WellFormed False) (hv : v.WellFormed False)
    (hv' : v'.WellFormed False) (hbb' : b.Similar ρ b') (hvv' : v.Similar ρ v')
    (hyields : (DependentClasses.unify n ctx b (.variable b x) v).Yields
      (s.create x b ctx.names) () s₁) :
    ∃ s₁', (DependentClasses.unify n ctx' b' (.variable b' x') v').Yields
      (s'.create x' b' ctx'.names) () s₁' ∧
      SoundlyPaired ρ s₁ ctx s₁' ctx' ∧ (∀ used, x ∉ used → s.Beyond used s₁) ∧ ∀ used, x' ∉ used →
      s'.Beyond used s₁' := by
  obtain ⟨u, u', rfl, huu', hyields'⟩ := h.paired.created houtside houtside' hbb' hvv' hyields
  have hcreate := Solution.GrowsTo.create h.sound hx List.not_mem_nil hb ctx.names
  have hcreate' := Solution.GrowsTo.create h.sound' hx' List.not_mem_nil hb' ctx'.names
  refine ⟨_, hyields', ⟨h.paired.solve (.inr ⟨houtside, houtside'⟩) huu' _ _ _ _, ?_, ?_,
    h.wellFormed, h.wellFormed'⟩,
    fun used hused => s.beyond_solved hused _ _ _, fun used hused => s'.beyond_solved hused _ _ _⟩
  · exact (unify_growsTo hyields hcreate.sound h.wellFormed hb (hb.variable x) hv []).sound
  · exact (unify_growsTo hyields' hcreate'.sound h.wellFormed' hb' (hb'.variable x') hv' []).sound

/-- A new parameter on one side may stand for one that is there on the other. -/
theorem bind (h : SoundlyPaired ρ s ctx s' ctx') {x x' : Name} (hx : x ∉ s.usedNames ctx)
    (hx' : x' ∈ s'.names) (hfind : s'.find x' = none)
    (hentry : ctx'.entry x' = some ⟨x', x', b', none⟩) (houtside : ∀ y, ¬ ρ y x')
    (hb : b.WellFormed False) (hbb' : b.Similar ρ b') (label : Name) :
    (∀ y y', ρ y y' → ρ.under x x' y y') ∧
      SoundlyPaired (ρ.under x x') s (ctx.bind label x b) s' ctx' := by
  have hp := h.paired
  have hle (y y' : Name) (hy : ρ y y') : ρ.under x x' y y' :=
    .inr ⟨fun heq => hx (heq ▸ (hp.mem y y' hy).1), fun heq => houtside y (heq ▸ hy), hy⟩
  have hnone : s.find x = none := hp.similar.named.find_eq_none hx
  refine ⟨hle, ⟨?_, h.sound, h.sound', h.wellFormed.bind hb label x, h.wellFormed'⟩⟩
  exact {
    functional := Renaming.under_functional hp.functional
    injective := Renaming.under_injective hp.injective
    mem := by
      rintro y y' (⟨rfl, rfl⟩ | ⟨-, -, hy⟩)
      · exact ⟨List.mem_cons_self, List.mem_append_right _ hx'⟩
      · exact ⟨List.mem_cons_of_mem x (hp.mem y y' hy).1, (hp.mem y y' hy).2⟩
    named := hp.named
    named' := hp.named'
    find := by
      rintro y y' (⟨rfl, rfl⟩ | ⟨-, -, hy⟩)
      · rw [hnone, hfind]
        exact .none
      · exact rel_mono (fun p p' hp => hp.mono hle) (hp.find y y' hy)
    settled := by
      rintro y y' (⟨rfl, rfl⟩ | ⟨-, -, hy⟩)
      · rw [Solution.isUnsolved, hnone]
      · exact hp.settled y y' hy
    entry := by
      rintro y y' (⟨rfl, rfl⟩ | ⟨hne, -, hy⟩)
      · rw [hentry]
        simp only [Context.entry, Context.bind, List.find?_cons, decide_true]
        exact .some ⟨hbb'.mono hle, .none⟩
      · have hskip : decide (x = y) = false := by simpa using Ne.symm hne
        simp only [Context.entry, Context.bind, List.find?_cons, hskip]
        exact rel_mono (fun e e' he => he.mono hle) (hp.entry y y' hy) }

end SoundlyPaired

section

variable {ρ : Renaming} {c c' : Closure} {v v' : Value} {n : Nat}

/-- What follows a property does not depend on it. -/
def Closure.IsConstant (c : Closure) : Prop := c.x ∉ c.body.freeNames

theorem Closure.IsConstant.similar (h : c.IsConstant) (hc : c.Similar ρ c') : c'.IsConstant := by
  cases hc with
  | closure halike _ _ =>
    intro hx'
    obtain ⟨y, hy, ⟨heq, -⟩ | ⟨-, hne, -⟩⟩ := halike.symm.exists_free hx'
    · exact h (heq ▸ hy)
    · exact hne rfl

theorem Closure.IsConstant.applyChain_similar (h : c.IsConstant) (hc : c.Similar ρ c')
    (v v' : Value) :
    Eval.Rel (Chain.Similar ρ) (c.applyChain n v) (c'.applyChain n v') := by
  refine .bind ?_ fun _ _ hr => Value.chain_similar hr
  cases hc with
  | @closure θ env env' x x' b b' halike hkept hmissing =>
    refine (ComputesSimilarly.all ρ n).eval ⟨halike, fun y hy y' hy' hθ => ?_⟩
    rcases hθ with ⟨rfl, -⟩ | ⟨hne, hne', hθ⟩
    · exact absurd hy h
    · simp only [Closure.bind, lookup_cons_ite, if_neg hne, if_neg hne']
      cases hw : env.lookup y with
      | none =>
        rw [(hmissing y hy hne y' hy' hne' hθ).1 hw]
        exact .none
      | some w =>
        cases hw' : env'.lookup y' with
        | none =>
          rw [(hmissing y hy hne y' hy' hne' hθ).2 hw'] at hw
          cases hw
        | some w' => exact .some (hkept y hy hne y' hy' hne' hθ w w' hw hw')

/-- Opening what follows a property at two values that make no difference to it. -/
theorem Closure.opened (hc : c.Similar ρ c') (hv : v.Similar ρ v' ∨ c.IsConstant) {d' : Chain}
    (hd' : c'.applyChain n v' = .ok d') :
    ∃ d, c.applyChain n v = .ok d ∧ d.Similar ρ d' := by
  have hrel : Eval.Rel (Chain.Similar ρ.symm) (c'.applyChain n v') (c.applyChain n v) := by
    rcases hv with hv | hconstant
    · exact Closure.applyChain_similar hc.symm hv.symm
    · exact (hconstant.similar hc).applyChain_similar hc.symm v' v
  obtain ⟨d, hd, hdd'⟩ := hrel d' hd'
  exact ⟨d, hd, hdd'.symm⟩

end

namespace Chain

variable {images : List (Name × Name)} {ps : List (Name × Property)} {k : Name} {a v : Value}
  {c : Chain} {rest : Closure} {n : Nat}

theorem properties_declared (h : ((Chain.declared k a rest).properties n images).Yields ps) :
    ∃ x m d more, images.lookup k = some x ∧ rest.applyChain m (.variable a x) = .ok d ∧
      (d.properties m images).Yields more ∧
      ps = (k, ⟨a, none⟩) :: more := by
  cases n with
  | zero => simp [properties] at h
  | succ n =>
    simp only [properties, Verdict.yields_bind, Verdict.yields_lift, Verdict.yields_pure,
      Property.yields_image] at h
    obtain ⟨x, hx, d, hd, more, hmore, rfl⟩ := h
    exact ⟨x, n, d, more, hx, hd, hmore, rfl⟩

theorem properties_fulfilled (h : ((Chain.fulfilled k a v c).properties n images).Yields ps) :
    ∃ m more, (c.properties m images).Yields more ∧ ps = (k, ⟨a, some v⟩) :: more := by
  cases n with
  | zero => simp [properties] at h
  | succ n =>
    simp only [properties, Verdict.yields_bind, Verdict.yields_pure] at h
    obtain ⟨more, hmore, rfl⟩ := h
    exact ⟨n, more, hmore, rfl⟩

end Chain

/-- What is left of the narrower class. On one side it is walked along; on the other its properties
`ps'` have been listed, and a name stands for each of them. -/
structure Offers (images : List (Name × Name)) (ps : List (Name × Property)) (ρ : Renaming)
    (s : Solution) (ctx : Context) (sub : Chain) (s' : Solution) (ctx' : Context) (sub' : Chain)
    (ps' : List (Name × Property)) : Prop
    extends SoundlyPaired ρ s ctx s' ctx' where
  similar : sub.Similar ρ sub'
  chain : sub.WellFormed False
  chain' : sub'.WellFormed False
  yields : ∃ n, (sub'.properties n images).Yields ps'
  lookup : ∀ q ∈ ps', ps.lookup q.1 = some q.2
  distinct : ∀ j k x, images.lookup j = some x → images.lookup k = some x → j = k
  image : ∀ q ∈ ps', ∃ x, images.lookup q.1 = some x ∧ x ∈ s'.names ∧ s'.find x = none ∧
    (∀ y, ¬ ρ y x) ∧ (q.2.value = none → ctx'.entry x = some ⟨x, x, q.2.type, none⟩)

namespace Offers

variable {images : List (Name × Name)} {ps ps' more : List (Name × Property)} {ρ : Renaming}
  {s s₁ s' s₁' : Solution} {ctx ctx' : Context} {sub sub' : Chain} {k x' : Name} {b b' v v' : Value}
  {rest rest' : Closure} {n : Nat}

theorem congr (h : Offers images ps ρ s ctx sub s' ctx' sub' ps')
    (hp : SoundlyPaired ρ s₁ ctx s₁' ctx') (hnames : s'.names ⊆ s₁'.names)
    (hfind : ∀ q ∈ ps', ∀ x, images.lookup q.1 = some x → s₁'.find x = s'.find x) :
    Offers images ps ρ s₁ ctx sub s₁' ctx' sub' ps' :=
  { h with
    toSoundlyPaired := hp
    image := fun q hq => by
      obtain ⟨x, hx, hmem, hnone, hrest⟩ := h.image q hq
      exact ⟨x, hx, hnames hmem, (hfind q hq x hx).trans hnone, hrest⟩ }

theorem beyond (h : Offers images ps ρ s ctx sub s' ctx' sub' ps')
    (hp : SoundlyPaired ρ s₁ ctx s₁' ctx') (hbeyond : s'.Beyond (s'.usedNames ctx') s₁') :
    Offers images ps ρ s₁ ctx sub s₁' ctx' sub' ps' := by
  refine h.congr hp hbeyond.names fun q hq x hx => ?_
  obtain ⟨y, hy, hmem, -⟩ := h.image q hq
  cases hx.symm.trans hy
  exact hbeyond.find x (List.mem_append_right _ hmem)

theorem nodup (h : Offers images ps ρ s ctx sub s' ctx' sub' ps') : (ps'.map Prod.fst).Nodup := by
  obtain ⟨n, hn⟩ := h.yields
  rw [(Chain.properties_wellFormed hn h.chain').1]
  exact Chain.nodup_classLabels h.chain'

/-- The names of the properties to come are other ones. -/
theorem ne_image {p : Property} (h : Offers images ps ρ s ctx sub s' ctx' sub' ((k, p) :: more))
    (hx' : images.lookup k = some x') {q : Name × Property} (hq : q ∈ more) {x : Name}
    (hx : images.lookup q.1 = some x) : x ≠ x' := by
  rintro rfl
  have hlabel := h.distinct _ _ x hx hx'
  exact (List.nodup_cons.1 h.nodup).1 (List.mem_map.2 ⟨q, hq, hlabel⟩)

/-- Past a property that is left open: it is a parameter on both sides. -/
theorem declared
    (h : Offers images ps ρ s ctx (.declared k b rest) s' ctx' (.declared k b' rest')
      ((k, ⟨b', none⟩) :: more)) (hx' : images.lookup k = some x') {d' : Chain}
    (hd' : rest'.applyChain n (.variable b' x') = .ok d')
    (hmore : (d'.properties n images).Yields more) :
    ∃ ρ' : Renaming, (∀ y y', ρ y y' → ρ' y y') ∧ ρ' (s.freshName ctx rest.x) x' ∧
      ∃ d, rest.applyChain n (s.witness ctx rest.x b).2 = .ok d ∧
        Offers images ps ρ' s (s.witness ctx rest.x b).1 d s' ctx' d' more := by
  obtain ⟨-, -, hb, hrest⟩ := Chain.all_declared.1 h.chain
  obtain ⟨-, -, hb', hrest'⟩ := Chain.all_declared.1 h.chain'
  obtain ⟨x, hx, hmem, hnone, houtside, hentry⟩ := h.image _ List.mem_cons_self
  cases hx'.symm.trans hx
  have hsimilar := h.similar
  cases hsimilar with
  | declared hbb' hrest'' =>
    obtain ⟨hle, hp⟩ :=
      h.bind (s.freshName_not_mem ctx rest.x) hmem hnone (hentry rfl) houtside hb hbb'
        (s.freshName ctx rest.x)
    have hvar : (s.witness ctx rest.x b).2.Similar (ρ.under (s.freshName ctx rest.x) x')
        (.variable b' x') :=
      .neutral (hbb'.mono hle) (.var (.inl ⟨rfl, rfl⟩))
    obtain ⟨d, hd, hdd'⟩ := Closure.opened (hrest''.mono hle) (.inl hvar) hd'
    refine ⟨_, hle, .inl ⟨rfl, rfl⟩, d, hd,
      ⟨hp, hdd', ?_, ?_, ⟨n, hmore⟩, ?_, h.distinct, fun q hq => ?_⟩⟩
    · exact Closure.applyChain_all hd hrest (Value.WellFormed.variable hb _)
    · exact Closure.applyChain_all hd' hrest' (Value.WellFormed.variable hb' x')
    · exact fun q hq => h.lookup q (List.mem_cons_of_mem _ hq)
    · obtain ⟨y, hy, hmem, hnone, houtside, hentry⟩ := h.image q (List.mem_cons_of_mem _ hq)
      refine ⟨y, hy, hmem, hnone, ?_, hentry⟩
      rintro z (⟨-, heq⟩ | ⟨-, -, hz⟩)
      · exact h.ne_image hx' hq hy heq
      · exact houtside z hz

/-- Past a property that is fulfilled. -/
theorem fulfilled
    (h : Offers images ps ρ s ctx (.fulfilled k b v sub) s' ctx' (.fulfilled k b' v' sub')
      ((k, ⟨b', some v'⟩) :: more)) (hmore : (sub'.properties n images).Yields more) : Offers images
      ps ρ s ctx sub s' ctx' sub' more := by
  have hsimilar := h.similar
  cases hsimilar with
  | fulfilled _ _ hsub =>
    exact { h with
      similar := hsub
      chain := (Chain.all_fulfilled.1 h.chain).2.2.2
      chain' := (Chain.all_fulfilled.1 h.chain').2.2.2
      yields := ⟨n, hmore⟩
      lookup := fun q hq => h.lookup q (List.mem_cons_of_mem _ hq)
      image := fun q hq => h.image q (List.mem_cons_of_mem _ hq) }

end Offers

structure Asks (images : List (Name × Name)) (ρ : Renaming) (super super' : Chain)
    (qs : List (Name × Property)) : Prop where
  similar : super.Similar ρ super'
  chain : super.WellFormed False
  chain' : super'.WellFormed False
  yields : ∃ n, (super'.properties n images).Yields qs

theorem Term.Alike.classLabels {θ : Renaming} {t t' : Term} (h : t.Alike θ t') :
    t.classLabels = t'.classLabels := by
  induction h with
  | declared _ _ _ ih | fulfilled _ _ _ _ _ ih => rw [Term.classLabels, Term.classLabels, ih]
  | _ => rfl

theorem Chain.classLabels_similar {ρ : Renaming} :
    {c c' : Chain} → c.Similar ρ c' → c.classLabels = c'.classLabels
  | .nil, _, h => by
    cases h
    rfl
  | .declared _ _ _, _, h => by
    cases h with
    | declared _ hrest =>
      cases hrest with
      | closure halike => rw [classLabels, classLabels, halike.classLabels]
  | .fulfilled _ _ _ _, _, h => by
    cases h with
    | fulfilled _ _ hrest => rw [classLabels, classLabels, classLabels_similar hrest]

/-- The wider class does not depend on what it is opened at: a property that both classes leave open
has the same type in both, or nothing follows from it in the wider class; nothing follows there from
one that only the narrower class fulfils; and one that both fulfil has the same type in both. -/
inductive Chain.Aligned : Chain → Chain → Prop
  | nil {sub : Chain} : Aligned sub .nil
  | missing {sub super : Chain} {k : Name} : k ∈ super.classLabels → k ∉ sub.classLabels →
      Aligned sub super
  | passDeclared {k : Name} {b : Value} {rest : Closure} {super : Chain} : k ∉ super.classLabels →
      (∀ n x d, rest.applyChain n (.variable b x) = .ok d → Aligned d super) →
        Aligned (.declared k b rest) super
  | passFulfilled {k : Name} {b v : Value} {sub super : Chain} : k ∉ super.classLabels →
      Aligned sub super →
      Aligned (.fulfilled k b v sub) super
  | declared {k : Name} {b a : Value} {rest rest' : Closure} : b.Similar Eq a ∨ rest'.IsConstant →
      (∀ n x d e, rest.applyChain n (.variable b x) = .ok d →
        rest'.applyChain n (.variable b x) = .ok e → Aligned d e) →
      Aligned (.declared k b rest) (.declared k a rest')
  | fixed {k : Name} {b v a : Value} {sub : Chain} {rest' : Closure} : rest'.IsConstant →
      (∀ n e, rest'.applyChain n v = .ok e → Aligned sub e) →
        Aligned (.fulfilled k b v sub) (.declared k a rest')
  | unfixed {k : Name} {b a w : Value} {rest : Closure} {super : Chain} :
      Aligned (.declared k b rest) (.fulfilled k a w super)
  | fulfilled {k : Name} {b v a w : Value} {sub super : Chain} : b.Similar Eq a →
      Aligned sub super →
      Aligned (.fulfilled k b v sub) (.fulfilled k a w super)

namespace Asks

variable {images : List (Name × Name)} {ρ ρ' : Renaming} {super super' : Chain}
  {qs more : List (Name × Property)} {k : Name} {a a' v v' w w' : Value}
  {rest rest' : Closure} {n : Nat}

theorem mono (h : Asks images ρ super super' qs) (hle : ∀ y y', ρ y y' → ρ' y y') :
    Asks images ρ' super super' qs :=
  { h with similar := h.similar.mono hle }

theorem labels (h : Asks images ρ super super' qs) : qs.map Prod.fst = super.classLabels := by
  obtain ⟨n, hn⟩ := h.yields
  rw [(Chain.properties_wellFormed hn h.chain').1, Chain.classLabels_similar h.similar]

/-- Past a property that is left open. -/
theorem declared
    (h : Asks images ρ (.declared k a rest) (.declared k a' rest') ((k, ⟨a', none⟩) :: more))
    (hv : v.Similar ρ v' ∨ rest.IsConstant) (hvWF : v.WellFormed False)
    (hvWF' : v'.WellFormed False) {e' : Chain} (he' : rest'.applyChain n v' = .ok e')
    (hmore : (e'.properties n images).Yields more) :
    ∃ e, rest.applyChain n v = .ok e ∧ Asks images ρ e e' more := by
  have hsimilar := h.similar
  cases hsimilar with
  | declared _ hrest =>
    obtain ⟨e, he, hee'⟩ := Closure.opened hrest hv he'
    refine ⟨e, he, hee', ?_, ?_, ⟨n, hmore⟩⟩
    · exact Closure.applyChain_all he (Chain.all_declared.1 h.chain).2.2.2 hvWF
    · exact Closure.applyChain_all he' (Chain.all_declared.1 h.chain').2.2.2 hvWF'

theorem fulfilled
    (h : Asks images ρ (.fulfilled k a w super) (.fulfilled k a' w' super')
      ((k, ⟨a', some w'⟩) :: more)) (hmore : (super'.properties n images).Yields more) :
      Asks images ρ super super' more := by
  have hsimilar := h.similar
  cases hsimilar with
  | fulfilled _ _ hsuper =>
    exact ⟨hsuper, (Chain.all_fulfilled.1 h.chain).2.2.2,
      (Chain.all_fulfilled.1 h.chain').2.2.2, ⟨n, hmore⟩⟩

end Asks

theorem Offers.labels {images : List (Name × Name)} {ps ps' : List (Name × Property)} {ρ : Renaming}
    {s s' : Solution} {ctx ctx' : Context} {sub sub' : Chain}
    (h : Offers images ps ρ s ctx sub s' ctx' sub' ps') :
    ps'.map Prod.fst = sub.classLabels := by
  obtain ⟨n, hn⟩ := h.yields
  rw [(Chain.properties_wellFormed hn h.chain').1, Chain.classLabels_similar h.similar]

open Chain (IncludedInStep)
open Property (AllIncluded)

/-- A walk along what is left of two classes succeeds exactly if all the properties that are left
are included. -/
def WalksAlike (images : List (Name × Name)) (ps : List (Name × Property)) (ctx' : Context)
    (sub super : Chain) : Prop :=
  ∀ ⦃ρ s ctx s' sub' super' ps' qs⦄, Offers images ps ρ s ctx sub s' ctx' sub' ps' →
    Asks images ρ super super' qs →
    (qs.map Prod.fst).Sublist (ps'.map Prod.fst) →
      (IncludedInStep s ctx sub super ↔ AllIncluded s' ctx' images ps qs)

namespace WalksAlike

variable {images : List (Name × Name)} {ps : List (Name × Property)} {ctx' : Context}
  {sub super : Chain} {k : Name} {a b v w : Value} {rest rest' : Closure}

theorem nil : WalksAlike images ps ctx' sub .nil := by
  intro ρ s ctx s' sub' super' ps' qs _ hasks _
  have hlabels := hasks.labels
  cases qs with
  | nil =>
    exact iff_of_true (Chain.inStep_nil s ctx sub) (Property.allIncluded_nil s' ctx' images ps)
  | cons => simp [Chain.classLabels] at hlabels

theorem missing (hk : k ∈ super.classLabels) (hsub : k ∉ sub.classLabels) :
    WalksAlike images ps ctx' sub super := by
  intro ρ s ctx s' sub' super' ps' qs hoffers hasks hlabels
  rw [hoffers.labels, hasks.labels] at hlabels
  exact absurd (hlabels.subset hk) hsub

theorem passDeclared (hk : k ∉ super.classLabels)
    (ih : ∀ n x d, rest.applyChain n (.variable b x) = .ok d → WalksAlike images ps ctx' d super) :
    WalksAlike images ps ctx' (.declared k b rest) super := by
  intro ρ s ctx s' sub' super' ps' qs hoffers hasks hlabels
  have hsimilar := hoffers.similar
  cases hsimilar with
  | declared _ _ =>
    obtain ⟨n, hn⟩ := hoffers.yields
    obtain ⟨x', m, d', more, hx', hd', hmore, rfl⟩ := Chain.properties_declared hn
    obtain ⟨ρ', hle, -, d, hd, hnext⟩ := hoffers.declared hx' hd' hmore
    rw [Chain.inStep_pass_declared hk hd]
    refine ih m _ d hd hnext (hasks.mono hle) ?_
    rcases List.sublist_cons_iff.1 hlabels with hlabels | ⟨l, hl, -⟩
    · exact hlabels
    · rw [hasks.labels] at hl
      exact absurd (hl ▸ List.mem_cons_self) hk

theorem passFulfilled (hk : k ∉ super.classLabels) (ih : WalksAlike images ps ctx' sub super) :
    WalksAlike images ps ctx' (.fulfilled k b v sub) super := by
  intro ρ s ctx s' sub' super' ps' qs hoffers hasks hlabels
  have hsimilar := hoffers.similar
  cases hsimilar with
  | fulfilled _ _ _ =>
    obtain ⟨n, hn⟩ := hoffers.yields
    obtain ⟨m, more, hmore, rfl⟩ := Chain.properties_fulfilled hn
    rw [Chain.inStep_pass_fulfilled hk]
    refine ih (hoffers.fulfilled hmore) hasks ?_
    rcases List.sublist_cons_iff.1 hlabels with hlabels | ⟨l, hl, -⟩
    · exact hlabels
    · rw [hasks.labels] at hl
      exact absurd (hl ▸ List.mem_cons_self) hk

theorem declared (hsame : b.Similar Eq a ∨ rest'.IsConstant)
    (ih : ∀ n x d e, rest.applyChain n (.variable b x) = .ok d →
      rest'.applyChain n (.variable b x) = .ok e →
      WalksAlike images ps ctx' d e) :
    WalksAlike images ps ctx' (.declared k b rest) (.declared k a rest') := by
  intro ρ s ctx s' sub' super' ps' qs hoffers hasks hlabels
  have hsubSimilar := hoffers.similar
  have hsuperSimilar := hasks.similar
  cases hsubSimilar with
  | @declared _ _ b' _ subRest hbb' _ =>
    cases hsuperSimilar with
    | @declared _ _ a' _ superRest haa' _ =>
      obtain ⟨-, -, hb, -⟩ := Chain.all_declared.1 hoffers.chain
      obtain ⟨-, -, hb', -⟩ := Chain.all_declared.1 hoffers.chain'
      obtain ⟨-, -, ha, -⟩ := Chain.all_declared.1 hasks.chain
      obtain ⟨-, -, ha', -⟩ := Chain.all_declared.1 hasks.chain'
      obtain ⟨n, hn⟩ := hoffers.yields
      obtain ⟨x', m, d', more, hx', hd', hmore, rfl⟩ := Chain.properties_declared hn
      obtain ⟨i, hi⟩ := hasks.yields
      obtain ⟨y', j, e', asked, hy', he', hasked, rfl⟩ := Chain.properties_declared hi
      cases hx'.symm.trans hy'
      have hnext {s₁ s₁' : Solution} (hp : SoundlyPaired ρ s₁ ctx s₁' ctx')
          (hbeyond : s'.Beyond (s'.usedNames ctx') s₁') :
          ∃ i d e, rest.applyChain i (s₁.witness ctx rest.x b).2 = .ok d ∧
            rest'.applyChain i (s₁.witness ctx rest.x b).2 = .ok e ∧
            (IncludedInStep s₁ (s₁.witness ctx rest.x b).1 d e ↔
                AllIncluded s₁' ctx' images ps asked) := by
        obtain ⟨ρ', hle, hxx', d, hd, hoffers₁⟩ :=
          (hoffers.beyond hp hbeyond).declared hx' hd' hmore
        have hopened : (s₁.witness ctx rest.x b).2.Similar ρ' (.variable a' x') ∨
            rest'.IsConstant :=
          hsame.imp_left fun hba => .neutral ((hba.of_eq haa').mono hle) (.var hxx')
        obtain ⟨e, he, hasks₁⟩ := (hasks.mono hle).declared hopened (Value.WellFormed.variable hb _)
          (Value.WellFormed.variable ha' x') he' hasked
        obtain ⟨i, hd, he⟩ :=
          ((Chain.eventually_applyChain hd).and (Chain.eventually_applyChain he)).exists
        exact ⟨i, d, e, hd, he, ih i _ d e hd he hoffers₁ hasks₁ (List.cons_sublist_cons.1 hlabels)⟩
      constructor
      · intro h
        obtain ⟨n, s₁, h₁, m, d, e, hd, he, h⟩ := Chain.inStep_declared.1 h
        obtain ⟨s₁', h₁', hp, -, hbeyond⟩ := hoffers.inclusion hb hb' ha ha' hbb' haa' h₁
        obtain ⟨i, d₁, e₁, hd₁, he₁, hiff⟩ := hnext hp hbeyond
        cases Eval.eq_of_ok (fun n => rest.applyChain_grows n _) hd hd₁
        cases Eval.eq_of_ok (fun n => rest'.applyChain_grows n _) he he₁
        exact Property.allIncluded_cons.2 ⟨_, hoffers.lookup _ List.mem_cons_self, n, s₁',
          Property.yields_declared.2 h₁', hiff.1 h⟩
      · intro h
        obtain ⟨p, hp, n, s₁', h₁', h⟩ := Property.allIncluded_cons.1 h
        cases (hoffers.lookup _ List.mem_cons_self).symm.trans hp
        obtain ⟨s₁, h₁, hp, hbeyond, -⟩ :=
          hoffers.symm.inclusion hb' hb ha' ha hbb'.symm haa'.symm (Property.yields_declared.1 h₁')
        obtain ⟨i, d, e, hd, he, hiff⟩ := hnext hp.symm hbeyond
        exact Chain.inStep_declared.2 ⟨n, s₁, h₁, i, d, e, hd, he, hiff.2 h⟩

theorem fixed (hconstant : rest'.IsConstant)
    (ih : ∀ n e, rest'.applyChain n v = .ok e → WalksAlike images ps ctx' sub e) :
    WalksAlike images ps ctx' (.fulfilled k b v sub) (.declared k a rest') := by
  intro ρ s ctx s' sub' super' ps' qs hoffers hasks hlabels
  have hsubSimilar := hoffers.similar
  have hsuperSimilar := hasks.similar
  cases hsubSimilar with
  | @fulfilled _ _ b' _ v' _ sub' hbb' hvv' _ =>
    cases hsuperSimilar with
    | @declared _ _ a' _ superRest haa' _ =>
      obtain ⟨-, hb, hv, -⟩ := Chain.all_fulfilled.1 hoffers.chain
      obtain ⟨-, hb', hv', -⟩ := Chain.all_fulfilled.1 hoffers.chain'
      obtain ⟨-, -, ha, -⟩ := Chain.all_declared.1 hasks.chain
      obtain ⟨-, -, ha', -⟩ := Chain.all_declared.1 hasks.chain'
      obtain ⟨n, hn⟩ := hoffers.yields
      obtain ⟨m, more, hmore, rfl⟩ := Chain.properties_fulfilled hn
      obtain ⟨i, hi⟩ := hasks.yields
      obtain ⟨x', j, e', asked, hx', he', hasked, rfl⟩ := Chain.properties_declared hi
      obtain ⟨e, he, hasks₁⟩ :=
        hasks.declared (v := v) (.inr hconstant) hv (Value.WellFormed.variable ha' x') he' hasked
      obtain ⟨x, hx, hmem, hnone, houtside, -⟩ := hoffers.image _ List.mem_cons_self
      cases hx'.symm.trans hx
      have hnext {s₂ s₂' : Solution} (hp : SoundlyPaired ρ s₂ ctx s₂' ctx')
          (hbeyond : ∀ used ⊆ s'.usedNames ctx', x' ∉ used → s'.Beyond used s₂') :
          IncludedInStep s₂ ctx sub e ↔ AllIncluded s₂' ctx' images ps asked := by
        refine ih j e he
          ((hoffers.fulfilled hmore).congr hp (hbeyond [] (by simp) (by simp)).names ?_) hasks₁
          (List.cons_sublist_cons.1 hlabels)
        intro q hq y hy
        obtain ⟨z, hz, hmem, -⟩ := hoffers.image q (List.mem_cons_of_mem _ hq)
        cases hy.symm.trans hz
        have hne : x' ∉ [y] := fun heq => hoffers.ne_image hx' hq hy (List.mem_singleton.1 heq).symm
        have hused : [y] ⊆ s'.usedNames ctx' :=
          fun z hz => List.mem_singleton.1 hz ▸ List.mem_append_right _ hmem
        exact (hbeyond [y] hused hne).find y List.mem_cons_self
      have hfresh {s₁ s₁' : Solution} (hp : SoundlyPaired ρ s₁ ctx s₁' ctx') :
          s₁.find (s₁.freshName ctx k) = none ∧ ∀ y', ¬ ρ (s₁.freshName ctx k) y' :=
        ⟨hp.sound.find_eq_none (s₁.freshName_not_mem_names ctx k), fun y' hy =>
          s₁.freshName_not_mem ctx k (hp.paired.mem _ y' hy).1⟩
      have hfree {s₁' : Solution} (hbeyond : s'.Beyond (s'.usedNames ctx') s₁') :
          s₁'.find x' = none :=
        (hbeyond.find x' (List.mem_append_right _ hmem)).trans hnone
      constructor
      · intro h
        obtain ⟨n, s₁, s₂, h₁, h₂, m, d, hd, h⟩ := Chain.inStep_fixed.1 h
        obtain ⟨s₁', h₁', hp₁, -, hbeyond⟩ := hoffers.inclusion hb hb' ha ha' hbb' haa' h₁
        obtain ⟨s₂', h₂', hp₂, -, hbeyond₂⟩ :=
          hp₁.created (hfresh hp₁).1 (hfree hbeyond) (hfresh hp₁).2 houtside hb hb' hv
            hv' hbb' hvv' h₂
        cases Eval.eq_of_ok (fun n => rest'.applyChain_grows n v) hd he
        refine Property.allIncluded_cons.2 ⟨_, hoffers.lookup _ List.mem_cons_self, n, s₂',
          Property.yields_fixed.2 ⟨s₁', x', h₁', hx', h₂'⟩,
          (hnext hp₂ fun used hused hnot => ?_).1 h⟩
        exact (hbeyond.mono hused).trans (hbeyond₂ used hnot)
      · intro h
        obtain ⟨p, hp, n, s₂', h₂', h⟩ := Property.allIncluded_cons.1 h
        cases (hoffers.lookup _ List.mem_cons_self).symm.trans hp
        obtain ⟨s₁', y, h₁', hy, h₂'⟩ := Property.yields_fixed.1 h₂'
        cases hx'.symm.trans hy
        obtain ⟨s₁, h₁, hp₁, hbeyond, -⟩ :=
          hoffers.symm.inclusion hb' hb ha' ha hbb'.symm haa'.symm h₁'
        obtain ⟨s₂, h₂, hp₂, hbeyond₂, -⟩ :=
          hp₁.created (hfree hbeyond) (hfresh hp₁.symm).1 houtside (hfresh hp₁.symm).2
          hb' hb hv' hv hbb'.symm hvv'.symm h₂'
        refine Chain.inStep_fixed.2 ⟨n, s₁, s₂, h₁, h₂, j, e, he,
          (hnext hp₂.symm fun used hused hnot => ?_).2 h⟩
        exact (hbeyond.mono hused).trans (hbeyond₂ used hnot)

theorem unfixed : WalksAlike images ps ctx' (.declared k b rest) (.fulfilled k a w super) := by
  intro ρ s ctx s' sub' super' ps' qs hoffers hasks _
  have hsubSimilar := hoffers.similar
  have hsuperSimilar := hasks.similar
  cases hsubSimilar with
  | declared _ _ =>
    cases hsuperSimilar with
    | fulfilled _ _ _ =>
      obtain ⟨n, hn⟩ := hoffers.yields
      obtain ⟨x', m, d', more, -, -, -, rfl⟩ := Chain.properties_declared hn
      obtain ⟨i, hi⟩ := hasks.yields
      obtain ⟨j, asked, -, rfl⟩ := Chain.properties_fulfilled hi
      refine iff_of_false Chain.not_inStep_unfixed fun h => ?_
      obtain ⟨p, hp, n, s₁, h₁, -⟩ := Property.allIncluded_cons.1 h
      cases (hoffers.lookup _ List.mem_cons_self).symm.trans hp
      exact Property.not_yields_unfixed h₁

theorem fulfilled (hba : b.Similar Eq a) (ih : WalksAlike images ps ctx' sub super) :
    WalksAlike images ps ctx' (.fulfilled k b v sub) (.fulfilled k a w super) := by
  intro ρ s ctx s' sub' super' ps' qs hoffers hasks hlabels
  have hsubSimilar := hoffers.similar
  have hsuperSimilar := hasks.similar
  cases hsubSimilar with
  | @fulfilled _ _ b' _ v' _ sub' hbb' hvv' _ =>
    cases hsuperSimilar with
    | @fulfilled _ _ a' _ w' _ super' haa' hww' _ =>
      obtain ⟨-, hb, hv, -⟩ := Chain.all_fulfilled.1 hoffers.chain
      obtain ⟨-, hb', hv', -⟩ := Chain.all_fulfilled.1 hoffers.chain'
      obtain ⟨-, ha, hw, -⟩ := Chain.all_fulfilled.1 hasks.chain
      obtain ⟨-, ha', hw', -⟩ := Chain.all_fulfilled.1 hasks.chain'
      obtain ⟨n, hn⟩ := hoffers.yields
      obtain ⟨m, more, hmore, rfl⟩ := Chain.properties_fulfilled hn
      obtain ⟨i, hi⟩ := hasks.yields
      obtain ⟨j, asked, hasked, rfl⟩ := Chain.properties_fulfilled hi
      have hba' := hba.of_eq haa'
      have hnext {s₁' s₂ s₂' : Solution} (hbeyond₁ : s'.Beyond (s'.usedNames ctx') s₁')
          (hp : SoundlyPaired ρ s₂ ctx s₂' ctx') (hbeyond : s₁'.Beyond (s₁'.usedNames ctx') s₂') :
          IncludedInStep s₂ ctx sub super ↔ AllIncluded s₂' ctx' images ps asked := by
        have hused : s'.usedNames ctx' ⊆ s₁'.usedNames ctx' :=
          Solution.usedNames_subset (fun _ => id) hbeyond₁.names
        exact ih ((hoffers.fulfilled hmore).beyond hp (hbeyond₁.trans (hbeyond.mono hused)))
          (hasks.fulfilled hasked) (List.cons_sublist_cons.1 hlabels)
      constructor
      · intro h
        obtain ⟨n, s₁, s₂, h₁, h₂, h⟩ := Chain.inStep_fulfilled.1 h
        obtain ⟨s₁', h₁', hp₁, -, hbeyond₁⟩ := hoffers.inclusion hb hb' ha ha' hbb' haa' h₁
        obtain ⟨s₂', h₂', hp₂, -, hbeyond₂⟩ := hp₁.unify hb ha' hw hw' hv hv' hba' hww' hvv' h₂
        exact Property.allIncluded_cons.2 ⟨_, hoffers.lookup _ List.mem_cons_self, n, s₂',
          Property.yields_fulfilled.2 ⟨s₁', h₁', h₂'⟩, (hnext hbeyond₁ hp₂ hbeyond₂).1 h⟩
      · intro h
        obtain ⟨p, hp, n, s₂', h₂', h⟩ := Property.allIncluded_cons.1 h
        cases (hoffers.lookup _ List.mem_cons_self).symm.trans hp
        obtain ⟨s₁', h₁', h₂'⟩ := Property.yields_fulfilled.1 h₂'
        obtain ⟨s₁, h₁, hp₁, hbeyond₁, -⟩ :=
          hoffers.symm.inclusion hb' hb ha' ha hbb'.symm haa'.symm h₁'
        obtain ⟨s₂, h₂, hp₂, hbeyond₂, -⟩ :=
          hp₁.unify ha' hb hw' hw hv' hv hba'.symm hww'.symm hvv'.symm h₂'
        exact Chain.inStep_fulfilled.2 ⟨n, s₁, s₂, h₁, h₂, (hnext hbeyond₁ hp₂.symm hbeyond₂).2 h⟩

theorem of_aligned (h : sub.Aligned super) : WalksAlike images ps ctx' sub super := by
  induction h with
  | nil => exact nil
  | missing hk hsub => exact missing hk hsub
  | passDeclared hk _ ih => exact passDeclared hk ih
  | passFulfilled hk _ ih => exact passFulfilled hk ih
  | declared hsame _ ih => exact declared hsame ih
  | fixed hconstant _ ih => exact fixed hconstant ih
  | unfixed => exact unfixed
  | fulfilled hba _ ih => exact fulfilled hba ih

end WalksAlike

section

variable {s : Solution} {ctx inner : Context} {sub super : Chain} {images : List (Name × Name)}
  {ps : List (Name × Property)} {n : Nat}

/-- A class whose labels can be listed has properties, whatever the names that stand for them. -/
theorem Chain.exists_properties {c c' : Chain} {ks : List Name}
    (hc : c.Similar (fun _ _ => True) c') (h : c.labels n = .ok ks)
    (himages : ∀ k ∈ ks, ∃ x, images.lookup k = some x) :
        ∃ ps, (c'.properties n images).Yields ps := by
  induction n generalizing c c' ks with
  | zero => simp [labels] at h
  | succ n ih =>
    cases hc with
    | nil => exact ⟨[], by simp [properties]⟩
    | @declared k a a' rest rest' ha hrest =>
      simp only [labels, Eval.bind_eq_ok, Eval.pure_eq_ok] at h
      obtain ⟨d, hd, more, hmore, rfl⟩ := h
      obtain ⟨x, hx⟩ := himages k List.mem_cons_self
      have hvar : (Value.variable a rest.x).Similar (fun _ _ => True) (.variable a' x) :=
        .neutral ha (.var trivial)
      obtain ⟨d', hd', hdd'⟩ := Closure.applyChain_similar hrest hvar d hd
      obtain ⟨ps, hps⟩ := ih hdd' hmore fun j hj => himages j (List.mem_cons_of_mem _ hj)
      simp only [properties, Verdict.yields_bind, Verdict.yields_lift, Verdict.yields_pure,
        Property.yields_image]
      exact ⟨_, x, hx, d', hd', ps, hps, rfl⟩
    | fulfilled _ _ hrest =>
      simp only [labels, Eval.bind_eq_ok, Eval.pure_eq_ok] at h
      obtain ⟨more, hmore, rfl⟩ := h
      obtain ⟨ps, hps⟩ := ih hrest hmore fun j hj => himages j (List.mem_cons_of_mem _ hj)
      simp only [properties, Verdict.yields_bind, Verdict.yields_pure]
      exact ⟨_, ps, hps, rfl⟩

/-- Only the names that stand for the properties are bound. -/
theorem Property.bindAll_entry_of_ne (h : (bindAll images ctx ps).Yields inner) {y : Name}
    (hy : ∀ q ∈ ps, images.lookup q.1 ≠ some y) : inner.entry y = ctx.entry y := by
  induction ps generalizing ctx with
  | nil =>
    rw [bindAll, Verdict.yields_pure] at h
    rw [h]
  | cons q ps ih =>
    obtain ⟨k, p⟩ := q
    have hrest : ∀ q ∈ ps, images.lookup q.1 ≠ some y :=
      fun q hq => hy q (List.mem_cons_of_mem _ hq)
    unfold bindAll at h
    split at h
    · exact ih h hrest
    · obtain ⟨x, hx, h⟩ := Verdict.yields_bind.1 h
      have hne : x ≠ y := fun heq => hy _ List.mem_cons_self (heq ▸ yields_image.1 hx)
      rw [ih h hrest, Context.entry, Context.bind, List.find?_cons_of_neg (by simpa using hne)]

/-- Each unfulfilled property is a parameter of its type. -/
theorem Property.bindAll_entry (h : (bindAll images ctx ps).Yields inner)
    (hlabels : (ps.map Prod.fst).Nodup)
    (hdistinct : ∀ j k x, images.lookup j = some x → images.lookup k = some x → j = k) {k x : Name}
    {b : Value} (hk : (k, ⟨b, none⟩) ∈ ps) (hx : images.lookup k = some x) : inner.entry x = some
        ⟨x, x, b, none⟩ := by
  induction ps generalizing ctx with
  | nil => cases hk
  | cons q ps ih =>
    obtain ⟨hnot, hrest⟩ := List.nodup_cons.1 hlabels
    rcases List.mem_cons.1 hk with rfl | hmem
    · obtain ⟨y, hy, h⟩ := Verdict.yields_bind.1 h
      cases hx.symm.trans (yields_image.1 hy)
      rw [bindAll_entry_of_ne h fun q hq heq =>
        hnot (List.mem_map.2 ⟨q, hq, hdistinct _ _ x heq hx⟩)]
      simp [Context.entry, Context.bind]
    · obtain ⟨j, p⟩ := q
      unfold bindAll at h
      split at h
      · exact ih h hrest hmem
      · obtain ⟨y, -, h⟩ := Verdict.yields_bind.1 h
        exact ih h hrest hmem

/-- The variables of two classes, and those of what is known of such variables. -/
inductive Solution.Concerns (s : Solution) (ctx : Context) (sub super : Chain) : Name → Prop
  | sub {y : Name} : sub.Has (.name y) → Concerns s ctx sub super y
  | super {y : Name} : super.Has (.name y) → Concerns s ctx sub super y
  | solution {x y : Name} {a v : Value} : Concerns s ctx sub super x →
      s.find x = some (.solved a v) → v.Has (.name y) →
      Concerns s ctx sub super y
  | type {x y : Name} {e : Context.Entry} : Concerns s ctx sub super x → ctx.entry x = some e →
      e.type.Has (.name y) →
      Concerns s ctx sub super y
  | value {x y : Name} {e : Context.Entry} {v : Value} : Concerns s ctx sub super x →
      ctx.entry x = some e → e.value = some v →
      v.Has (.name y) → Concerns s ctx sub super y

theorem Solution.Concerns.visible (hbuilt : WellBuilt ctx s) (hsub : sub.Over (s.Visible ctx))
    (hsuper : super.Over (s.Visible ctx)) {y : Name} (hy : s.Concerns ctx sub super y) :
    s.Visible ctx y := by
  induction hy with
  | sub hy => exact hsub _ hy
  | super hy => exact hsuper _ hy
  | solution _ hx hy _ => exact (hbuilt.solution _ _ hx).2 _ hy
  | type _ he hy _ => exact (hbuilt.context.entries_over _ (List.mem_of_find?_eq_some he)).1 _ hy
  | value _ he hv hy _ =>
    exact (hbuilt.context.entries_over _ (List.mem_of_find?_eq_some he)).2 _ hv _ hy

/-- The names that are reserved for the properties are of no concern to what is there. -/
theorem Solution.Concerns.paired (hbuilt : WellBuilt ctx s) (hsub : sub.Over (s.Visible ctx))
    (hsuper : super.Over (s.Visible ctx))
    (hsettled : ∀ x, s.Concerns ctx sub super x → s.isUnsolved x = false) (xs : List Name)
    (hnames : ctx.names ⊆ inner.names)
    (hentry : ∀ y ∈ s.usedNames ctx, inner.entry y = ctx.entry y) :
    Paired (.only (s.Concerns ctx sub super)) s ctx (s.reserve xs) inner where
  functional := by
    rintro x _ _ ⟨rfl, -⟩ ⟨rfl, -⟩
    rfl
  injective := by
    rintro _ _ y ⟨rfl, -⟩ ⟨rfl, -⟩
    rfl
  mem := by
    rintro x _ ⟨rfl, hx⟩
    have hused := hbuilt.mem_usedNames (hx.visible hbuilt hsub hsuper)
    exact ⟨hused,
      Solution.usedNames_subset hnames (fun _ hy => Solution.mem_names_reserve.2 (.inr hy)) hused⟩
  named := hbuilt.named
  named' := hbuilt.named.reserve xs
  find := by
    rintro x _ ⟨rfl, hx⟩
    rw [Solution.find_reserve]
    cases hfind : s.find x with
    | none => exact .none
    | some p =>
      cases p with
      | unsolved a scope =>
        have hsolved := hsettled x hx
        simp [Solution.isUnsolved, hfind] at hsolved
      | solved a v =>
        exact .some (.solved (v.similar_self fun y hy => ⟨rfl, .solution hx hfind hy⟩))
  settled := by
    rintro x _ ⟨rfl, hx⟩
    exact hsettled x hx
  entry := by
    rintro x _ ⟨rfl, hx⟩
    rw [hentry x (hbuilt.mem_usedNames (hx.visible hbuilt hsub hsuper))]
    cases he : ctx.entry x with
    | none => exact .none
    | some e =>
      refine .some ⟨e.type.similar_self fun y hy => ⟨rfl, .type hx he hy⟩, ?_⟩
      cases hvalue : e.value with
      | none => exact .none
      | some v => exact .some (v.similar_self fun y hy => ⟨rfl, .value hx he hvalue hy⟩)

theorem Chain.Aligned.includes_iff (h : sub.Aligned super) (hbuilt : WellBuilt ctx s)
    (hs : s.WellFormed False) (hctx : ctx.WellFormed False) (hsub : sub.WellFormed False)
    (hsuper : super.WellFormed False) (hsubOver : sub.Over (s.Visible ctx))
    (hsuperOver : super.Over (s.Visible ctx))
    (hsettled : ∀ x, s.Concerns ctx sub super x → s.isUnsolved x = false)
    (hordered : sub.isOrdered n super = .ok true) :
    (∃ n s', (includeOrdered n ctx sub super).Yields s () s') ↔
      ∃ n s', (includeUnordered n ctx sub super).Yields s () s' := by
  simp only [isOrdered, Eval.bind_eq_ok, Eval.pure_eq_ok] at hordered
  obtain ⟨among, hamong, labels, hlabels, hascending⟩ := hordered
  have himages := Name.freshImages_separate (s.usedNames ctx) (among ++ labels)
  have hgiven {k : Name} (hk : k ∈ among ++ labels) :
      ∃ x, (Name.freshImages (s.usedNames ctx) (among ++ labels)).lookup k = some x :=
    Name.exists_freshImage hk
  generalize himagesEq : Name.freshImages (s.usedNames ctx) (among ++ labels) =
    images at himages hgiven
  obtain ⟨ps, hps⟩ := Chain.exists_properties (sub.similar_self fun _ _ => trivial) hamong
    fun k hk => hgiven (List.mem_append_left _ hk)
  obtain ⟨qs, hqs⟩ := Chain.exists_properties (super.similar_self fun _ _ => trivial) hlabels
    fun k hk => hgiven (List.mem_append_right _ hk)
  obtain ⟨hpsLabels, hpsWF⟩ := Chain.properties_wellFormed hps hsub
  obtain ⟨hqsLabels, -⟩ := Chain.properties_wellFormed hqs hsuper
  have hamongEq := Chain.labels_wellFormed hamong hsub
  have hlabelsEq := Chain.labels_wellFormed hlabels hsuper
  have hbound (q : Name × Property) (hq : q ∈ ps) : ∃ x, images.lookup q.1 = some x := by
    refine hgiven (List.mem_append_left _ ?_)
    rw [hamongEq, ← hpsLabels]
    exact List.mem_map.2 ⟨q, hq, rfl⟩
  obtain ⟨inner, hinner⟩ := Property.exists_bindAll hbound ctx
  obtain ⟨hinnerWF, hnames⟩ := Property.bindAll_wellFormed hinner hctx hpsWF
  rw [includeOrdered_iff hamong hlabels,
    includeUnordered_iff hamong hlabels himagesEq hps hqs hinner]
  by_cases hall : ∀ k ∈ labels, k ∈ among
  · have hdistinct (j k x : Name) (hj : images.lookup j = some x)
        (hk : images.lookup k = some x) : j = k :=
      himages.eq_of_mem (mem_of_lookup hj) (mem_of_lookup hk)
    have hpaired : SoundlyPaired (.only (s.Concerns ctx sub super)) s ctx
        (s.reserve (images.map Prod.snd)) inner := by
      refine ⟨Solution.Concerns.paired hbuilt hsubOver hsuperOver hsettled _ hnames fun y hy => ?_,
        ⟨hbuilt.named, hs⟩, ⟨hbuilt.named.reserve _, hs⟩, hctx, hinnerWF⟩
      exact Property.bindAll_entry_of_ne hinner fun q _ hq => himages.not_mem hq hy
    have hnodup : (ps.map Prod.fst).Nodup := hpsLabels ▸ Chain.nodup_classLabels hsub
    have hoffers : Offers images ps (.only (s.Concerns ctx sub super)) s ctx sub
        (s.reserve (images.map Prod.snd)) inner sub ps := {
      hpaired with
      similar := sub.similar_self fun y hy => ⟨rfl, .sub hy⟩
      chain := hsub
      chain' := hsub
      yields := ⟨n, hps⟩
      lookup := fun q hq => lookup_of_mem hnodup hq
      distinct := hdistinct
      image := by
        rintro ⟨k, p⟩ hq
        obtain ⟨x, hx⟩ := hbound _ hq
        have hnew := himages.not_mem hx
        refine ⟨x, hx,
          Solution.mem_names_reserve.2 (.inl (List.mem_map.2 ⟨(k, x), mem_of_lookup hx, rfl⟩)), ?_,
          ?_, ?_⟩
        · exact (hbuilt.named.usedNames ctx).find_eq_none hnew
        · rintro y ⟨rfl, hy⟩
          exact hnew (hbuilt.mem_usedNames (hy.visible hbuilt hsubOver hsuperOver))
        · intro hnone
          obtain ⟨b, v⟩ := p
          cases hnone
          exact Property.bindAll_entry hinner hnodup hdistinct hq hx }
    have hasks : Asks images (.only (s.Concerns ctx sub super)) super super qs :=
      ⟨super.similar_self fun y hy => ⟨rfl, .super hy⟩, hsuper, hsuper, ⟨n, hqs⟩⟩
    rw [and_iff_right hall]
    refine WalksAlike.of_aligned h hoffers hasks ?_
    rw [hqsLabels, hpsLabels, ← hamongEq, ← hlabelsEq]
    exact Chain.sublist_of_ascending hall hascending.symm
  · refine iff_of_false (fun h => hall h.1) fun h => hall ?_
    rw [hamongEq, hlabelsEq, ← hpsLabels, ← hqsLabels]
    exact h.mem_labels

end

/-- Two classes in one order are compared in step with the same verdict as property by property, if
they are aligned and nothing that they concern waits for a solution. -/
theorem ordered_iff_unordered_of_aligned {ctx : Context} {s : Solution} (hbuilt : Built ctx s)
    (hs : s.WellFormed False) (hctx : ctx.WellFormed False) {t u : Term} (ht : t.WellFormed False)
    (hu : u.WellFormed False) {n m i : Nat} {sub super : Chain}
    (hsub : eval n (s.environment ctx) t = .ok (.classOf sub))
    (hsuper : eval m (s.environment ctx) u = .ok (.classOf super))
    (hordered : sub.isOrdered i super = .ok true)
    (hsettled : ∀ x, s.Concerns ctx sub super x → s.isUnsolved x = false)
    (haligned : sub.Aligned super) :
    (∃ n s', (includeOrdered n ctx sub super).Yields s () s') ↔
      ∃ n s', (includeUnordered n ctx sub super).Yields s () s' :=
  haligned.includes_iff hbuilt.wellBuilt hs hctx (Value.all_classOf.1 (hs.eval hctx ht hsub))
    (Value.all_classOf.1 (hs.eval hctx hu hsuper))
    (Value.all_classOf.1 (hbuilt.wellBuilt.eval_over hsub))
    (Value.all_classOf.1 (hbuilt.wellBuilt.eval_over hsuper)) hsettled hordered

namespace SelectedProperty

def a : Name := ⟨"a", 0⟩
def o : Name := ⟨"o", 0⟩
def p : Name := ⟨"p", 0⟩

/-- `class {p: Type = String}` -/
def fixing : Term := .fulfilled p p .type .string .emptyClass

/-- `class {p: Type}` -/
def leaving : Term := .declared p p .type .emptyClass

/-- `class {a: String}`, after `o` -/
def plain : Term := .declared a a .string .emptyClass

/-- `class {a: o.p}`, after `o` -/
def selecting : Term := .declared a a (.dot (.var o) p) .emptyClass

def fixingClass : Value := .classOf (.fulfilled p .type .string .nil)

def leavingClass : Value := .classOf (.declared p .type ⟨[], p, .emptyClass⟩)

def narrow : Chain := .declared o fixingClass ⟨[], o, plain⟩

/-- It selects `p` from an `o` that has it already. -/
def aligned : Chain := .declared o fixingClass ⟨[], o, selecting⟩

/-- It selects `p` from an `o` that leaves it open. -/
def wide : Chain := .declared o leavingClass ⟨[], o, selecting⟩

/-- The labels of all these classes are distinct. -/
theorem wellFormed {c rest : Term} (hc : c = fixing ∨ c = leaving)
    (hrest : rest = plain ∨ rest = selecting) :
    Term.WellFormed False (.declared o o c rest) := by
  rcases hc with rfl | rfl <;> rcases hrest with rfl | rfl <;>
    simp [Term.WellFormed, Part.WellFormed, Part.Within, Term.classLabels, Term.IsClass, fixing,
    leaving, plain, selecting, o, a, p]

theorem narrow_aligned : narrow.Aligned aligned := by
  refine .declared (.inl (fixingClass.similar_self fun _ _ => rfl)) fun n x d e hd he => ?_
  have hd' : Closure.applyChain 20 ⟨[], o, plain⟩ (.variable fixingClass x) =
      .ok (.declared a .string ⟨[(o, .variable fixingClass x)], a, .emptyClass⟩) := rfl
  have he' : Closure.applyChain 20 ⟨[], o, selecting⟩ (.variable fixingClass x) =
      .ok (.declared a .string ⟨[(o, .variable fixingClass x)], a, .emptyClass⟩) := rfl
  cases Eval.eq_of_ok (fun n => Closure.applyChain_grows n _ _) hd hd'
  cases Eval.eq_of_ok (fun n => Closure.applyChain_grows n _ _) he he'
  refine .declared (.inl .string) fun n y d e _ he => ?_
  have he' : Closure.applyChain 20 ⟨[(o, .variable fixingClass x)], a, .emptyClass⟩
      (.variable .string y) = .ok .nil := rfl
  cases Eval.eq_of_ok (fun n => Closure.applyChain_grows n _ _) he he'
  exact .nil

end SelectedProperty

open SelectedProperty in
/-- Where a selection depends on the narrower type, the two ways to compare classes differ; where
both classes have that type, they agree. -/
theorem selected_property_not_aligned :
    eval 20 [] (.declared o o fixing plain) = .ok (.classOf narrow) ∧
    eval 20 [] (.declared o o fixing selecting) = .ok (.classOf aligned) ∧
    eval 20 [] (.declared o o leaving selecting) = .ok (.classOf wide) ∧
    narrow.isOrdered 20 aligned = .ok true ∧ narrow.isOrdered 20 wide = .ok true ∧
    narrow.Aligned aligned ∧ (∃ n s', (includeOrdered n [] narrow aligned).Yields {} () s') ∧
    (∃ n s', (includeUnordered n [] narrow aligned).Yields {} () s') ∧
    (∃ n s', (includeOrdered n [] narrow wide).Yields {} () s') ∧
    (¬ ∃ n s', (includeUnordered n [] narrow wide).Yields {} () s') ∧ ¬ narrow.Aligned wide := by
  have hnarrow : eval 20 [] (.declared o o fixing plain) = .ok (.classOf narrow) := rfl
  have haligned : eval 20 [] (.declared o o fixing selecting) = .ok (.classOf aligned) := rfl
  have hwide : eval 20 [] (.declared o o leaving selecting) = .ok (.classOf wide) := rfl
  have hordered : narrow.isOrdered 20 aligned = .ok true := rfl
  have hordered' : narrow.isOrdered 20 wide = .ok true := rfl
  have hsolution : Solution.WellFormed False {} := fun x p hx => by simp at hx
  have hagree :=
    ordered_iff_unordered_of_aligned .empty hsolution (fun _ he => by cases he)
      (wellFormed (.inl rfl) (.inl rfl))
    (wellFormed (.inl rfl) (.inr rfl)) hnarrow haligned hordered (fun _ _ => rfl) narrow_aligned
  have hdiffer :=
    ordered_iff_unordered_of_aligned .empty hsolution (fun _ he => by cases he)
      (wellFormed (.inl rfl) (.inl rfl))
    (wellFormed (.inr rfl) (.inr rfl)) hnarrow hwide hordered' fun _ _ => rfl
  have hyields : (includeOrdered 20 [] narrow aligned).succeeds {} := by decide +kernel
  have hyields' : (includeOrdered 20 [] narrow wide).succeeds {} := by decide +kernel
  have hrefused : (includeUnordered 20 [] narrow wide).refuses {} := by decide +kernel
  have hincluded : ∃ n s', (includeOrdered n [] narrow aligned).Yields {} () s' := by
    obtain ⟨_, h⟩ := Solver.yields_final hyields
    exact ⟨20, _, h⟩
  have hincluded' : ∃ n s', (includeOrdered n [] narrow wide).Yields {} () s' := by
    obtain ⟨_, h⟩ := Solver.yields_final hyields'
    exact ⟨20, _, h⟩
  have hnot : ¬ ∃ n s', (includeUnordered n [] narrow wide).Yields {} () s' := fun ⟨n, s', h⟩ =>
    Solver.not_yields_of_refuses (fun n => (InclusionGrows.all n).unordered [] narrow wide)
      hrefused n () s' h
  exact ⟨hnarrow, haligned, hwide, hordered, hordered', narrow_aligned, hincluded,
    hagree.1 hincluded, hincluded', hnot, fun h => hnot ((hdiffer h).1 hincluded')⟩

end DependentClasses
