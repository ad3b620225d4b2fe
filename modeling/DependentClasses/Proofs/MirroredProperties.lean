import DependentClasses.Proofs.InclusionGrowth
import DependentClasses.Proofs.MirroredUnification

/-! The properties of two classes that differ in names. Under the names that stand for them the
properties are alike, and so are the contexts in which they are parameters. A pattern variable that
is made for the value of a property is solved at once, so that nothing waits for a solution
again. -/
namespace DependentClasses

open Solver (Mirrored)

section

variable {ρ : Renaming} {s s' : Solution} {ctx ctx' : Context} {n : Nat}

theorem Chain.labels_wellFormed {strict : Prop} {c : Chain} {ks : List Name}
    (h : c.labels n = .ok ks) (hc : c.WellFormed strict) :
    ks = c.classLabels := by
  induction n generalizing c ks with
  | zero => simp [labels] at h
  | succ n ih =>
    cases c with
    | nil =>
      simp only [labels, Eval.pure_eq_ok] at h
      rw [h, classLabels]
    | declared k a rest =>
      simp only [labels, Eval.bind_eq_ok, Eval.pure_eq_ok] at h
      obtain ⟨d, hd, more, hmore, rfl⟩ := h
      obtain ⟨-, hclass, ha, hrest⟩ := Chain.all_declared.1 hc
      rw [ih hmore (Closure.applyChain_all hd hrest (Value.WellFormed.variable ha _)), classLabels,
        Closure.applyChain_classLabels hclass hd]
    | fulfilled k a v rest =>
      simp only [labels, Eval.bind_eq_ok, Eval.pure_eq_ok] at h
      obtain ⟨more, hmore, rfl⟩ := h
      rw [ih hmore (Chain.all_fulfilled.1 hc).2.2.2, classLabels]

/-- Classes that differ in names have the same labels. -/
theorem Chain.labels_similar {c c' : Chain} (h : c.Similar ρ c') :
    Eval.Rel Eq (c.labels n) (c'.labels n) := by
  induction n generalizing ρ c c' with
  | zero => exact .outOfFuel _
  | succ n ih =>
    cases h with
    | nil => exact .pure rfl
    | @declared k a a' c c' ha hc =>
      -- the variable that a property stands for need not have a name of its own here
      have hle : ∀ y y', ρ y y' → (ρ y y' ∨ (y = c.x ∧ y' = c'.x)) := fun _ _ => .inl
      refine .bind
        (Closure.applyChain_similar (hc.mono hle) (.neutral (ha.mono hle) (.var (.inr ⟨rfl, rfl⟩))))
        fun d d' hd => ?_
      exact .bind (ih hd) fun ks ks' hks => .pure (by rw [hks])
    | fulfilled _ _ hc => exact .bind (ih hc) fun ks ks' hks => .pure (by rw [hks])

theorem Chain.isOrdered_similar {c c' d d' : Chain} (hc : c.Similar ρ c') (hd : d.Similar ρ d') :
    Eval.Rel Eq (c.isOrdered n d) (c'.isOrdered n d') := by
  refine .bind (labels_similar hc) fun ks ks' hks =>
    .bind (labels_similar hd) fun js js' hjs => .pure ?_
  rw [hks, hjs]

theorem Paired.unsolvedIn (h : Paired ρ s ctx s' ctx') {t t' : Term} (ht : t.Alike ρ t') :
    s.unsolvedIn t = [] := by
  rw [Solution.unsolvedIn, List.filter_eq_nil_iff]
  intro y hy
  obtain ⟨y', -, hyy'⟩ := ht.exists_free hy
  simp [h.settled y y' hyy']

theorem PatternSpine.solve_variable_iff {t t₁ : Solution} {x : Name} {b w : Value}
    {scope : List Name} (hx : t.find x = some (.unsolved b scope)) :
    (PatternSpine.solve n t ctx ⟨x, []⟩ w).Yields t₁ ↔ ∃ body u, t.reify n ctx w = .ok body ∧
      (checkScope t x [] scope (t.listing.arrange body.freeNames)).Yields () ∧
      eval n (t.environment ctx) body = .ok u ∧ t₁ = t.bind x u := by
  unfold solve
  simp only [parameters, abstracted, List.zip_nil_right, pure_bind, Verdict.yields_bind,
    Verdict.yields_lift, hx, Eval.pure_eq_ok, Verdict.yields_pure]
  constructor
  · rintro ⟨body, hbody, _, hscope, t', ht', u, hu, rfl⟩
    exact ⟨body, u, hbody, hscope, ht' ▸ hu, rfl⟩
  · rintro ⟨body, u, hbody, hscope, hu, rfl⟩
    exact ⟨body, hbody, (), hscope, body, rfl, u, hu, rfl⟩

/-- A pattern variable is given the value on the other side, if that is not stuck on a pattern
variable as well. -/
theorem unify_variable_iff {t t₁ : Solution} {x : Name} {b v : Value} {scope : List Name}
    (hx : t.find x = some (.unsolved b scope))
    (hv : ∀ w, v.force n t = .ok w → w.patternSpine t = none) :
    (unify (n + 1) ctx b (.variable b x) v).Yields t () t₁ ↔ ∃ b' w body u, b.force n t = .ok b' ∧
      v.force n t = .ok w ∧
      t.reify n ctx w = .ok body ∧
      (PatternSpine.checkScope t x [] scope (t.listing.arrange body.freeNames)).Yields () ∧
      eval n (t.environment ctx) body = .ok u ∧ t₁ = t.bind x u := by
  have hforce {b' : Value} (hb : b.force n t = .ok b') : (Value.variable b x).force n t =
      .ok (.variable b x) := by
    cases n with
    | zero => simp [Value.force] at hb
    | succ n => simp [Value.force, Value.variable, Neutral.resume, hx]
  have hspine : (Value.variable b x).patternSpine t = some ⟨x, []⟩ := by
    simp [Value.variable, Value.patternSpine, Neutral.patternSpine, Solution.isUnsolved, hx]
  unfold unify
  simp only [Solver.yields_bind, Solver.yields_force, Solver.yields_get]
  constructor
  · rintro ⟨b', _, ⟨hb, rfl⟩, l, _, ⟨hl, rfl⟩, w, _, ⟨hw, rfl⟩, _, _, ⟨rfl, rfl⟩, h⟩
    cases (hforce hb).symm.trans hl
    simp only [hspine, hv w hw, Solver.solvePattern, Solver.yields_bind, Solver.yields_judging,
      Solver.yields_set] at h
    obtain ⟨_, _, ⟨h, rfl⟩, rfl⟩ := h
    obtain ⟨body, u, h⟩ := (PatternSpine.solve_variable_iff hx).1 h
    exact ⟨b', w, body, u, hb, hw, h⟩
  · rintro ⟨b', w, body, u, hb, hw, h⟩
    refine ⟨b', t, ⟨hb, rfl⟩, _, t, ⟨hforce hb, rfl⟩, w, t, ⟨hw, rfl⟩, t, t, ⟨rfl, rfl⟩, ?_⟩
    simp only [hspine, hv w hw, Solver.solvePattern, Solver.yields_bind, Solver.yields_judging,
      Solver.yields_set]
    exact ⟨t₁, t, ⟨(PatternSpine.solve_variable_iff hx).2 ⟨body, u, h⟩, rfl⟩, rfl⟩

/-- The environments hold similar values for the names that stand for each other. -/
theorem Paired.lookup (h : Paired ρ s ctx s' ctx') {y y' : Name} (hy : ρ y y') :
    Option.Rel (Value.Similar ρ) ((s.environment ctx).lookup y) ((s'.environment ctx').lookup y') :=
  Solution.lookup_similar (h.find y y' hy) (h.entry y y' hy) hy

/-- A pattern variable that stands for no other one changes nothing. -/
theorem Paired.create (h : Paired ρ s ctx s' ctx') {x x' : Name} (hx : ∀ y', ¬ ρ x y')
    (hx' : ∀ y, ¬ ρ y x') (b b' : Value) (scope scope' : List Name) :
    Paired ρ (s.create x b scope) ctx (s'.create x' b' scope') ctx' := by
  refine h.congr (fun y y' hy => ?_) (fun _ hy => Solution.mem_names_create.2 (.inr hy))
    (fun _ hy => Solution.mem_names_create.2 (.inr hy)) h.named.create h.named'.create
  have hne : y ≠ x := fun heq => hx y' (heq ▸ hy)
  have hne' : y' ≠ x' := fun heq => hx' y (heq ▸ hy)
  rw [Solution.find_create, Solution.find_create, if_neg hne, if_neg hne']
  exact ⟨rfl, rfl⟩

theorem Paired.mem_names (h : Paired ρ s ctx s' ctx') {y y' : Name} (hy : ρ y y')
    (hmem : y ∈ ctx.names) : y' ∈ ctx'.names := by
  have hentry := h.entry y y' hy
  obtain ⟨e, he, rfl⟩ := List.mem_map.1 hmem
  cases hfound : ctx.entry e.name with
  | none =>
    have hnone := List.find?_eq_none.1 hfound e he
    simp at hnone
  | some d =>
    rw [hfound] at hentry
    generalize he' : ctx'.entry y' = o at hentry
    cases hentry with
    | some => exact List.mem_map.2 ⟨_, List.mem_of_find?_eq_some he', Context.name_of_find he'⟩

theorem Paired.isPatternVariable (h : Paired ρ s ctx s' ctx') {y y' : Name} (hy : ρ y y')
    (hvar : s.isPatternVariable y) :
    s'.isPatternVariable y' := by
  rw [← Solution.isPatternVariable_similar (h.find y y' hy)]
  exact hvar

/-- A pattern variable that is made for a value is solved by it, on both sides alike. -/
theorem Paired.created (h : Paired ρ s ctx s' ctx') {x x' : Name} (hx : ∀ y', ¬ ρ x y')
    (hx' : ∀ y, ¬ ρ y x') {b b' v v' : Value} (hb : b.Similar ρ b')
    (hv : v.Similar ρ v') {t₁ : Solution}
    (hunify : (unify n ctx b (.variable b x) v).Yields (s.create x b ctx.names) () t₁) :
    ∃ u u', t₁ = (s.create x b ctx.names).bind x u ∧ u.Similar ρ u' ∧
      (unify n ctx' b' (.variable b' x') v').Yields (s'.create x' b' ctx'.names) ()
      ((s'.create x' b' ctx'.names).bind x' u') := by
  have ht := h.create hx hx' b b' ctx.names ctx'.names
  have hfind : (s.create x b ctx.names).find x = some (.unsolved b ctx.names) := by
    simp [Solution.find_create]
  have hfind' : (s'.create x' b' ctx'.names).find x' = some (.unsolved b' ctx'.names) := by
    simp [Solution.find_create]
  generalize s.create x b ctx.names = t at ht hfind hunify ⊢
  generalize s'.create x' b' ctx'.names = t' at ht hfind' ⊢
  cases n with
  | zero => simp [unify] at hunify
  | succ n =>
    have hstuck (w : Value) (hw : v.force n t = .ok w) : w.patternSpine t = none := by
      obtain ⟨w', -, hw'⟩ := Value.force_similar ht.similar hv w hw
      exact (ht.patternSpine hw').1
    have hstuck' (w' : Value) (hw' : v'.force n t' = .ok w') : w'.patternSpine t' = none := by
      obtain ⟨w, -, hw⟩ := Value.force_similar ht.symm.similar hv.symm w' hw'
      exact (ht.symm.patternSpine hw).1
    obtain ⟨b₁, w, body, u, hb₁, hw, hbody, hscope, hu, rfl⟩ :=
      (unify_variable_iff hfind hstuck).1 hunify
    obtain ⟨b₁', hb₁', -⟩ := Value.force_similar ht.similar hb b₁ hb₁
    obtain ⟨w', hw', hww'⟩ := Value.force_similar ht.similar hv w hw
    obtain ⟨body', hbody', halike⟩ := (ReadsAlike.all t t' n).value ht.similar hww' body hbody
    obtain ⟨u', hu', huu'⟩ :=
      (ComputesSimilarly.all ρ n).eval ⟨halike, fun y _ y' _ hy => ht.lookup hy⟩ u hu
    refine ⟨u, u', rfl, huu', (unify_variable_iff hfind' hstuck').2 ⟨b₁', w', body', u', hb₁', hw',
      hbody', ?_, hu', rfl⟩⟩
    simp only [PatternSpine.checkScope_iff, Listing.mem_arrange] at hscope ⊢
    intro y' hy'
    obtain ⟨y, hy, hyy'⟩ := halike.symm.exists_free hy'
    obtain ⟨-, hin⟩ := hscope y hy
    refine ⟨fun heq => hx' y (heq ▸ hyy'), ?_⟩
    rcases hin with hin | hin | hin
    · cases hin
    · exact .inr (.inl (ht.mem_names hyy' hin))
    · exact .inr (.inr (ht.isPatternVariable hyy' hin))

theorem Solution.beyond_solved (s : Solution) {used : List Name} {x : Name} (hx : x ∉ used)
    (b u : Value) (scope : List Name) :
    s.Beyond used ((s.create x b scope).bind x u) where
  find y hy := by
    have hne : y ≠ x := fun heq => hx (heq ▸ hy)
    rw [Solution.find_bind_of_ne hne, Solution.find_create, if_neg hne]
  names y hy := by
    have hcreated : y ∈ (s.create x b scope).names := Solution.mem_names_create.2 (.inr hy)
    exact hcreated
  named hs := hs.create.bind

/-- After that, the two pattern variables may stand for each other. -/
theorem Paired.solve (h : Paired ρ s ctx s' ctx') {x x' : Name}
    (hx : ρ x x' ∨ (∀ y', ¬ ρ x y') ∧ ∀ y, ¬ ρ y x') {u u' : Value} (hu : u.Similar ρ u')
    (b b' : Value) (scope scope' : List Name) :
    Paired ρ ((s.create x b scope).bind x u) ctx ((s'.create x' b' scope').bind x' u') ctx' := by
  have hsame {y y' : Name} (hy : ρ y y') : y = x ↔ y' = x' := by
    rcases hx with hx | ⟨hx, hx'⟩
    · constructor
      · rintro rfl
        exact h.functional y y' x' hy hx
      · rintro rfl
        exact h.injective y x y' hy hx
    · exact ⟨fun heq => absurd (heq ▸ hy) (hx y'), fun heq => absurd (heq ▸ hy) (hx' y)⟩
  have hmade : (s.create x b scope).find x = some (.unsolved b scope) := by
    simp [Solution.find_create]
  have hmade' : (s'.create x' b' scope').find x' = some (.unsolved b' scope') := by
    simp [Solution.find_create]
  have hother {y y' : Name} (hy : ρ y y') (hne : y ≠ x) :
      ((s.create x b scope).bind x u).find y = s.find y ∧
      ((s'.create x' b' scope').bind x' u').find y' = s'.find y' := by
    have hne' : y' ≠ x' := fun heq => hne ((hsame hy).2 heq)
    rw [Solution.find_bind_of_ne hne, Solution.find_bind_of_ne hne', Solution.find_create,
      Solution.find_create, if_neg hne, if_neg hne']
    exact ⟨rfl, rfl⟩
  have hnames := (s.beyond_solved (x := x) List.not_mem_nil b u scope).names
  have hnames' := (s'.beyond_solved (x := x') List.not_mem_nil b' u' scope').names
  exact {
    functional := h.functional
    injective := h.injective
    mem := fun y y' hy => by
      obtain ⟨hmem, hmem'⟩ := h.mem y y' hy
      exact ⟨Solution.usedNames_subset (fun _ => id) hnames hmem,
        Solution.usedNames_subset (fun _ => id) hnames' hmem'⟩
    named := h.named.create.bind
    named' := h.named'.create.bind
    find := fun y y' hy => by
      by_cases hyx : y = x
      · cases hyx
        cases (hsame hy).1 rfl
        rw [Solution.find_bind_self hmade, Solution.find_bind_self hmade']
        exact .some (.solved hu)
      · rw [(hother hy hyx).1, (hother hy hyx).2]
        exact h.find y y' hy
    settled := fun y y' hy => by
      by_cases hyx : y = x
      · cases hyx
        rw [Solution.isUnsolved, Solution.find_bind_self hmade]
      · rw [Solution.isUnsolved, (hother hy hyx).1]
        exact h.settled y y' hy
    entry := h.entry }

/-- A new pattern variable for a value, and what comes after. -/
theorem Solver.Mirrored.solvedAfresh {γ δ : Type} {Q : γ → δ → Prop} (h : Paired ρ s ctx s' ctx')
    {b b' v v' : Value} (hb : b.Similar ρ b') (hv : v.Similar ρ v') {f : Solver γ} {g : Solver δ}
    {label label' : Name} {fr fr' : Frame}
      (hnext : ∀ t t', (unify n ctx b (.variable b (s.freshName ctx label)) v).Yields
      (s.create (s.freshName ctx label) b ctx.names) () t → Paired ρ t ctx t' ctx' →
      Mirrored ctx ctx' Q f g t t') :
    Mirrored ctx ctx' Q
      (do
        let x ← Solver.freshName ctx label
        let var ← Solver.create ctx x b
        Solver.within fr (unify n ctx b var v)
        f)
      (do
        let x ← Solver.freshName ctx' label'
        let var ← Solver.create ctx' x b'
        Solver.within fr' (unify n ctx' b' var v')
        g) s s' := by
  have hx := s.freshName_not_mem ctx label
  have hx' := s'.freshName_not_mem ctx' label'
  have houtside : ∀ y', ¬ ρ (s.freshName ctx label) y' := fun y' hy => hx (h.mem _ _ hy).1
  have houtside' : ∀ y, ¬ ρ y (s'.freshName ctx' label') := fun y hy => hx' (h.mem _ _ hy).2
  intro c t₂ hc
  simp only [Solver.yields_bind, Solver.yields_freshName, Solver.yields_create,
    Solver.yields_within] at hc ⊢
  obtain ⟨_, s, ⟨rfl, rfl⟩, _, _, ⟨rfl, rfl⟩, _, t, hunify, hc⟩ := hc
  obtain ⟨u, u', rfl, hu, hunify'⟩ := h.created houtside houtside' hb hv hunify
  have hp := h.solve (.inr ⟨houtside, houtside'⟩) hu b b' ctx.names ctx'.names
  obtain ⟨d, t₂', hd, hcd, hbeyond, hbeyond'⟩ := hnext _ _ hunify hp c t₂ hc
  have hstep := s.beyond_solved hx b u ctx.names
  have hstep' := s'.beyond_solved hx' b' u' ctx'.names
  refine ⟨d, t₂', ⟨_, _, ⟨rfl, rfl⟩, _, _, ⟨rfl, rfl⟩, _, _, hunify', hd⟩, hcd,
    hstep.trans (hbeyond.mono ?_), hstep'.trans (hbeyond'.mono ?_)⟩
  · exact Solution.usedNames_subset (fun _ => id) hstep.names
  · exact Solution.usedNames_subset (fun _ => id) hstep'.names

/-- What has been found of two classes, in contexts with a parameter for each property that was
passed. -/
structure Chain.FoundAlike (ρ : Renaming) (s : Solution) (ctx : Context) (s' : Solution)
    (ctx' : Context) (r r' : Context × Chain) : Prop where
  paired : Paired ρ s r.1 s' r'.1
  chain : r.2.Similar ρ r'.2
  names : ctx.names ⊆ r.1.names
  names' : ctx'.names ⊆ r'.1.names

theorem Chain.seek_similar (h : Paired ρ s ctx s' ctx') {c c' : Chain} (hc : c.Similar ρ c')
    (label : Name) :
    Eval.Rel (fun r r' => ∃ ρ' : Renaming, (∀ y y', ρ y y' → ρ' y y') ∧
      FoundAlike ρ' s ctx s' ctx' r r')
      (c.seek n s ctx label) (c'.seek n s' ctx' label) := by
  induction n generalizing ρ ctx ctx' c c' with
  | zero => exact .outOfFuel _
  | succ n ih =>
    have hfound : ∃ ρ' : Renaming, (∀ y y', ρ y y' → ρ' y y') ∧
        FoundAlike ρ' s ctx s' ctx' (ctx, c) (ctx', c') :=
      ⟨ρ, fun _ _ => id, h, hc, fun _ => id, fun _ => id⟩
    cases hc with
    | nil => exact .pure hfound
    | @declared k a a' c c' ha hc =>
      unfold seek
      split
      · exact .pure hfound
      · obtain ⟨ρ₁, hle, hinner, hv⟩ := h.witness c.x c'.x ha
        refine .bind (Closure.applyChain_similar (hc.mono hle) hv) fun d d' hd r hr => ?_
        obtain ⟨r', hr', ρ₂, hle', hfound⟩ := ih hinner hd r hr
        refine ⟨r', hr', ρ₂, fun y y' hy => hle' y y' (hle y y' hy), hfound.paired,
          hfound.chain, ?_, ?_⟩
        · exact fun y hy => hfound.names (List.mem_cons_of_mem _ hy)
        · exact fun y hy => hfound.names' (List.mem_cons_of_mem _ hy)
    | fulfilled ha hv hc =>
      unfold seek
      split
      · exact .pure hfound
      · exact ih h hc

structure Property.Similar (ρ : Renaming) (p p' : Property) : Prop where
  type : p.type.Similar ρ p'.type
  value : Option.Rel (Value.Similar ρ) p.value p'.value

theorem Property.Similar.mono {ρ' : Renaming} {p p' : Property} (h : p.Similar ρ p')
    (hρ : ∀ y y', ρ y y' → ρ' y y') :
    p.Similar ρ' p' :=
  ⟨h.type.mono hρ, rel_mono (fun _ _ hv => hv.mono hρ) h.value⟩

abbrev Property.AllSimilar (ρ : Renaming) :
    List (Name × Property) → List (Name × Property) → Prop :=
  List.Forall₂ fun p p' => p.1 = p'.1 ∧ p.2.Similar ρ p'.2

/-- The names in use stand for each other as before, and the images of the labels in `K` do so as
well. -/
def Renaming.along (ρ : Renaming) (K : Name → Prop) (images images' : List (Name × Name)) :
    Renaming :=
  fun y y' => ρ y y' ∨ ∃ k, K k ∧ images.lookup k = some y ∧ images'.lookup k = some y'

section

variable {K K' : Name → Prop} {images images' : List (Name × Name)}

theorem Renaming.along_mono (hK : ∀ k, K k → K' k) (y y' : Name) :
    ρ.along K images images' y y' → ρ.along K' images images' y y' :=
  Or.imp_right fun ⟨k, hk, hy⟩ => ⟨k, hK k hk, hy⟩

/-- The properties of a class as they are read with the images on either side. -/
theorem Chain.properties_similar {σ : Renaming} {c c' : Chain} {ps : List (Name × Property)}
    (hc : c.Similar σ c') (hps : (c.properties n images).Yields ps)
    (himage : ∀ k a, (k, ⟨a, none⟩) ∈ ps → ∀ x, images.lookup k = some x →
      ∃ x', images'.lookup k = some x' ∧ σ x x') :
    ∃ ps', (c'.properties n images').Yields ps' ∧ Property.AllSimilar σ ps ps' := by
  induction n generalizing c c' ps with
  | zero => simp [properties] at hps
  | succ n ih =>
    cases hc with
    | nil =>
      simp only [properties, Verdict.yields_pure] at hps ⊢
      subst hps
      exact ⟨[], rfl, .nil⟩
    | @declared k a a' rest rest' ha hrest =>
      simp only [properties, Verdict.yields_bind, Verdict.yields_lift, Verdict.yields_pure,
        Property.yields_image] at hps ⊢
      obtain ⟨x, hx, d, hd, more, hmore, rfl⟩ := hps
      obtain ⟨x', hx', hxx'⟩ := himage k a List.mem_cons_self x hx
      obtain ⟨d', hd', hdd'⟩ := Closure.applyChain_similar hrest (.neutral ha (.var hxx')) d hd
      obtain ⟨more', hmore', hsimilar⟩ :=
        ih hdd' hmore fun j b hj => himage j b (List.mem_cons_of_mem _ hj)
      exact ⟨_, ⟨x', hx', d', hd', more', hmore', rfl⟩, .cons ⟨rfl, ha, .none⟩ hsimilar⟩
    | @fulfilled k a a' v v' rest rest' ha hv hrest =>
      simp only [properties, Verdict.yields_bind, Verdict.yields_pure] at hps ⊢
      obtain ⟨more, hmore, rfl⟩ := hps
      obtain ⟨more', hmore', hsimilar⟩ :=
        ih hrest hmore fun j b hj => himage j b (List.mem_cons_of_mem _ hj)
      exact ⟨_, ⟨more', hmore', rfl⟩, .cons ⟨rfl, ha, .some hv⟩ hsimilar⟩

theorem Property.AllSimilar.lookup {σ : Renaming} {ps ps' : List (Name × Property)}
    (h : AllSimilar σ ps ps') (label : Name) :
    Option.Rel (Property.Similar σ) (ps.lookup label) (ps'.lookup label) := by
  induction h with
  | nil => exact .none
  | @cons p p' ps ps' hp _ ih =>
    obtain ⟨k, p⟩ := p
    obtain ⟨_, p'⟩ := p'
    obtain ⟨rfl, hp⟩ := hp
    rw [List.lookup_cons, List.lookup_cons]
    cases label == k with
    | true => exact .some hp
    | false => exact ih

/-- The contexts in which the unfulfilled ones of the properties are parameters. -/
theorem Property.bindAll_similar {σ : Renaming} (hfunctional : ∀ x y y', σ x y → σ x y' → y = y')
    (hinjective : ∀ x x' y, σ x y → σ x' y → x = x') {ps ps' : List (Name × Property)}
    (hps : AllSimilar σ ps ps') {inner : Context} (hinner : (bindAll images ctx ps).Yields inner)
    (himage : ∀ k a, (k, ⟨a, none⟩) ∈ ps → ∀ x, images.lookup k = some x →
      ∃ x', images'.lookup k = some x' ∧ σ x x')
    (hentry : ∀ y y', σ y y' → Option.Rel (Context.Entry.Similar σ) (ctx.entry y) (ctx'.entry y')) :
    ∃ inner', (bindAll images' ctx' ps').Yields inner' ∧ ctx'.names ⊆ inner'.names ∧
      ∀ y y', σ y y' → Option.Rel (Context.Entry.Similar σ) (inner.entry y) (inner'.entry y') := by
  induction hps generalizing ctx ctx' with
  | nil =>
    simp only [bindAll, Verdict.yields_pure] at hinner ⊢
    exact ⟨ctx', rfl, fun _ => id, hinner ▸ hentry⟩
  | @cons p p' ps ps' hp _ ih =>
    obtain ⟨k, a, v⟩ := p
    obtain ⟨_, a', v'⟩ := p'
    obtain ⟨rfl, ha, hv⟩ := hp
    have himage' := fun j b hj => himage j b (List.mem_cons_of_mem _ hj)
    cases hv with
    | some hv => exact ih hinner himage' hentry
    | none =>
      simp only [bindAll, Verdict.yields_bind, Property.yields_image] at hinner ⊢
      obtain ⟨x, hx, hinner⟩ := hinner
      obtain ⟨x', hx', hxx'⟩ := himage k a List.mem_cons_self x hx
      have hbound (y y' : Name) (hy : σ y y') : Option.Rel (Context.Entry.Similar σ)
          ((ctx.bind x x a).entry y) ((ctx'.bind x' x' a').entry y') := by
        simp only [Context.entry, Context.bind, List.find?_cons]
        by_cases hyx : x = y
        · cases hyx
          cases hfunctional x x' y' hxx' hy
          simp only [decide_true]
          exact .some ⟨ha, .none⟩
        · have hyx' : x' ≠ y' := fun heq => hyx (hinjective x y x' hxx' (heq ▸ hy))
          simp only [hyx, hyx', decide_false]
          exact hentry y y' hy
      obtain ⟨inner', hinner', hnames, hrel⟩ := ih hinner himage' hbound
      exact ⟨inner', ⟨x', hx', hinner'⟩, fun y hy => hnames (Context.names_cons _ ctx' hy), hrel⟩

theorem Name.Separate.not_mem {used : List Name} (himages : Name.Separate used images) {k x : Name}
    (hx : images.lookup k = some x) : x ∉ used :=
  himages.2 x (List.mem_map.2 ⟨(k, x), mem_of_lookup hx, rfl⟩)

theorem Paired.along_functional (h : Paired ρ s ctx s' ctx')
    (himages : Name.Separate (s.usedNames ctx) images) (x y y' : Name)
    (hy : ρ.along K images images' x y) (hy' : ρ.along K images images' x y') : y = y' := by
  rcases hy with hy | ⟨k, -, hx, hy⟩ <;> rcases hy' with hy' | ⟨j, -, hx', hy'⟩
  · exact h.functional x y y' hy hy'
  · exact absurd (h.mem x y hy).1 (himages.not_mem hx')
  · exact absurd (h.mem x y' hy').1 (himages.not_mem hx)
  · cases himages.eq_of_mem (mem_of_lookup hx) (mem_of_lookup hx')
    exact Option.some.inj (hy.symm.trans hy')

theorem Paired.along_injective (h : Paired ρ s ctx s' ctx')
    (himages' : Name.Separate (s'.usedNames ctx') images') (x x' y : Name)
    (hy : ρ.along K images images' x y) (hy' : ρ.along K images images' x' y) : x = x' := by
  rcases hy with hy | ⟨k, -, hx, hy⟩ <;> rcases hy' with hy' | ⟨j, -, hx', hy'⟩
  · exact h.injective x x' y hy hy'
  · exact absurd (h.mem x y hy).2 (himages'.not_mem hy')
  · exact absurd (h.mem x' y hy').2 (himages'.not_mem hy)
  · cases himages'.eq_of_mem (mem_of_lookup hy) (mem_of_lookup hy')
    exact Option.some.inj (hx.symm.trans hx')

theorem Paired.along_entry (h : Paired ρ s ctx s' ctx')
    (himages : Name.Separate (s.usedNames ctx) images)
    (himages' : Name.Separate (s'.usedNames ctx') images') (y y' : Name)
    (hy : ρ.along K images images' y y') :
    Option.Rel (Context.Entry.Similar (ρ.along K images images')) (ctx.entry y)
      (ctx'.entry y') := by
  have hnone {ctx : Context} {s : Solution} {x : Name} (hx : x ∉ s.usedNames ctx) :
      ctx.entry x = none :=
    List.find?_eq_none.2 fun e he heq =>
      hx (List.mem_append_left _ (List.mem_map.2 ⟨e, he, by simpa using heq⟩))
  rcases hy with hy | ⟨k, -, hx, hx'⟩
  · exact rel_mono (fun e e' he => he.mono fun _ _ => .inl) (h.entry y y' hy)
  · rw [hnone (himages.not_mem hx), hnone (himages'.not_mem hx')]
    exact .none

/-- Images that are separate from what is in use may stand for each other. -/
theorem Paired.along (h : Paired ρ s ctx s' ctx') (himages : Name.Separate (s.usedNames ctx) images)
    (himages' : Name.Separate (s'.usedNames ctx') images') {inner inner' : Context}
    (hnames : ctx.names ⊆ inner.names) (hnames' : ctx'.names ⊆ inner'.names)
      (hentry : ∀ y y', ρ.along K images images' y y' →
      Option.Rel (Context.Entry.Similar (ρ.along K images images')) (inner.entry y)
        (inner'.entry y')) :
    Paired (ρ.along K images images') (s.reserve (images.map Prod.snd)) inner
      (s'.reserve (images'.map Prod.snd)) inner' where
  functional := h.along_functional himages
  injective := h.along_injective himages'
  mem := by
    have himage {s : Solution} {ctx : Context} {images : List (Name × Name)} {k x : Name}
        (hx : images.lookup k = some x) : x ∈ (s.reserve (images.map Prod.snd)).usedNames ctx :=
      List.mem_append_right
        _ (Solution.mem_names_reserve.2 (.inl (List.mem_map.2 ⟨(k, x), mem_of_lookup hx, rfl⟩)))
    rintro y y' (hy | ⟨k, -, hx, hx'⟩)
    · obtain ⟨hmem, hmem'⟩ := h.mem y y' hy
      exact ⟨Solution.usedNames_subset hnames
        (fun _ hz => Solution.mem_names_reserve.2 (.inr hz)) hmem,
        Solution.usedNames_subset hnames'
          (fun _ hz => Solution.mem_names_reserve.2 (.inr hz)) hmem'⟩
    · exact ⟨himage hx, himage hx'⟩
  named := h.named.reserve _
  named' := h.named'.reserve _
  find := by
    rintro y y' (hy | ⟨k, -, hx, hx'⟩)
    · exact rel_mono (fun p p' hp => hp.mono fun _ _ => .inl) (h.find y y' hy)
    · rw [Solution.find_reserve, Solution.find_reserve,
        h.similar.named.find_eq_none (himages.not_mem hx),
        h.similar.named'.find_eq_none (himages'.not_mem hx')]
      exact .none
  settled := by
    rintro y y' (hy | ⟨k, -, hx, hx'⟩)
    · exact h.settled y y' hy
    · rw [Solution.isUnsolved, Solution.find_reserve,
        h.similar.named.find_eq_none (himages.not_mem hx)]
  entry := hentry

end

end

end DependentClasses
