import DependentClasses.Proofs.InclusionGrowth
import DependentClasses.Proofs.SolverFuel
import Mathlib.Order.Filter.AtTopBot.Basic

/-! Inclusion of classes, property by property. With enough fuel, a walk along two classes succeeds
exactly if each of its steps does. -/
namespace DependentClasses

open Filter

section

variable {α : Type}

theorem Eval.eventually_ok {x : Nat → Eval α} (hx : ∀ n, (x n).Le (x (n + 1))) {n : Nat} {a : α}
    (h : x n = .ok a) :
    ∀ᶠ m in atTop, x m = .ok a := by
  filter_upwards [eventually_ge_atTop n] with m hm
  exact Eval.le_of_le hx hm a h

theorem Solver.eventually_yields {x : Nat → Solver α} (hx : ∀ n, (x n).Le (x (n + 1))) {n : Nat}
    {s s' : Solution} {a : α} (h : (x n).Yields s a s') : ∀ᶠ m in atTop, (x m).Yields s a s' :=
  Eval.eventually_ok (fun n => hx n s) h

end

namespace Chain

variable {s : Solution} {ctx : Context} {k : Name} {a b v w : Value} {sub super : Chain}
  {rest rest' : Closure}

/-- Walking along two classes at once succeeds. -/
def IncludedInStep (s : Solution) (ctx : Context) (sub super : Chain) : Prop :=
  ∃ n s', (includeInStep n ctx sub super).Yields s () s'

theorem IncludedInStep.eventually (h : IncludedInStep s ctx sub super) :
    ∃ s', ∀ᶠ n in atTop, (includeInStep n ctx sub super).Yields s () s' := by
  obtain ⟨n, s', h⟩ := h
  exact ⟨s', Solver.eventually_yields (fun n => (InclusionGrows.all n).inStep ctx sub super) h⟩

theorem eventually_inclusion {n : Nat} {s' : Solution} (h : (inclusion n ctx b a).Yields s () s') :
    ∀ᶠ n in atTop, (inclusion n ctx b a).Yields s () s' :=
  Solver.eventually_yields (fun n => (InclusionGrows.all n).types ctx b a) h

theorem eventually_unify {n : Nat} {s' : Solution} (h : (unify n ctx b w v).Yields s () s') :
    ∀ᶠ n in atTop, (unify n ctx b w v).Yields s () s' :=
  Solver.eventually_yields (fun n => (UnifyGrows.all n).value ctx b w v) h

theorem eventually_applyChain {n : Nat} {c : Chain} (h : rest.applyChain n v = .ok c) :
    ∀ᶠ n in atTop, rest.applyChain n v = .ok c :=
  Eval.eventually_ok (fun n => rest.applyChain_grows n v) h

theorem inStep_nil (s : Solution) (ctx : Context) (sub : Chain) : IncludedInStep s ctx sub .nil :=
  ⟨1, s, by simp [includeInStep, includeNext]⟩

/-- What is found for the labels to come decides about a walk. -/
theorem IncludedInStep.of_seek {sub' : Chain} {inner : Context} (h : IncludedInStep s ctx sub super)
    (hseek : ∀ label ∈ super.classLabels, ∀ n r, sub.seek n s ctx label = .ok r →
      ∃ m, sub'.seek m s inner label = .ok r) :
    IncludedInStep s inner sub' super := by
  obtain ⟨n, s', hn⟩ := h
  cases n with
  | zero => simp [includeInStep] at hn
  | succ n =>
    have hlater : ∀ᶠ m in atTop, (includeInStep (m + 1) ctx sub super).Yields s () s' := by
      filter_upwards [eventually_ge_atTop n] with m hm
      exact Eval.le_of_le (fun n => (InclusionGrows.all n).inStep ctx sub super s)
        (Nat.succ_le_succ hm) _ hn
    have hfound {label : Name} (hlabel : label ∈ super.classLabels) {r : Context × Chain}
        (hr : sub.seek n s ctx label = .ok r) :
        ∃ m, (includeInStep (m + 1) ctx sub super).Yields s () s' ∧ sub.seek m s ctx label = .ok r ∧
          sub'.seek m s inner label = .ok r := by
      obtain ⟨_, hr'⟩ := hseek label hlabel n r hr
      exact (hlater.and ((Eval.eventually_ok (fun n => sub.seek_grows n s ctx label) hr).and
        (Eval.eventually_ok (fun n => sub'.seek_grows n s inner label) hr'))).exists
    cases super with
    | nil => exact inStep_nil s inner sub'
    | declared label a rest | fulfilled label a w rest =>
      simp only [includeInStep, includeNext, Solver.yields_bind, Solver.yields_reading] at hn
      obtain ⟨r, _, ⟨hr, -⟩, -⟩ := hn
      obtain ⟨m, hm, hr, hr'⟩ := hfound List.mem_cons_self hr
      refine ⟨m + 1, s', ?_⟩
      simp only [includeInStep, includeNext, Solver.yields_bind, Solver.yields_reading] at hm ⊢
      obtain ⟨r₁, _, ⟨hr₁, rfl⟩, hm⟩ := hm
      cases hr.symm.trans hr₁
      exact ⟨r, _, ⟨hr', rfl⟩, hm⟩

/-- A property that the wider class does not have is passed, at a parameter of its type. -/
theorem inStep_pass_declared {n : Nat} {c : Chain} (hk : k ∉ super.classLabels)
    (hc : rest.applyChain n (s.witness ctx rest.x b).2 = .ok c) :
    IncludedInStep s ctx (.declared k b rest) super ↔
      IncludedInStep s (s.witness ctx rest.x b).1 c super := by
  have hne {label : Name} (hlabel : label ∈ super.classLabels) : k ≠ label :=
    fun heq => hk (heq ▸ hlabel)
  constructor
  · refine fun h => h.of_seek fun label hlabel m r hr => ?_
    cases m with
    | zero => simp [seek] at hr
    | succ m =>
      rw [seek, if_neg (hne hlabel)] at hr
      simp only [Eval.bind_eq_ok] at hr
      obtain ⟨d, hd, hr⟩ := hr
      cases Eval.eq_of_ok (fun n => rest.applyChain_grows n _) hc hd
      exact ⟨m, hr⟩
  · refine fun h => h.of_seek fun label hlabel m r hr => ?_
    obtain ⟨m, hc, hr⟩ :=
      ((eventually_applyChain hc).and
        (Eval.eventually_ok (fun n => c.seek_grows n s _ label) hr)).exists
    refine ⟨m + 1, ?_⟩
    rw [seek, if_neg (hne hlabel)]
    simp only [Eval.bind_eq_ok]
    exact ⟨c, hc, hr⟩

theorem inStep_pass_fulfilled (hk : k ∉ super.classLabels) :
    IncludedInStep s ctx (.fulfilled k b v sub) super ↔ IncludedInStep s ctx sub super := by
  have hne {label : Name} (hlabel : label ∈ super.classLabels) : k ≠ label :=
    fun heq => hk (heq ▸ hlabel)
  constructor
  · refine fun h => h.of_seek fun label hlabel m r hr => ?_
    cases m with
    | zero => simp [seek] at hr
    | succ m =>
      rw [seek, if_neg (hne hlabel)] at hr
      exact ⟨m, hr⟩
  · refine fun h => h.of_seek fun label hlabel m r hr => ⟨m + 1, ?_⟩
    rw [seek, if_neg (hne hlabel)]
    exact hr

/-- A walk that begins at a property of both classes takes two units of fuel at least. -/
theorem inStep_iff_yields :
    IncludedInStep s ctx sub super ↔
      ∃ n s', (includeInStep (n + 2) ctx sub super).Yields s () s' := by
  constructor
  · intro h
    obtain ⟨s', h⟩ := h.eventually
    obtain ⟨n, hn, h⟩ := ((eventually_ge_atTop 2).and h).exists
    obtain ⟨n, rfl⟩ := Nat.exists_eq_add_of_le' hn
    exact ⟨n, s', h⟩
  · rintro ⟨n, s', h⟩
    exact ⟨n + 2, s', h⟩

/-- A property that both classes leave open is a parameter of the narrower type. -/
theorem inStep_declared : IncludedInStep s ctx (.declared k b rest) (.declared k a rest') ↔
    ∃ n s₁, (inclusion n ctx b a).Yields s () s₁ ∧
      ∃ m c d, rest.applyChain m (s₁.witness ctx rest.x b).2 = .ok c ∧
      rest'.applyChain m (s₁.witness ctx rest.x b).2 = .ok d ∧
      IncludedInStep s₁ (s₁.witness ctx rest.x b).1 c d := by
  rw [inStep_iff_yields]
  simp only [includeInStep, includeNext, seek, if_true, Solver.yields_bind, Solver.yields_reading,
    Eval.pure_eq_ok]
  constructor
  · rintro ⟨n, s', _, _, ⟨rfl, rfl⟩, h⟩
    simp only [Solver.yields_bind, Solver.yields_within, Solver.yields_witness,
      Solver.yields_lift] at h
    obtain ⟨_, s₁, h₁, _, _, ⟨rfl, rfl⟩, c, _, ⟨hc, rfl⟩, d, _, ⟨hd, rfl⟩, h⟩ := h
    exact ⟨n + 1, _, h₁, n + 1, c, d, hc, hd, n + 1, s', h⟩
  · rintro ⟨n, s₁, h₁, m, c, d, hc, hd, h⟩
    obtain ⟨s', h⟩ := h.eventually
    obtain ⟨i, h₁, hc, hd, h⟩ :=
      ((tendsto_add_atTop_nat 1).eventually ((eventually_inclusion h₁).and
      ((eventually_applyChain hc).and ((eventually_applyChain hd).and h)))).exists
    refine ⟨i, s', _, _, ⟨rfl, rfl⟩, ?_⟩
    simp only [Solver.yields_bind, Solver.yields_within, Solver.yields_witness, Solver.yields_lift]
    exact ⟨(), s₁, h₁, _, _, ⟨rfl, rfl⟩, c, _, ⟨hc, rfl⟩, d, _, ⟨hd, rfl⟩, h⟩

/-- A property that only the narrower class fulfils stands for its value. -/
theorem inStep_fixed : IncludedInStep s ctx (.fulfilled k b v sub) (.declared k a rest') ↔
    ∃ n s₁ s₂, (inclusion n ctx b a).Yields s () s₁ ∧
      (unify n ctx b (.variable b (s₁.freshName ctx k)) v).Yields
      (s₁.create (s₁.freshName ctx k) b ctx.names) () s₂ ∧
      ∃ m d, rest'.applyChain m v = .ok d ∧ IncludedInStep s₂ ctx sub d := by
  rw [inStep_iff_yields]
  simp only [includeInStep, includeNext, seek, if_true, Solver.yields_bind, Solver.yields_reading,
    Eval.pure_eq_ok]
  constructor
  · rintro ⟨n, s', _, _, ⟨rfl, rfl⟩, h⟩
    simp only [Solver.yields_bind, Solver.yields_within, Solver.yields_freshName,
      Solver.yields_create, Solver.yields_lift] at h
    obtain ⟨_, s₁, h₁, _, _, ⟨rfl, rfl⟩, _, _, ⟨rfl, rfl⟩, _, s₂, h₂, d, _, ⟨hd, rfl⟩, h⟩ := h
    exact ⟨n + 1, _, _, h₁, h₂, n + 1, d, hd, n + 1, s', h⟩
  · rintro ⟨n, s₁, s₂, h₁, h₂, m, d, hd, h⟩
    obtain ⟨s', h⟩ := h.eventually
    obtain ⟨i, h₁, h₂, hd, h⟩ :=
      ((tendsto_add_atTop_nat 1).eventually ((eventually_inclusion h₁).and
      ((eventually_unify h₂).and ((eventually_applyChain hd).and h)))).exists
    refine ⟨i, s', _, _, ⟨rfl, rfl⟩, ?_⟩
    simp only [Solver.yields_bind, Solver.yields_within, Solver.yields_freshName,
      Solver.yields_create, Solver.yields_lift]
    exact ⟨(), s₁, h₁, _, _, ⟨rfl, rfl⟩, _, _, ⟨rfl, rfl⟩, (), s₂, h₂, d, _, ⟨hd, rfl⟩, h⟩

theorem not_inStep_unfixed :
    ¬ IncludedInStep s ctx (.declared k b rest) (.fulfilled k a w super) := by
  rw [inStep_iff_yields]
  simp only [includeInStep, includeNext, seek, if_true, Solver.yields_bind, Solver.yields_reading,
    Eval.pure_eq_ok]
  rintro ⟨n, s', _, _, ⟨rfl, rfl⟩, h⟩
  simp at h

/-- Where both classes fulfil a property, the values have to be equal. -/
theorem inStep_fulfilled : IncludedInStep s ctx (.fulfilled k b v sub) (.fulfilled k a w super) ↔
    ∃ n s₁ s₂, (inclusion n ctx b a).Yields s () s₁ ∧ (unify n ctx b w v).Yields s₁ () s₂ ∧
    IncludedInStep s₂ ctx sub super := by
  rw [inStep_iff_yields]
  simp only [includeInStep, includeNext, seek, if_true, Solver.yields_bind, Solver.yields_reading,
    Eval.pure_eq_ok]
  constructor
  · rintro ⟨n, s', _, _, ⟨rfl, rfl⟩, h⟩
    simp only [Solver.yields_bind, Solver.yields_within] at h
    obtain ⟨_, s₂, ⟨_, s₁, h₁, h₂⟩, h⟩ := h
    exact ⟨n + 1, s₁, s₂, h₁, h₂, n + 1, s', h⟩
  · rintro ⟨n, s₁, s₂, h₁, h₂, h⟩
    obtain ⟨s', h⟩ := h.eventually
    obtain ⟨i, h₁, h₂, h⟩ := ((tendsto_add_atTop_nat 1).eventually ((eventually_inclusion h₁).and
      ((eventually_unify h₂).and h))).exists
    refine ⟨i, s', _, _, ⟨rfl, rfl⟩, ?_⟩
    simp only [Solver.yields_bind, Solver.yields_within]
    exact ⟨(), s₂, ⟨(), s₁, h₁, h₂⟩, h⟩

end Chain

/-- The properties `qs` of a class, each compared with the one of `ps` that has its label. -/
def includeProperties (n : Nat) (ctx : Context) (images : List (Name × Name))
    (ps qs : List (Name × Property)) : Solver Unit :=
  qs.forM fun (label, q) =>
    match ps.lookup label with
    | none => refuse (.missingProperty label)
    | some p => Solver.within (.property label) (includeProperty n ctx images label p q)

theorem includeProperties_grows (n : Nat) (ctx : Context) (images : List (Name × Name))
    (ps qs : List (Name × Property)) :
    (includeProperties n ctx images ps qs).Le (includeProperties (n + 1) ctx images ps qs) := by
  refine .forM (fun ⟨label, q⟩ => ?_) qs
  dsimp only
  split
  · exact .refl _
  · exact .within ((InclusionGrows.all n).property ctx images label _ q) _

namespace Property

variable {s : Solution} {ctx : Context} {images : List (Name × Name)} {k : Name}
  {a b v w : Value} {q : Property} {ps qs : List (Name × Property)}

theorem yields_declared {n : Nat} {s' : Solution} :
    (includeProperty (n + 1) ctx images k ⟨b, none⟩ ⟨a, none⟩).Yields s () s' ↔
    (inclusion n ctx b a).Yields s () s' := by
  simp [includeProperty]

/-- The name that stands for the property becomes a pattern variable. -/
theorem yields_fixed {n : Nat} {s' : Solution} :
    (includeProperty (n + 1) ctx images k ⟨b, some v⟩ ⟨a, none⟩).Yields s () s' ↔
    ∃ s₁ x, (inclusion n ctx b a).Yields s () s₁ ∧ images.lookup k = some x ∧
      (unify n ctx b (.variable b x) v).Yields (s₁.create x b ctx.names) () s' := by
  simp only [includeProperty, Solver.yields_bind, Solver.yields_judging, yields_image,
    Solver.yields_create]
  constructor
  · rintro ⟨_, s₁, h₁, x, _, ⟨hx, rfl⟩, _, _, ⟨rfl, rfl⟩, h⟩
    exact ⟨_, x, h₁, hx, h⟩
  · rintro ⟨s₁, x, h₁, hx, h⟩
    exact ⟨(), s₁, h₁, x, s₁, ⟨hx, rfl⟩, _, _, ⟨rfl, rfl⟩, h⟩

theorem not_yields_unfixed {n : Nat} {s' : Solution} :
    ¬ (includeProperty (n + 1) ctx images k ⟨b, none⟩ ⟨a, some w⟩).Yields s () s' := by
  simp [includeProperty]

theorem yields_fulfilled {n : Nat} {s' : Solution} :
    (includeProperty (n + 1) ctx images k ⟨b, some v⟩ ⟨a, some w⟩).Yields s () s' ↔
      ∃ s₁, (inclusion n ctx b a).Yields s () s₁ ∧ (unify n ctx a w v).Yields s₁ () s' := by
  simp only [includeProperty, Solver.yields_bind]
  constructor
  · rintro ⟨_, s₁, h⟩
    exact ⟨s₁, h⟩
  · rintro ⟨s₁, h⟩
    exact ⟨(), s₁, h⟩

def AllIncluded (s : Solution) (ctx : Context) (images : List (Name × Name))
    (ps qs : List (Name × Property)) : Prop :=
  ∃ n s', (includeProperties n ctx images ps qs).Yields s () s'

theorem allIncluded_nil (s : Solution) (ctx : Context) (images : List (Name × Name))
    (ps : List (Name × Property)) :
    AllIncluded s ctx images ps [] :=
  ⟨0, s, Solver.yields_pure.2 ⟨rfl, rfl⟩⟩

theorem allIncluded_cons : AllIncluded s ctx images ps ((k, q) :: qs) ↔
    ∃ p, ps.lookup k = some p ∧ ∃ n s₁, (includeProperty (n + 1) ctx images k p q).Yields s () s₁ ∧
      AllIncluded s₁ ctx images ps qs := by
  constructor
  · rintro ⟨n, s', h⟩
    obtain ⟨_, s₁, h₁, h⟩ := Solver.yields_forM_cons.1 h
    cases hp : ps.lookup k with
    | none => simp [hp] at h₁
    | some p =>
      simp only [hp, Solver.yields_within] at h₁
      exact ⟨p, rfl, n, s₁, (InclusionGrows.all n).property ctx images k p q s _ h₁, n, s', h⟩
  · rintro ⟨p, hp, n, s₁, h₁, m, s', h⟩
    obtain ⟨i, h₁, h⟩ :=
      ((Solver.eventually_yields (fun n => (InclusionGrows.all n).property ctx images k p q) h₁).and
      (Solver.eventually_yields (fun n => includeProperties_grows n ctx images ps qs) h)).exists
    refine ⟨i, s', Solver.yields_forM_cons.2 ⟨(), s₁, ?_, h⟩⟩
    simpa only [hp, Solver.yields_within] using h₁

theorem AllIncluded.mem_labels (h : AllIncluded s ctx images ps qs) :
    ∀ k ∈ qs.map Prod.fst, k ∈ ps.map Prod.fst := by
  induction qs generalizing s with
  | nil => simp
  | cons q qs ih =>
    obtain ⟨k, q⟩ := q
    obtain ⟨p, hp, n, s₁, -, h⟩ := allIncluded_cons.1 h
    refine List.forall_mem_cons.2 ⟨List.mem_map.2 ⟨(k, p), mem_of_lookup hp, rfl⟩, ih h⟩

end Property

section

variable {s : Solution} {ctx inner : Context} {sub super : Chain} {among labels : List Name}
  {images : List (Name × Name)} {ps qs : List (Name × Property)} {i j n m : Nat}

theorem includeOrdered_iff (hsub : sub.labels i = .ok among)
    (hsuper : super.labels j = .ok labels) :
    (∃ n s', (includeOrdered n ctx sub super).Yields s () s') ↔ (∀ k ∈ labels, k ∈ among) ∧
      sub.IncludedInStep s ctx super := by
  have hmissing : (labels.filter (· ∉ among)).isEmpty ↔ ∀ k ∈ labels, k ∈ among := by simp
  constructor
  · rintro ⟨n, s', h⟩
    cases n with
    | zero => simp [includeOrdered] at h
    | succ n =>
      simp only [includeOrdered, includeIfCovered, Solver.yields_bind, Solver.yields_lift] at h
      obtain ⟨_, _, ⟨hsub', rfl⟩, _, _, ⟨hsuper', rfl⟩, h⟩ := h
      cases Eval.eq_of_ok (fun n => sub.labels_grows n) hsub hsub'
      cases Eval.eq_of_ok (fun n => super.labels_grows n) hsuper hsuper'
      split at h
      · next hnone => exact ⟨hmissing.1 hnone, n, s', h⟩
      · simp at h
  · rintro ⟨hall, h⟩
    obtain ⟨s', h⟩ := h.eventually
    obtain ⟨n, hsub, hsuper, h⟩ := ((Eval.eventually_ok (fun n => sub.labels_grows n) hsub).and
      ((Eval.eventually_ok (fun n => super.labels_grows n) hsuper).and h)).exists
    refine ⟨n + 1, s', ?_⟩
    simp only [includeOrdered, includeIfCovered, Solver.yields_bind, Solver.yields_lift]
    refine ⟨among, s, ⟨hsub, rfl⟩, labels, s, ⟨hsuper, rfl⟩, ?_⟩
    rw [if_pos (hmissing.2 hall)]
    exact h

theorem includeUnordered_iff (hsub : sub.labels i = .ok among)
    (hsuper : super.labels j = .ok labels)
    (himages : Name.freshImages (s.usedNames ctx) (among ++ labels) = images)
    (hps : (sub.properties n images).Yields ps) (hqs : (super.properties m images).Yields qs)
    (hinner : (Property.bindAll images ctx ps).Yields inner) :
    (∃ n s', (includeUnordered n ctx sub super).Yields s () s') ↔
      Property.AllIncluded (s.reserve (images.map Prod.snd)) inner images ps qs := by
  subst himages
  constructor
  · rintro ⟨n, s', h⟩
    cases n with
    | zero => simp [includeUnordered] at h
    | succ n =>
      simp only [includeUnordered, Solver.yields_bind, Solver.yields_lift, Solver.yields_get,
        Solver.yields_set, Solver.yields_judging] at h
      obtain ⟨_, _, ⟨hsub', rfl⟩, _, _, ⟨hsuper', rfl⟩, _, _, ⟨rfl, rfl⟩, _, _, rfl, ps', _,
        ⟨hps', rfl⟩, qs', _, ⟨hqs', rfl⟩, inner', _, ⟨hinner', rfl⟩, h⟩ := h
      cases Eval.eq_of_ok (fun n => sub.labels_grows n) hsub hsub'
      cases Eval.eq_of_ok (fun n => super.labels_grows n) hsuper hsuper'
      cases Eval.eq_of_ok (fun n => sub.properties_grows n _) hps hps'
      cases Eval.eq_of_ok (fun n => super.properties_grows n _) hqs hqs'
      cases hinner.unique hinner'
      exact ⟨n, s', h⟩
  · rintro ⟨n, s', h⟩
    obtain ⟨n, hsub, hsuper, hps, hqs, h⟩ :=
      ((Eval.eventually_ok (fun n => sub.labels_grows n) hsub).and
      ((Eval.eventually_ok (fun n => super.labels_grows n) hsuper).and
      ((Eval.eventually_ok (fun n => sub.properties_grows n _) hps).and
      ((Eval.eventually_ok (fun n => super.properties_grows n _) hqs).and
      (Solver.eventually_yields (fun n => includeProperties_grows n inner _ ps qs) h))))).exists
    refine ⟨n + 1, s', ?_⟩
    simp only [includeUnordered, Solver.yields_bind, Solver.yields_lift, Solver.yields_get,
      Solver.yields_set, Solver.yields_judging]
    exact ⟨among, s, ⟨hsub, rfl⟩, labels, s, ⟨hsuper, rfl⟩, s, s, ⟨rfl, rfl⟩, (), _, rfl, ps, _,
      ⟨hps, rfl⟩, qs, _, ⟨hqs, rfl⟩, inner, _, ⟨hinner, rfl⟩, h⟩

end

end DependentClasses
