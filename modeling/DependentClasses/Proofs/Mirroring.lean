import DependentClasses.Proofs.Growth
import DependentClasses.Proofs.SimilarReadings

/-! Two runs of the solver side by side. What is in use in one run stands for what is in use in the
other, under other names; nothing in it waits for a solution. Then a success of one run is mirrored
by a success of the other one. -/
namespace DependentClasses

/-- What is known of the names in `used` stays the same. -/
structure Solution.Beyond (used : List Name) (s s₁ : Solution) : Prop where
  find : ∀ x ∈ used, s₁.find x = s.find x
  names : s.names ⊆ s₁.names
  named : s.NamedIn s.names → s₁.NamedIn s₁.names

namespace Solution.Beyond

variable {used used' : List Name} {s s₁ s₂ : Solution}

theorem refl (used : List Name) (s : Solution) : s.Beyond used s :=
  ⟨fun _ _ => rfl, fun _ => id, id⟩

theorem trans (h : s.Beyond used s₁) (h' : s₁.Beyond used s₂) : s.Beyond used s₂ :=
  ⟨fun x hx => (h'.find x hx).trans (h.find x hx), fun _ hx => h'.names (h.names hx),
    fun hs => h'.named (h.named hs)⟩

theorem mono (h : s.Beyond used s₁) (hused : used' ⊆ used) : s.Beyond used' s₁ :=
  { h with find := fun x hx => h.find x (hused hx) }

end Solution.Beyond

structure Context.Entry.Similar (ρ : Renaming) (e e' : Context.Entry) : Prop where
  type : e.type.Similar ρ e'.type
  value : Option.Rel (Value.Similar ρ) e.value e'.value

theorem Context.Entry.Similar.mono {ρ ρ' : Renaming} {e e' : Context.Entry} (h : e.Similar ρ e')
    (hρ : ∀ y y', ρ y y' → ρ' y y') : e.Similar ρ' e' :=
  ⟨h.type.mono hρ, rel_mono (fun _ _ hv => hv.mono hρ) h.value⟩

theorem Context.Entry.Similar.symm {ρ : Renaming} {e e' : Context.Entry} (h : e.Similar ρ e') :
    e'.Similar ρ.symm e :=
  ⟨h.type.symm, rel_symm (fun _ _ hv => hv.symm) h.value⟩

abbrev Context.entry (ctx : Context) (x : Name) : Option Context.Entry :=
  ctx.find? fun e => e.name = x

theorem Context.entry_bind_of_ne {ctx : Context} {label x y : Name} {a : Value} (h : y ≠ x) :
    (ctx.bind label x a).entry y = ctx.entry y := by
  have hskip : decide (x = y) = false := by simpa using Ne.symm h
  simp only [Context.entry, Context.bind, List.find?_cons, hskip]

theorem Context.Entry.Similar.reading {ρ : Renaming} {e e' : Context.Entry} (h : e.Similar ρ e')
    (hname : ρ e.name e'.name) :
    e.reading.Similar ρ e'.reading := by
  have hvalue := h.value
  unfold Context.Entry.reading
  generalize e.value = o at hvalue ⊢
  generalize e'.value = o' at hvalue ⊢
  cases hvalue with
  | none => exact .neutral h.type (.var hname)
  | some hv => exact hv

section

variable {ρ : Renaming} {s s' : Solution} {ctx ctx' : Context} {y y' : Name}

/-- The environments hold similar values for names of which the same is known. -/
theorem Solution.lookup_similar
    (hfind : Option.Rel (PatternVariable.Similar ρ) (s.find y) (s'.find y'))
    (hentry : Option.Rel (Context.Entry.Similar ρ) (ctx.entry y) (ctx'.entry y')) (hy : ρ y y') :
    Option.Rel (Value.Similar ρ) ((s.environment ctx).lookup y)
      ((s'.environment ctx').lookup y') := by
  rw [Solution.lookup_environment, Solution.lookup_environment, Context.lookup_environment,
    Context.lookup_environment]
  generalize s.find y = o at hfind ⊢
  generalize s'.find y' = o' at hfind ⊢
  cases hfind with
  | some hp =>
    cases hp with
    | unsolved ha => exact .some (.neutral ha (.var hy))
    | solved hv => exact .some hv
  | none =>
    change Option.Rel _ ((ctx.entry y).map _) ((ctx'.entry y').map _)
    generalize he : ctx.entry y = o at hentry ⊢
    generalize he' : ctx'.entry y' = o' at hentry ⊢
    cases hentry with
    | none => exact .none
    | some hsimilar =>
      refine .some (hsimilar.reading ?_)
      rw [Context.name_of_find he, Context.name_of_find he']
      exact hy

theorem Solution.isPatternVariable_similar
    (hfind : Option.Rel (PatternVariable.Similar ρ) (s.find y) (s'.find y')) :
    s.isPatternVariable y = s'.isPatternVariable y' := by
  unfold Solution.isPatternVariable
  generalize s.find y = o at hfind ⊢
  generalize s'.find y' = o' at hfind ⊢
  cases hfind with
  | none => rfl
  | some => rfl

/-- Terms that are alike under a renaming are equal whenever those that they stand for are. -/
theorem Term.alphaEquivalent_of_alike (hρ : ∀ x y y', ρ x y → ρ x y' → y = y') {t t' u u' : Term}
    (ht : t.Alike ρ t') (hu : u.Alike ρ u') (htu : t.alphaEquivalent u) :
    t'.alphaEquivalent u' := by
  have halike := (ht.symm.trans (Term.alphaEquivalent_iff.1 htu)).trans hu
  refine Term.alphaEquivalent_iff.2 (halike.mono ?_)
  rintro y - z - ⟨_, ⟨x, hy, rfl⟩, hz⟩
  exact hρ x y z hy hz

end

theorem Renaming.under_functional {ρ : Renaming} {x x' : Name}
    (h : ∀ y z z', ρ y z → ρ y z' → z = z') (y z z' : Name) (hz : ρ.under x x' y z)
    (hz' : ρ.under x x' y z') : z = z' := by
  rcases hz with ⟨rfl, rfl⟩ | ⟨hy, -, h₁⟩ <;> rcases hz' with ⟨hy', rfl⟩ | ⟨hy', -, h₂⟩
  · rfl
  · exact absurd rfl hy'
  · exact absurd hy' hy
  · exact h y z z' h₁ h₂

theorem Renaming.under_injective {ρ : Renaming} {x x' : Name}
    (h : ∀ y y' z, ρ y z → ρ y' z → y = y') (y y' z : Name) (hz : ρ.under x x' y z)
    (hz' : ρ.under x x' y' z) : y = y' := by
  rcases hz with ⟨rfl, rfl⟩ | ⟨-, hz, h₁⟩ <;> rcases hz' with ⟨rfl, hz'⟩ | ⟨-, hz', h₂⟩
  · rfl
  · exact absurd rfl hz'
  · exact absurd hz' hz
  · exact h y y' z h₁ h₂

/-- The names that `ρ` relates are in use on both sides, and the same is known of both. None of them
waits for a solution. -/
structure Paired (ρ : Renaming) (s : Solution) (ctx : Context) (s' : Solution)
    (ctx' : Context) : Prop where
  functional : ∀ x y y', ρ x y → ρ x y' → y = y'
  injective : ∀ x x' y, ρ x y → ρ x' y → x = x'
  mem : ∀ x x', ρ x x' → x ∈ s.usedNames ctx ∧ x' ∈ s'.usedNames ctx'
  named : s.NamedIn s.names
  named' : s'.NamedIn s'.names
  find : ∀ x x', ρ x x' → Option.Rel (PatternVariable.Similar ρ) (s.find x) (s'.find x')
  settled : ∀ x x', ρ x x' → s.isUnsolved x = false
  entry : ∀ x x', ρ x x' → Option.Rel (Context.Entry.Similar ρ) (ctx.entry x) (ctx'.entry x')

namespace Paired

variable {ρ : Renaming} {s s₁ s' s₁' : Solution} {ctx ctx' : Context}

theorem similar (h : Paired ρ s ctx s' ctx') :
    s.Similar ρ (s.usedNames ctx) (s'.usedNames ctx') s' :=
  ⟨h.find, h.mem, h.named.usedNames ctx, h.named'.usedNames ctx'⟩

/-- Only what is known of the names that stand for each other matters. -/
theorem congr (h : Paired ρ s ctx s' ctx')
    (hfind : ∀ x x', ρ x x' → s₁.find x = s.find x ∧ s₁'.find x' = s'.find x')
    (hnames : s.names ⊆ s₁.names) (hnames' : s'.names ⊆ s₁'.names) (hnamed : s₁.NamedIn s₁.names)
    (hnamed' : s₁'.NamedIn s₁'.names) : Paired ρ s₁ ctx s₁' ctx' where
  functional := h.functional
  injective := h.injective
  mem x x' hx := by
    obtain ⟨hmem, hmem'⟩ := h.mem x x' hx
    exact ⟨Solution.usedNames_subset (fun _ => id) hnames hmem,
      Solution.usedNames_subset (fun _ => id) hnames' hmem'⟩
  named := hnamed
  named' := hnamed'
  find x x' hx := by
    rw [(hfind x x' hx).1, (hfind x x' hx).2]
    exact h.find x x' hx
  settled x x' hx := by
    rw [Solution.isUnsolved, (hfind x x' hx).1]
    exact h.settled x x' hx
  entry := h.entry

theorem beyond (h : Paired ρ s ctx s' ctx') (hs : s.Beyond (s.usedNames ctx) s₁)
    (hs' : s'.Beyond (s'.usedNames ctx') s₁') : Paired ρ s₁ ctx s₁' ctx' :=
  h.congr (fun x x' hx => ⟨hs.find x (h.mem x x' hx).1, hs'.find x' (h.mem x x' hx).2⟩)
    hs.names hs'.names (hs.named h.named) (hs'.named h.named')

theorem symm (h : Paired ρ s ctx s' ctx') : Paired ρ.symm s' ctx' s ctx where
  functional x y y' := h.injective y y' x
  injective x x' y := h.functional y x x'
  mem x x' hx := (h.mem x' x hx).symm
  named := h.named'
  named' := h.named
  find x x' hx := rel_symm (fun _ _ hp => hp.symm) (h.find x' x hx)
  settled x x' hx := by
    have hrel := h.find x' x hx
    have hsettled := h.settled x' x hx
    unfold Solution.isUnsolved at hsettled ⊢
    generalize s.find x' = o at hrel hsettled
    generalize s'.find x = o' at hrel
    cases hrel with
    | none => rfl
    | some hp =>
      cases hp with
      | unsolved => cases hsettled
      | solved => rfl
  entry x x' hx := rel_symm (fun _ _ he => he.symm) (h.entry x' x hx)

/-- Two parameters with new names. -/
theorem bind (h : Paired ρ s ctx s' ctx') {x x' : Name} (hx : x ∉ s.usedNames ctx)
    (hx' : x' ∉ s'.usedNames ctx') {a a' : Value} (ha : a.Similar ρ a') (label label' : Name) :
    Paired (ρ.under x x') s (ctx.bind label x a) s' (ctx'.bind label' x' a') where
  functional := Renaming.under_functional h.functional
  injective := Renaming.under_injective h.injective
  mem := by
    rintro y y' (⟨rfl, rfl⟩ | ⟨-, -, hy⟩)
    · exact ⟨List.mem_cons_self, List.mem_cons_self⟩
    · obtain ⟨hmem, hmem'⟩ := h.mem y y' hy
      exact ⟨List.mem_cons_of_mem x hmem, List.mem_cons_of_mem x' hmem'⟩
  named := h.named
  named' := h.named'
  find := (h.similar.under hx hx').find
  settled := by
    rintro y y' (⟨rfl, rfl⟩ | ⟨-, -, hy⟩)
    · rw [Solution.isUnsolved, h.similar.named.find_eq_none hx]
    · exact h.settled y y' hy
  entry := by
    have hle := h.similar.le_under hx hx'
    rintro y y' (⟨rfl, rfl⟩ | ⟨hne, hne', hy⟩)
    · simp only [Context.entry, Context.bind, List.find?_cons, decide_true]
      exact .some ⟨ha.mono hle, .none⟩
    · rw [Context.entry_bind_of_ne hne, Context.entry_bind_of_ne hne']
      exact rel_mono (fun e e' he => he.mono hle) (h.entry y y' hy)

theorem witness (h : Paired ρ s ctx s' ctx') (x x' : Name) {a a' : Value} (ha : a.Similar ρ a') :
    ∃ ρ' : Renaming, (∀ y y', ρ y y' → ρ' y y') ∧
      Paired ρ' s (s.witness ctx x a).1 s' (s'.witness ctx' x' a').1 ∧
      (s.witness ctx x a).2.Similar ρ' (s'.witness ctx' x' a').2 := by
  have hx := s.freshName_not_mem ctx x
  have hx' := s'.freshName_not_mem ctx' x'
  have hle := h.similar.le_under hx hx'
  exact ⟨_, hle, h.bind hx hx' ha _ _, .neutral (ha.mono hle) (.var (.inl ⟨rfl, rfl⟩))⟩

end Paired

namespace Solver

variable {α β γ δ : Type} {P : α → β → Prop} {Q : γ → δ → Prop} {ρ : Renaming}
  {s s₁ s' s₁' : Solution} {ctx ctx' : Context} {x : Solver α} {y : Solver β} {f : α → Solver γ}
  {g : β → Solver δ}

/-- If the first computation succeeds, the second one does, with a related answer. Both leave alone
what is in use. -/
def Mirrored (ctx ctx' : Context) (P : α → β → Prop) (x : Solver α) (y : Solver β)
    (s s' : Solution) : Prop :=
  ∀ a s₁, x.Yields s a s₁ → ∃ b s₁', y.Yields s' b s₁' ∧ P a b ∧ s.Beyond (s.usedNames ctx) s₁ ∧
    s'.Beyond (s'.usedNames ctx') s₁'

namespace Mirrored

theorem pure {a : α} {b : β} (h : P a b) :
    Mirrored ctx ctx' P (Pure.pure a) (Pure.pure b) s s' := by
  intro c s₁ hc
  obtain ⟨rfl, rfl⟩ := yields_pure.1 hc
  exact ⟨b, s', yields_pure.2 ⟨rfl, rfl⟩, h, .refl _ _, .refl _ _⟩

theorem of_not_yields (h : ∀ a s₁, ¬ x.Yields s a s₁) : Mirrored ctx ctx' P x y s s' :=
  fun a s₁ ha => absurd ha (h a s₁)

theorem refuse (c : Cause) : Mirrored ctx ctx' P (DependentClasses.refuse c) y s s' :=
  of_not_yields (by simp)

theorem outOfFuel : Mirrored ctx ctx' P Solver.outOfFuel y s s' := of_not_yields (by simp)

theorem cannotUnify {n : Nat} {l r : Value} :
    Mirrored ctx ctx' P (Solver.cannotUnify n ctx l r) y s s' :=
  of_not_yields (by simp)

theorem bind (hp : Paired ρ s ctx s' ctx') (h : Mirrored ctx ctx' P x y s s')
    (h' : ∀ a b s₁ s₁', x.Yields s a s₁ → P a b → Paired ρ s₁ ctx s₁' ctx' →
      Mirrored ctx ctx' Q (f a) (g b) s₁ s₁') :
    Mirrored ctx ctx' Q (x >>= f) (y >>= g) s s' := by
  intro c s₂ hc
  obtain ⟨a, s₁, ha, hc⟩ := yields_bind.1 hc
  obtain ⟨b, s₁', hb, hab, hs, hs'⟩ := h a s₁ ha
  obtain ⟨d, s₂', hd, hcd, hs₁, hs₁'⟩ := h' a b s₁ s₁' ha hab (hp.beyond hs hs') c s₂ hc
  refine ⟨d, s₂', yields_bind.2 ⟨b, s₁', hb, hd⟩, hcd, hs.trans (hs₁.mono ?_),
    hs'.trans (hs₁'.mono ?_)⟩
  · exact Solution.usedNames_subset (fun _ => id) hs.names
  · exact Solution.usedNames_subset (fun _ => id) hs'.names

theorem after {e : Eval α} {e' : Eval β} (h : Eval.Rel P e e')
    (h' : ∀ a b, e = .ok a → P a b → Mirrored ctx ctx' Q (f a) (g b) s s') :
    Mirrored ctx ctx' Q (liftM e >>= f) (liftM e' >>= g) s s' := by
  intro c s₁ hc
  simp only [yields_bind, yields_lift] at hc
  obtain ⟨a, _, ⟨ha, rfl⟩, hc⟩ := hc
  obtain ⟨b, hb, hab⟩ := h a ha
  obtain ⟨d, s₁', hd, hrest⟩ := h' a b ha hab c s₁ hc
  exact ⟨d, s₁', yields_bind.2 ⟨b, s', yields_lift.2 ⟨hb, rfl⟩, hd⟩, hrest⟩

theorem get {f : Solution → Solver γ} {g : Solution → Solver δ}
    (h : Mirrored ctx ctx' Q (f s) (g s') s s') :
    Mirrored ctx ctx' Q (MonadState.get >>= f) (MonadState.get >>= g) s s' := by
  intro c s₁ hc
  simp only [yields_bind, yields_get] at hc
  obtain ⟨_, _, ⟨rfl, rfl⟩, hc⟩ := hc
  obtain ⟨d, s₁', hd, hrest⟩ := h c s₁ hc
  exact ⟨d, s₁', yields_bind.2 ⟨s', s', yields_get.2 ⟨rfl, rfl⟩, hd⟩, hrest⟩

theorem reading (e : Solution → Eval α) (e' : Solution → Eval β) (h : Eval.Rel P (e s) (e' s'))
    (h' : ∀ a b, e s = .ok a → P a b → Mirrored ctx ctx' Q (f a) (g b) s s') :
    Mirrored ctx ctx' Q (Solver.reading e >>= f) (Solver.reading e' >>= g) s s' := by
  unfold Solver.reading
  rw [bind_assoc, bind_assoc]
  exact get (after h h')

theorem force (hp : Paired ρ s ctx s' ctx') {n : Nat} {v v' : Value} (hv : v.Similar ρ v')
    {f : Value → Solver γ} {g : Value → Solver δ}
    (h : ∀ w w', v.force n s = .ok w → w.Similar ρ w' → Mirrored ctx ctx' Q (f w) (g w') s s') :
    Mirrored ctx ctx' Q (Solver.force n v >>= f) (Solver.force n v' >>= g) s s' :=
  reading (fun s => v.force n s) (fun s => v'.force n s) (Value.force_similar hp.similar hv) h

theorem reify (hp : Paired ρ s ctx s' ctx') {n : Nat} {v v' : Value} (hv : v.Similar ρ v')
    {f : Term → Solver γ} {g : Term → Solver δ}
    (h : ∀ t t', s.reify n ctx v = .ok t → t.Alike ρ t' → Mirrored ctx ctx' Q (f t) (g t') s s') :
    Mirrored ctx ctx' Q (Solver.reify n ctx v >>= f) (Solver.reify n ctx' v' >>= g) s s' :=
  reading (fun s => s.reify n ctx v) (fun s => s.reify n ctx' v')
    ((ReadsAlike.all s s' n).value hp.similar hv) h

/-- A longer context has more names in use. -/
theorem outward {inner inner' : Context} (hctx : ctx.names ⊆ inner.names)
    (hctx' : ctx'.names ⊆ inner'.names) (h : Mirrored inner inner' P x y s s') :
    Mirrored ctx ctx' P x y s s' := by
  intro a s₁ ha
  obtain ⟨b, s₁', hb, hab, hs, hs'⟩ := h a s₁ ha
  exact ⟨b, s₁', hb, hab, hs.mono (Solution.usedNames_subset hctx fun _ => id),
    hs'.mono (Solution.usedNames_subset hctx' fun _ => id)⟩

theorem witness (hp : Paired ρ s ctx s' ctx') {x x' : Name} {a a' : Value} (ha : a.Similar ρ a')
    {f : Context × Value → Solver γ} {g : Context × Value → Solver δ}
    (h : ∀ ρ' : Renaming, (∀ y y', ρ y y' → ρ' y y') →
      Paired ρ' s (s.witness ctx x a).1 s' (s'.witness ctx' x' a').1 →
      (s.witness ctx x a).2.Similar ρ' (s'.witness ctx' x' a').2 →
      Mirrored (s.witness ctx x a).1 (s'.witness ctx' x' a').1 Q (f (s.witness ctx x a))
        (g (s'.witness ctx' x' a')) s s') :
    Mirrored ctx ctx' Q (Solver.witness ctx x a >>= f) (Solver.witness ctx' x' a' >>= g) s s' := by
  obtain ⟨ρ', hle, hinner, hv⟩ := hp.witness x x' ha
  unfold Solver.witness
  simp only [bind_assoc, pure_bind]
  exact get (outward (fun _ => List.mem_cons_of_mem _) (fun _ =>
    List.mem_cons_of_mem _) (h ρ' hle hinner hv))

theorem within (h : Mirrored ctx ctx' P x y s s') (fr fr' : Frame) :
    Mirrored ctx ctx' P (Solver.within fr x) (Solver.within fr' y) s s' := by
  intro a s₁ ha
  obtain ⟨b, s₁', hb, hrest⟩ := h a s₁ (yields_within.1 ha)
  exact ⟨b, s₁', yields_within.2 hb, hrest⟩

theorem tryCatch {k : Failure → Solver α} {k' : Failure → Solver β}
    (h : Mirrored ctx ctx' P x y s s') (hk : ∀ e s a s', ¬ (k e).Yields s a s')
    (hk' : ∀ e s a s', ¬ (k' e).Yields s a s') :
    Mirrored ctx ctx' P (tryCatch x k) (tryCatch y k') s s' := by
  intro a s₁ ha
  obtain ⟨b, s₁', hb, hrest⟩ := h a s₁ ((yields_tryCatch hk).1 ha)
  exact ⟨b, s₁', (yields_tryCatch hk').2 hb, hrest⟩

theorem judging {v : Solution → Verdict α} {v' : Solution → Verdict β}
    (h : ∀ a, (v s).Yields a → ∃ b, (v' s').Yields b ∧ P a b) :
    Mirrored ctx ctx' P (Solver.judging v) (Solver.judging v') s s' := by
  intro a s₁ ha
  obtain ⟨ha, rfl⟩ := yields_judging.1 ha
  obtain ⟨b, hb, hab⟩ := h a ha
  exact ⟨b, s', yields_judging.2 ⟨hb, rfl⟩, hab, .refl _ _, .refl _ _⟩

theorem forM {f : γ → Solver PUnit} {g : δ → Solver PUnit} {cs : List γ} {ds : List δ}
    (hcs : List.Forall₂ Q cs ds) (h : ∀ c d, Q c d → ∀ s s', Paired ρ s ctx s' ctx' →
      Mirrored ctx ctx' (fun _ _ => True) (f c) (g d) s s') :
    ∀ s s', Paired ρ s ctx s' ctx' → Mirrored ctx ctx' (fun _ _ => True) (cs.forM f)
      (ds.forM g) s s' := by
  induction hcs with
  | nil => exact fun s s' _ => pure trivial
  | cons hcd _ ih =>
    exact fun s s' hp => bind hp (h _ _ hcd s s' hp) fun _ _ s₁ s₁' _ _ hp => ih s₁ s₁' hp

end Mirrored

end Solver

namespace Verdict

variable {α β γ δ : Type} {P : α → β → Prop} {Q : γ → δ → Prop}

def Rel (P : α → β → Prop) (x : Verdict α) (y : Verdict β) : Prop :=
  ∀ a, x.Yields a → ∃ b, y.Yields b ∧ P a b

namespace Rel

variable {x : Verdict α} {y : Verdict β} {f : α → Verdict γ} {g : β → Verdict δ}

theorem pure {a : α} {b : β} (h : P a b) : Rel P (Pure.pure a) (Pure.pure b) := by
  intro c hc
  cases yields_pure.1 hc
  exact ⟨b, yields_pure.2 rfl, h⟩

theorem refuse (c : Cause) : Rel P (DependentClasses.refuse c) y := fun a ha => absurd ha (by simp)

theorem bind (h : Rel P x y) (h' : ∀ a b, P a b → Rel Q (f a) (g b)) :
    Rel Q (x >>= f) (y >>= g) := by
  intro c hc
  obtain ⟨a, ha, hc⟩ := yields_bind.1 hc
  obtain ⟨b, hb, hab⟩ := h a ha
  obtain ⟨d, hd, hcd⟩ := h' a b hab c hc
  exact ⟨d, yields_bind.2 ⟨b, hb, hd⟩, hcd⟩

theorem after {e : Eval α} {e' : Eval β} (h : Eval.Rel P e e')
    (h' : ∀ a b, P a b → Rel Q (f a) (g b)) :
    Rel Q (liftM e >>= f) (liftM e' >>= g) := by
  refine bind (P := P) (fun a ha => ?_) h'
  obtain ⟨b, hb, hab⟩ := h a (yields_lift.1 ha)
  exact ⟨b, yields_lift.2 hb, hab⟩

theorem forM {f : γ → Verdict PUnit} {g : δ → Verdict PUnit} {cs : List γ} {ds : List δ}
    (hcs : List.Forall₂ Q cs ds) (h : ∀ c d, Q c d → Rel (fun _ _ => True) (f c) (g d)) :
    Rel (fun _ _ => True) (cs.forM f) (ds.forM g) := by
  induction hcs with
  | nil => exact pure trivial
  | cons hcd _ ih => exact bind (h _ _ hcd) fun _ _ _ => ih

end Rel

end Verdict

section

variable {ρ : Renaming} {s s' : Solution} {ctx ctx' : Context} {n : Nat}

theorem Paired.alphaEquivalent (h : Paired ρ s ctx s' ctx') {t t' u u' : Term} (ht : t.Alike ρ t')
    (hu : u.Alike ρ u') (htu : t.alphaEquivalent u) : t'.alphaEquivalent u' :=
  Term.alphaEquivalent_of_alike h.functional ht hu htu

theorem Chain.typeOf_similar {c c' : Chain} {v v' : Value} {k : Name} (hc : c.Similar ρ c')
    (hv : v.Similar ρ v') :
    Eval.Rel (Option.Rel (Value.Similar ρ)) (c.typeOf n v k) (c'.typeOf n v' k) := by
  refine .bind ((ComputesSimilarly.all ρ n).find hc hv) fun r r' hr => .pure ?_
  cases hr with
  | none => exact .none
  | some h => exact .some h.1

theorem convertType_mirrored (h : Paired ρ s ctx s' ctx') {l l' r r' : Value} (hl : l.Similar ρ l')
    (hr : r.Similar ρ r') :
    Verdict.Rel (fun _ _ => True) (convertType n s ctx l r) (convertType n s' ctx' l' r') := by
  refine .after ((ReadsAlike.all s s' n).value h.similar hl) fun t t' ht => ?_
  refine .after ((ReadsAlike.all s s' n).value h.similar hr) fun u u' hu => ?_
  split
  · next htu =>
    rw [if_pos (h.alphaEquivalent ht hu htu)]
    exact .pure trivial
  · exact .refuse _

structure ConvertMirrors (n : Nat) : Prop where
  value {ρ : Renaming} {s s' : Solution} {ctx ctx' : Context} {a a' l l' r r' : Value} :
    Paired ρ s ctx s' ctx' → a.Similar ρ a' → l.Similar ρ l' → r.Similar ρ r' →
    Verdict.Rel (fun _ _ => True) (convert n s ctx a l r) (convert n s' ctx' a' l' r')
  spine {ρ : Renaming} {s s' : Solution} {ctx ctx' : Context} {l l' r r' : Neutral} :
    Paired ρ s ctx s' ctx' → l.Similar ρ l' → r.Similar ρ r' →
    Verdict.Rel (fun _ _ => True) (convertNeutral n s ctx l r) (convertNeutral n s' ctx' l' r')

namespace ConvertMirrors

theorem spine_succ (ih : ConvertMirrors n) (h : Paired ρ s ctx s' ctx') {l l' r r' : Neutral}
    (hl : l.Similar ρ l') (hr : r.Similar ρ r') :
    Verdict.Rel (fun _ _ => True) (convertNeutral (n + 1) s ctx l r)
      (convertNeutral (n + 1) s' ctx' l' r') := by
  unfold convertNeutral
  cases hl with
  | @var x x' hx =>
    cases hr with
    | @var y y' hy =>
      dsimp only
      split
      · next heq =>
        subst heq
        rw [if_pos (h.functional x x' y' hx hy)]
        exact .pure trivial
      · exact .refuse _
    | _ => exact .refuse _
  | app hf ha hx =>
    cases hr with
    | app hg _ hy =>
      dsimp only
      split
      · exact .bind (ih.spine h hf hg) fun _ _ _ => ih.value h ha hx hy
      · exact .refuse _
    | _ => exact .refuse _
  | car hp =>
    cases hr with
    | car hq => exact ih.spine h hp hq
    | _ => exact .refuse _
  | cdr hp =>
    cases hr with
    | cdr hq => exact ih.spine h hp hq
    | _ => exact .refuse _
  | dot hp =>
    cases hr with
    | dot hq =>
      dsimp only
      split
      · exact ih.spine h hp hq
      · exact .refuse _
    | _ => exact .refuse _

theorem value_succ (ih : ConvertMirrors n) (h : Paired ρ s ctx s' ctx') {a a' l l' r r' : Value}
    (ha : a.Similar ρ a') (hl : l.Similar ρ l') (hr : r.Similar ρ r') :
    Verdict.Rel (fun _ _ => True) (convert (n + 1) s ctx a l r)
      (convert (n + 1) s' ctx' a' l' r') := by
  unfold convert
  refine .after (Value.force_similar h.similar ha) fun a a' ha => ?_
  refine .after (Value.force_similar h.similar hl) fun l l' hl => ?_
  refine .after (Value.force_similar h.similar hr) fun r r' hr => ?_
  dsimp only
  split
  · cases ha
    exact convertType_mirrored h hl hr
  next hne =>
  have hne' : a' = .type → False := by
    rintro rfl
    cases ha
    exact hne rfl
  simp only
  have hobject := hl
  cases hl with
  | sole =>
    cases hr with
    | sole => exact .pure trivial
    | _ => exact .refuse _
  | quote t =>
    cases hr with
    | quote u =>
      dsimp only
      split
      · exact .pure trivial
      · exact .refuse _
    | _ => exact .refuse _
  | neutral _ hp =>
    cases hr with
    | neutral _ hq => exact ih.spine h hp hq
    | _ => exact .refuse _
  | cons hx hy =>
    cases hr with
    | cons hx' hy' =>
      cases ha with
      | sigma hc hd =>
        refine .bind (ih.value h hc hx hx') fun _ _ _ => ?_
        exact .after ((ComputesSimilarly.all ρ n).apply hd hx) fun d d' hd => ih.value h hd hy hy'
      | _ => exact .refuse _
    | _ => exact .refuse _
  | fn _ hf =>
    cases hr with
    | fn _ hg =>
      cases ha with
      | @pi o c c' d d' hc hd =>
        dsimp only
        split
        · obtain ⟨ρ', hle, hinner, hv⟩ := h.witness d.x d'.x hc
          refine .after ((ComputesSimilarly.all ρ' n).apply (hd.mono hle) hv) fun d d' hd => ?_
          refine .after ((ComputesSimilarly.all ρ' n).apply (hf.mono hle) hv) fun f f' hf => ?_
          exact .after ((ComputesSimilarly.all ρ' n).apply (hg.mono hle) hv) fun g g' hg =>
            ih.value hinner hd hf hg
        · exact .refuse _
      | _ => exact .refuse _
    | _ => exact .refuse _
  | same hx =>
    cases hr with
    | same hy =>
      cases ha with
      | equal hb _ _ => exact ih.value h hb hx hy
      | _ => exact .refuse _
    | _ => exact .refuse _
  | @object fs fs' hlabels hfields =>
    cases hr with
    | @object gs gs' hlabels' hfields' =>
      cases ha with
      | classOf hc =>
        have hfs : FieldsAlike (Value.Similar ρ) fs fs' := fieldsAlike_iff.2 ⟨hlabels, hfields⟩
        have hgs : FieldsAlike (Value.Similar ρ) gs gs' := fieldsAlike_iff.2 ⟨hlabels', hfields'⟩
        dsimp only
        split
        · next hlength =>
          rw [if_pos (by rw [← hfs.length_eq, ← hgs.length_eq, hlength])]
          refine .forM hfs fun f f' hf => ?_
          obtain ⟨k, x⟩ := f
          obtain ⟨_, x'⟩ := f'
          obtain ⟨rfl, hx⟩ := hf
          have hrel := hgs.lookup k
          dsimp only
          generalize gs.lookup k = o at hrel ⊢
          generalize gs'.lookup k = o' at hrel ⊢
          cases hrel with
          | none => exact .refuse _
          | some hy =>
            refine .after (Chain.typeOf_similar hc hobject) fun b b' hb => ?_
            cases hb with
            | none => exact .refuse _
            | some hb => exact ih.value h hb hx hy
        · exact .refuse _
      | _ => exact .refuse _
    | _ => exact .refuse _
  | _ => exact .refuse _

theorem all (n : Nat) : ConvertMirrors n := by
  induction n with
  | zero =>
    constructor
    · intro ρ s s' ctx ctx' a a' l l' r r' _ _ _ _ u hu
      simp [convert] at hu
    · intro ρ s s' ctx ctx' l l' r r' _ _ _ u hu
      simp [convertNeutral] at hu
  | succ n ih => exact ⟨fun h => ih.value_succ h, fun h => ih.spine_succ h⟩

end ConvertMirrors

end

end DependentClasses
