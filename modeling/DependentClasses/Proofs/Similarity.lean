import DependentClasses.Proofs.Renaming
import DependentClasses.Proofs.Parts

/-! Values that differ only in the names of their variables. The variables that computations are
stuck on are related by a renaming; the terms that wait in closures may have other bound names, and
their free names may be called differently, if what the closures keep for them is similar. -/
namespace DependentClasses

/-- What values are made of. -/
inductive Item
  | value (v : Value)
  | spine (e : Neutral)
  | chain (c : Chain)
  | closure (c : Closure)

/-- Similar values, up to the renaming `ρ` of variables. -/
inductive Similar (ρ : Renaming) : Item → Item → Prop
  | neutral {a a' e e'} : Similar ρ (.value a) (.value a') → Similar ρ (.spine e) (.spine e') →
      Similar ρ (.value (.neutral a e)) (.value (.neutral a' e'))
  | type : Similar ρ (.value .type) (.value .type)
  | pi {p a a' c c'} : Similar ρ (.value a) (.value a') → Similar ρ (.closure c) (.closure c') →
      Similar ρ (.value (.pi p a c)) (.value (.pi p a' c'))
  | fn {p a a' c c'} : Similar ρ (.value a) (.value a') → Similar ρ (.closure c) (.closure c') →
      Similar ρ (.value (.fn p a c)) (.value (.fn p a' c'))
  | sigma {a a' c c'} : Similar ρ (.value a) (.value a') → Similar ρ (.closure c) (.closure c') →
      Similar ρ (.value (.sigma a c)) (.value (.sigma a' c'))
  | cons {a a' b b'} : Similar ρ (.value a) (.value a') → Similar ρ (.value b) (.value b') →
      Similar ρ (.value (.cons a b)) (.value (.cons a' b'))
  | string : Similar ρ (.value .string) (.value .string)
  | quote (text) : Similar ρ (.value (.quote text)) (.value (.quote text))
  | trivial : Similar ρ (.value .trivial) (.value .trivial)
  | sole : Similar ρ (.value .sole) (.value .sole)
  | equal {a a' l l' r r'} : Similar ρ (.value a) (.value a') → Similar ρ (.value l) (.value l') →
      Similar ρ (.value r) (.value r') →
        Similar ρ (.value (.equal a l r)) (.value (.equal a' l' r'))
  | same {a a'} : Similar ρ (.value a) (.value a') →
      Similar ρ (.value (.same a)) (.value (.same a'))
  | classOf {c c'} : Similar ρ (.chain c) (.chain c') →
      Similar ρ (.value (.classOf c)) (.value (.classOf c'))
  | object {fs fs'} : fs.map Prod.fst = fs'.map Prod.fst →
      (∀ (i : Nat) (f f' : Name × Value), fs[i]? = some f → fs'[i]? = some f' →
        Similar ρ (.value f.2) (.value f'.2)) →
      Similar ρ (.value (.object fs)) (.value (.object fs'))
  | var {x x'} : ρ x x' → Similar ρ (.spine (.var x)) (.spine (.var x'))
  | app {p e e' a a' v v'} : Similar ρ (.spine e) (.spine e') → Similar ρ (.value a) (.value a') →
      Similar ρ (.value v) (.value v') →
        Similar ρ (.spine (.app p e a v)) (.spine (.app p e' a' v'))
  | car {e e'} : Similar ρ (.spine e) (.spine e') → Similar ρ (.spine (.car e)) (.spine (.car e'))
  | cdr {e e'} : Similar ρ (.spine e) (.spine e') → Similar ρ (.spine (.cdr e)) (.spine (.cdr e'))
  | dot {e e' k} : Similar ρ (.spine e) (.spine e') →
      Similar ρ (.spine (.dot e k)) (.spine (.dot e' k))
  | nil : Similar ρ (.chain .nil) (.chain .nil)
  | declared {k a a' c c'} : Similar ρ (.value a) (.value a') →
      Similar ρ (.closure c) (.closure c') →
      Similar ρ (.chain (.declared k a c)) (.chain (.declared k a' c'))
  | fulfilled {k a a' v v' c c'} : Similar ρ (.value a) (.value a') →
      Similar ρ (.value v) (.value v') →
      Similar ρ (.chain c) (.chain c') →
        Similar ρ (.chain (.fulfilled k a v c)) (.chain (.fulfilled k a' v' c'))
  /-- What is kept for names that stand for each other is similar, or missing on both sides. -/
  | closure {θ : Renaming} {env env' : Environment} {x x' b b'} : b.Alike (θ.under x x') b' →
      (∀ y ∈ b.freeNames, y ≠ x → ∀ y' ∈ b'.freeNames, y' ≠ x' → θ y y' →
        ∀ w w', env.lookup y = some w →
        env'.lookup y' = some w' → Similar ρ (.value w) (.value w')) →
      (∀ y ∈ b.freeNames, y ≠ x → ∀ y' ∈ b'.freeNames, y' ≠ x' → θ y y' →
        (env.lookup y = none ↔ env'.lookup y' = none)) →
      Similar ρ (.closure ⟨env, x, b⟩) (.closure ⟨env', x', b'⟩)

abbrev Value.Similar (ρ : Renaming) (v w : Value) : Prop :=
  DependentClasses.Similar ρ (.value v) (.value w)

abbrev Neutral.Similar (ρ : Renaming) (e f : Neutral) : Prop :=
  DependentClasses.Similar ρ (.spine e) (.spine f)

abbrev Chain.Similar (ρ : Renaming) (c d : Chain) : Prop :=
  DependentClasses.Similar ρ (.chain c) (.chain d)

abbrev Closure.Similar (ρ : Renaming) (c d : Closure) : Prop :=
  DependentClasses.Similar ρ (.closure c) (.closure d)

namespace Similar

variable {ρ ρ' : Renaming} {i j : Item}

theorem mono (h : Similar ρ i j) (hρ : ∀ y y', ρ y y' → ρ' y y') : Similar ρ' i j := by
  induction h with
  | var hx => exact .var (hρ _ _ hx)
  | type | string | quote | trivial | sole | nil => constructor
  | neutral _ _ ih₁ ih₂ | pi _ _ ih₁ ih₂ | fn _ _ ih₁ ih₂ | sigma _ _ ih₁ ih₂ | cons _ _ ih₁ ih₂
  | declared _ _ ih₁ ih₂ =>
    constructor
    · exact ih₁
    · exact ih₂
  | equal _ _ _ ih₁ ih₂ ih₃ | app _ _ _ ih₁ ih₂ ih₃ | fulfilled _ _ _ ih₁ ih₂ ih₃ =>
    constructor
    · exact ih₁
    · exact ih₂
    · exact ih₃
  | same _ ih | classOf _ ih | car _ ih | cdr _ ih | dot _ ih =>
    constructor
    exact ih
  | object hlabels _ ih => exact .object hlabels ih
  | closure halike _ hmissing ih => exact .closure halike ih hmissing

theorem symm (h : Similar ρ i j) : Similar ρ.symm j i := by
  induction h with
  | var hx => exact .var hx
  | type | string | quote | trivial | sole | nil => constructor
  | neutral _ _ ih₁ ih₂ | pi _ _ ih₁ ih₂ | fn _ _ ih₁ ih₂ | sigma _ _ ih₁ ih₂ | cons _ _ ih₁ ih₂
  | declared _ _ ih₁ ih₂ =>
    constructor
    · exact ih₁
    · exact ih₂
  | equal _ _ _ ih₁ ih₂ ih₃ | app _ _ _ ih₁ ih₂ ih₃ | fulfilled _ _ _ ih₁ ih₂ ih₃ =>
    constructor
    · exact ih₁
    · exact ih₂
    · exact ih₃
  | same _ ih | classOf _ ih | car _ ih | cdr _ ih | dot _ ih =>
    constructor
    exact ih
  | object hlabels _ ih => exact .object hlabels.symm fun i f f' hf hf' => ih i f' f hf' hf
  | @closure θ env env' x x' b b' halike _ hmissing ih =>
    have halike := halike.symm
    rw [← Renaming.under_symm] at halike
    refine .closure halike (fun y hy hne y' hy' hne' h w w' hw hw' => ?_)
      fun y hy hne y' hy' hne' h => ?_
    · exact ih y' hy' hne' y hy hne h w' w hw' hw
    · exact (hmissing y' hy' hne' y hy hne h).symm

theorem trans {σ : Renaming} {k : Item} (h : Similar ρ i j) (h' : Similar σ j k) :
    Similar (ρ.comp σ) i k := by
  induction h generalizing k with
  | var hx =>
    cases h' with
    | var hx' => exact .var ⟨_, hx, hx'⟩
  | type | string | quote | trivial | sole | nil =>
    cases h'
    constructor
  | neutral _ _ ih₁ ih₂ | pi _ _ ih₁ ih₂ | fn _ _ ih₁ ih₂ | sigma _ _ ih₁ ih₂ | cons _ _ ih₁ ih₂
  | declared _ _ ih₁ ih₂ =>
    cases h'
    next h₁ h₂ =>
      constructor
      · exact ih₁ h₁
      · exact ih₂ h₂
  | equal _ _ _ ih₁ ih₂ ih₃ | app _ _ _ ih₁ ih₂ ih₃ | fulfilled _ _ _ ih₁ ih₂ ih₃ =>
    cases h'
    next h₁ h₂ h₃ =>
      constructor
      · exact ih₁ h₁
      · exact ih₂ h₂
      · exact ih₃ h₃
  | same _ ih | classOf _ ih | car _ ih | cdr _ ih | dot _ ih =>
    cases h'
    next h' =>
      constructor
      exact ih h'
  | @object fs gs hlabels _ ih =>
    cases h' with
    | object hlabels' hfields =>
      refine .object (hlabels.trans hlabels') fun i f f' hf hf' => ?_
      have hlength : fs.length = gs.length := by simpa using congrArg List.length hlabels
      obtain ⟨g, hg⟩ : ∃ g, gs[i]? = some g := by
        have hi : i < fs.length := (List.getElem?_eq_some_iff.1 hf).1
        exact ⟨_, List.getElem?_eq_getElem (hlength ▸ hi)⟩
      exact ih i f g hf hg (hfields i g f' hg hf')
  | @closure θ env env' x x' b b' halike _ hmissing ih =>
    cases h' with
    | @closure θ' _ env'' _ x'' _ b'' halike' hkept' hmissing' =>
      -- only the names that occur in between matter
      let θ₁ : Renaming := fun y y' => (y' ∈ b'.freeNames ∧ y' ≠ x') ∧ θ y y'
      have halike₁ : b.Alike (θ₁.under x x') b' := halike.mono fun y hy y' hy' h =>
        h.imp_right fun ⟨hne, hne', h⟩ => ⟨hne, hne', ⟨hy', hne'⟩, h⟩
      have hcomp : b.Alike ((θ₁.comp θ').under x x'') b'' :=
        (halike₁.trans halike').mono fun y _ z _ => Renaming.under_comp
      refine .closure hcomp ?_ ?_
      · rintro y hy hne z hz hne'' ⟨y', ⟨⟨hy', hne'⟩, h⟩, h'⟩ w w'' hw hw''
        cases hw' : env'.lookup y' with
        | none =>
          rw [(hmissing y hy hne y' hy' hne' h).2 hw'] at hw
          cases hw
        | some w' =>
          exact ih y hy hne y' hy' hne' h w w' hw hw'
            (hkept' y' hy' hne' z hz hne'' h' w' w'' hw' hw'')
      · rintro y hy hne z hz hne'' ⟨y', ⟨⟨hy', hne'⟩, h⟩, h'⟩
        exact (hmissing y hy hne y' hy' hne' h).trans (hmissing' y' hy' hne' z hz hne'' h')

/-- Values that are the same up to bound names are similar to the same values. -/
theorem of_eq {k : Item} (h : Similar Eq i j) (h' : Similar ρ j k) : Similar ρ i k :=
  (h.trans h').mono fun _ _ ⟨_, heq, h⟩ => heq ▸ h

end Similar

/-- `t` and `t'` are alike, and what the environments hold for names that stand for each other is
similar. -/
structure Environment.Similar (ρ θ : Renaming) (env env' : Environment) (t t' : Term) : Prop where
  alike : t.Alike θ t'
  lookup : ∀ y ∈ t.freeNames, ∀ y' ∈ t'.freeNames, θ y y' →
    Option.Rel (Value.Similar ρ) (env.lookup y) (env'.lookup y')

namespace Closure

variable {ρ θ : Renaming} {env env' : Environment} {x x' : Name} {b b' : Term}
  {c c' : Closure} {v v' : Value}

/-- The body of a binder waits in a closure. -/
theorem Similar.of_lookup (halike : b.Alike (θ.under x x') b')
    (h : ∀ y ∈ b.freeNames, y ≠ x → ∀ y' ∈ b'.freeNames, y' ≠ x' → θ y y' →
      Option.Rel (Value.Similar ρ) (env.lookup y) (env'.lookup y')) :
    Closure.Similar ρ ⟨env, x, b⟩ ⟨env', x', b'⟩ := by
  refine .closure halike (fun y hy hne y' hy' hne' hθ w w' hw hw' => ?_)
    fun y hy hne y' hy' hne' hθ => ?_
  · have hrel := h y hy hne y' hy' hne' hθ
    rw [hw, hw'] at hrel
    cases hrel with
    | some hrel => exact hrel
  · have hrel := h y hy hne y' hy' hne' hθ
    generalize env.lookup y = o at hrel
    generalize env'.lookup y' = o' at hrel
    cases hrel <;> simp

/-- The bodies of similar closures are computed in similar environments. -/
theorem Similar.bind (h : c.Similar ρ c') (hv : v.Similar ρ v') :
    ∃ θ, Environment.Similar ρ θ (c.bind v) (c'.bind v') c.body c'.body := by
  cases h with
  | @closure θ env env' x x' b b' halike hkept hmissing =>
    refine ⟨θ.under x x', halike, fun y hy y' hy' hθ => ?_⟩
    simp only [Closure.bind, lookup_cons_ite]
    rcases hθ with ⟨rfl, rfl⟩ | ⟨hne, hne', hθ⟩
    · rw [if_pos rfl, if_pos rfl]
      exact .some hv
    · rw [if_neg hne, if_neg hne']
      cases hw : env.lookup y with
      | none =>
        rw [(hmissing y hy hne y' hy' hne' hθ).1 hw]
        exact .none
      | some w =>
        cases hw' : env'.lookup y' with
        | none =>
          rw [(hmissing y hy hne y' hy' hne' hθ).2 hw'] at hw
          cases hw
        | some w' => exact .some (hkept y hy hne y' hy' hne' hθ w w' hw hw')

end Closure

section

variable {ρ : Renaming}

mutual

/-- A value is similar to itself, if its variables stand for themselves. -/
theorem Value.similar_self : (v : Value) → (∀ y, v.Has (.name y) → ρ y y) → v.Similar ρ v
  | .neutral a e, h => .neutral (Value.similar_self a fun y hy => h y (.neutralType hy))
      (Neutral.similar_self e fun y hy => h y (.neutralSpine hy))
  | .type, _ => .type
  | .pi _ a c, h => .pi (Value.similar_self a fun y hy => h y (.piDomain hy))
      (Closure.similar_self c fun y hy => h y (.piCodomain hy))
  | .fn _ a c, h => .fn (Value.similar_self a fun y hy => h y (.fnDomain hy))
      (Closure.similar_self c fun y hy => h y (.fnBody hy))
  | .sigma a c, h => .sigma (Value.similar_self a fun y hy => h y (.sigmaCar hy))
      (Closure.similar_self c fun y hy => h y (.sigmaCdr hy))
  | .cons a b, h => .cons (Value.similar_self a fun y hy => h y (.consCar hy))
      (Value.similar_self b fun y hy => h y (.consCdr hy))
  | .string, _ => .string
  | .quote text, _ => .quote text
  | .trivial, _ => .trivial
  | .sole, _ => .sole
  | .equal a l r, h => .equal (Value.similar_self a fun y hy => h y (.equalType hy))
      (Value.similar_self l fun y hy => h y (.equalLeft hy))
        (Value.similar_self r fun y hy => h y (.equalRight hy))
  | .same a, h => .same (Value.similar_self a fun y hy => h y (.same hy))
  | .classOf c, h => .classOf (Chain.similar_self c fun y hy => h y (.classOf hy))
  | .object fs, h =>
    let ⟨hlabels, hfields⟩ :=
      fieldsAlike_iff.1 (fields_similar_self fs fun _ hf y hy => h y (.objectField hf hy))
    .object hlabels hfields

theorem Neutral.similar_self : (e : Neutral) → (∀ y, e.Has (.name y) → ρ y y) → e.Similar ρ e
  | .var x, h => .var (h x .var)
  | .app _ e a v, h => .app (Neutral.similar_self e fun y hy => h y (.appTarget hy))
      (Value.similar_self a fun y hy => h y (.appType hy))
        (Value.similar_self v fun y hy => h y (.appArg hy))
  | .car e, h => .car (Neutral.similar_self e fun y hy => h y (.car hy))
  | .cdr e, h => .cdr (Neutral.similar_self e fun y hy => h y (.cdr hy))
  | .dot e _, h => .dot (Neutral.similar_self e fun y hy => h y (.dot hy))

theorem Chain.similar_self : (c : Chain) → (∀ y, c.Has (.name y) → ρ y y) → c.Similar ρ c
  | .nil, _ => .nil
  | .declared _ a c, h => .declared (Value.similar_self a fun y hy => h y (.declaredType hy))
      (Closure.similar_self c fun y hy => h y (.declaredClosure hy))
  | .fulfilled _ a v c, h => .fulfilled (Value.similar_self a fun y hy => h y (.fulfilledType hy))
      (Value.similar_self v fun y hy => h y (.fulfilledValue hy))
      (Chain.similar_self c fun y hy => h y (.fulfilledRest hy))

theorem Closure.similar_self : (c : Closure) → (∀ y, c.Has (.name y) → ρ y y) → c.Similar ρ c
  | ⟨env, x, b⟩, h => by
    have halike : b.Alike (Renaming.under Eq x x) b :=
        (Term.Alike.refl b).mono fun y _ y' _ hy => by
      subst hy
      by_cases hx : y = x
      · exact .inl ⟨hx, hx⟩
      · exact .inr ⟨hx, hx, rfl⟩
    refine .of_lookup halike fun y hy hne y' hy' hne' hyy' => ?_
    subst hyy'
    exact lookup_similar_self env y fun w hw z hz => h z (.kept hy hne hw hz)

theorem fields_similar_self :
    (fs : List (Name × Value)) → (∀ f ∈ fs, ∀ y, f.2.Has (.name y) → ρ y y) →
    FieldsAlike (Value.Similar ρ) fs fs
  | [], _ => .nil
  | (k, v) :: fs, h => .cons ⟨rfl, Value.similar_self v (h (k, v) List.mem_cons_self)⟩
      (fields_similar_self fs fun f hf => h f (List.mem_cons_of_mem _ hf))

theorem lookup_similar_self : (env : List (Name × Value)) → (x : Name) →
    (∀ w, env.lookup x = some w → ∀ y, w.Has (.name y) → ρ y y) →
    Option.Rel (Value.Similar ρ) (env.lookup x) (env.lookup x)
  | [], _, _ => .none
  | (k, v) :: env, x, h => by
    by_cases hx : x = k
    · rw [lookup_cons_ite, if_pos hx] at h ⊢
      exact .some (Value.similar_self v (h v rfl))
    · rw [lookup_cons_ite, if_neg hx] at h ⊢
      exact lookup_similar_self env x h

end

end

namespace Environment.Similar

variable {ρ θ : Renaming} {env env' : Environment} {t t' u u' : Term}

theorem sub (h : Environment.Similar ρ θ env env' t t') (halike : u.Alike θ u')
    (hu : ∀ y ∈ u.freeNames, y ∈ t.freeNames) (hu' : ∀ y ∈ u'.freeNames, y ∈ t'.freeNames) :
    Environment.Similar ρ θ env env' u u' :=
  ⟨halike, fun y hy y' hy' => h.lookup y (hu y hy) y' (hu' y' hy')⟩

theorem close (h : Environment.Similar ρ θ env env' t t') {x x' : Name}
    (halike : u.Alike (θ.under x x') u') (hu : ∀ y ∈ u.freeNames, y ≠ x → y ∈ t.freeNames)
    (hu' : ∀ y ∈ u'.freeNames, y ≠ x' → y ∈ t'.freeNames) :
    Closure.Similar ρ ⟨env, x, u⟩ ⟨env', x', u'⟩ :=
  .of_lookup halike fun y hy hne y' hy' hne' => h.lookup y (hu y hy hne) y' (hu' y' hy' hne')

end Environment.Similar

namespace Eval

variable {α β γ δ : Type} {P : α → β → Prop} {Q : γ → δ → Prop}

/-- Whatever the first computation finds, the second finds something related to it. -/
def Rel (P : α → β → Prop) (x : Eval α) (y : Eval β) : Prop :=
  ∀ a, x = .ok a → ∃ b, y = .ok b ∧ P a b

namespace Rel

theorem pure {a : α} {b : β} (h : P a b) : Rel P (Pure.pure a) (Pure.pure b) := by
  intro c hc
  cases hc
  exact ⟨b, rfl, h⟩

theorem fault (c : Fault) (y : Eval β) : Rel P (Eval.fault c) y := fun _ h => by cases h

theorem outOfFuel (y : Eval β) : Rel P Eval.outOfFuel y := fun _ h => by cases h

theorem bind {x : Eval α} {y : Eval β} {f : α → Eval γ} {g : β → Eval δ} (h : Rel P x y)
    (h' : ∀ a b, P a b → Rel Q (f a) (g b)) : Rel Q (x >>= f) (y >>= g) := by
  intro c hc
  obtain ⟨a, ha, hc⟩ := bind_eq_ok.1 hc
  obtain ⟨b, hb, hab⟩ := h a ha
  obtain ⟨d, hd, hcd⟩ := h' a b hab c hc
  exact ⟨d, bind_eq_ok.2 ⟨b, hb, hd⟩, hcd⟩

theorem map {x : Eval α} {y : Eval β} {f : α → γ} {g : β → δ} (h : Rel P x y)
    (h' : ∀ a b, P a b → Q (f a) (g b)) :
    Rel Q (f <$> x) (g <$> y) := by
  intro c hc
  obtain ⟨a, ha, rfl⟩ := map_eq_ok.1 hc
  obtain ⟨b, hb, hab⟩ := h a ha
  exact ⟨g b, map_eq_ok.2 ⟨b, hb, rfl⟩, h' a b hab⟩

theorem fields {f : α → Eval γ} {g : β → Eval δ} {fs : List (Name × α)} {gs : List (Name × β)}
    (hfs : FieldsAlike P fs gs) (h : ∀ a b, P a b → Rel Q (f a) (g b)) :
    Rel (FieldsAlike Q)
      (fs.mapM fun (label, a) => do
        let a ← f a
        Pure.pure (label, a))
      (gs.mapM fun (label, b) => do
        let b ← g b
        Pure.pure (label, b)) := by
  induction hfs with
  | nil =>
    rw [List.mapM_nil, List.mapM_nil]
    exact pure .nil
  | @cons p q fs gs hpq _ ih =>
    obtain ⟨k, a⟩ := p
    obtain ⟨j, b⟩ := q
    obtain ⟨rfl, hab⟩ := hpq
    rw [List.mapM_cons, List.mapM_cons]
    exact (bind (h a b hab) fun c d hcd => pure (P := fun p q : Name × _ => p.1 = q.1 ∧ Q p.2 q.2)
      ⟨rfl, hcd⟩).bind fun _ _ hcd => ih.bind fun _ _ hrest => pure (.cons hcd hrest)

end Rel

end Eval

variable {ρ : Renaming}

theorem Value.Similar.object {fs fs' : List (Name × Value)}
    (h : FieldsAlike (Value.Similar ρ) fs fs') :
    Value.Similar ρ (.object fs) (.object fs') :=
  let ⟨hlabels, hfields⟩ := fieldsAlike_iff.1 h
  DependentClasses.Similar.object hlabels hfields

theorem FieldsAlike.lookup {α β : Type} {P : α → β → Prop} {fs : List (Name × α)}
    {gs : List (Name × β)} (h : FieldsAlike P fs gs) (k : Name) :
    Option.Rel P (fs.lookup k) (gs.lookup k) := by
  induction h with
  | nil => exact .none
  | @cons f g fs gs hfg _ ih =>
    obtain ⟨j, a⟩ := f
    obtain ⟨j', b⟩ := g
    obtain ⟨rfl, hab⟩ := hfg
    rw [lookup_cons_ite, lookup_cons_ite]
    split
    · exact .some hab
    · exact ih

theorem Value.car_similar {v v' : Value} (h : v.Similar ρ v') :
    Eval.Rel (Value.Similar ρ) v.car v'.car := by
  cases h with
  | cons ha hb => exact .pure ha
  | neutral ha he =>
    cases ha with
    | sigma ha hc => exact .pure (.neutral ha (.car he))
    | _ => exact .fault _ _
  | _ => exact .fault _ _

theorem Value.chain_similar {v v' : Value} (h : v.Similar ρ v') :
    Eval.Rel (Chain.Similar ρ) v.chain v'.chain := by
  cases h with
  | classOf hc => exact .pure hc
  | _ => exact .fault _ _

structure ComputesSimilarly (ρ : Renaming) (n : Nat) : Prop where
  eval {θ : Renaming} {env env' : Environment} {t t' : Term} : Environment.Similar ρ
    θ env env' t t' → Eval.Rel (Value.Similar ρ) (eval n env t) (eval n env' t')
  chain {θ : Renaming} {env env' : Environment} {t t' : Term} : Environment.Similar ρ
    θ env env' t t' → Eval.Rel (Chain.Similar ρ) (evalChain n env t) (evalChain n env' t')
  app {p : Plicity} {f f' a a' : Value} : f.Similar ρ f' → a.Similar ρ a' →
    Eval.Rel (Value.Similar ρ) (f.app n p a) (f'.app n p a')
  cdr {v v' : Value} : v.Similar ρ v' → Eval.Rel (Value.Similar ρ) (v.cdr n) (v'.cdr n)
  dot {v v' : Value} {k : Name} : v.Similar ρ v' →
    Eval.Rel (Value.Similar ρ) (v.dot n k) (v'.dot n k)
  find {c c' : Chain} {v v' : Value} {k : Name} : c.Similar ρ c' → v.Similar ρ v' →
    Eval.Rel (Option.Rel fun f f' => f.1.Similar ρ f'.1 ∧ Option.Rel (Value.Similar ρ) f.2 f'.2)
      (c.find n v k) (c'.find n v' k)

namespace ComputesSimilarly

variable {n : Nat}

theorem eval_succ (ih : ComputesSimilarly ρ n) {θ : Renaming} {env env' : Environment} {t t' : Term}
    (h : Environment.Similar ρ θ env env' t t') :
    Eval.Rel (Value.Similar ρ) (DependentClasses.eval (n + 1) env t)
      (DependentClasses.eval (n + 1) env' t') := by
  unfold DependentClasses.eval
  cases h.alike with
  | @var _ x x' hx =>
    have hrel := h.lookup x (by simp) x' (by simp) hx
    dsimp only
    generalize env.lookup x = o at hrel ⊢
    generalize env'.lookup x' = o' at hrel ⊢
    cases hrel with
    | none => exact .fault _ _
    | some hw => exact .pure hw
  | type => exact .pure .type
  | string => exact .pure .string
  | quote text => exact .pure (.quote text)
  | trivial => exact .pure .trivial
  | sole => exact .pure .sole
  | pi ha hb =>
    refine .bind (ih.eval (h.sub ha (by simp +contextual) (by simp +contextual))) fun v v' hv =>
      .pure (.pi hv ?_)
    exact h.close hb (by simp +contextual) (by simp +contextual)
  | fn ha hb =>
    refine .bind (ih.eval (h.sub ha (by simp +contextual) (by simp +contextual))) fun v v' hv =>
      .pure (.fn hv ?_)
    exact h.close hb (by simp +contextual) (by simp +contextual)
  | sigma ha hb =>
    refine .bind (ih.eval (h.sub ha (by simp +contextual) (by simp +contextual))) fun v v' hv =>
      .pure (.sigma hv ?_)
    exact h.close hb (by simp +contextual) (by simp +contextual)
  | app ha hb =>
    refine .bind (ih.eval (h.sub ha (by simp +contextual) (by simp +contextual))) fun f f' hf => ?_
    exact .bind (ih.eval (h.sub hb (by simp +contextual) (by simp +contextual)))
      fun v v' hv => ih.app hf hv
  | cons ha hb =>
    refine .bind (ih.eval (h.sub ha (by simp +contextual) (by simp +contextual))) fun v v' hv => ?_
    exact .bind (ih.eval (h.sub hb (by simp +contextual) (by simp +contextual))) fun w w' hw =>
      .pure (.cons hv hw)
  | car ha =>
    exact .bind (ih.eval (h.sub ha (by simp) (by simp))) fun v v' hv => Value.car_similar hv
  | cdr ha => exact .bind (ih.eval (h.sub ha (by simp) (by simp))) fun v v' hv => ih.cdr hv
  | same ha => exact .bind (ih.eval (h.sub ha (by simp) (by simp))) fun v v' hv => .pure (.same hv)
  | dot ha => exact .bind (ih.eval (h.sub ha (by simp) (by simp))) fun v v' hv => ih.dot hv
  | equal ha hl hr =>
    refine .bind (ih.eval (h.sub ha (by simp +contextual) (by simp +contextual))) fun v v' hv => ?_
    refine .bind (ih.eval (h.sub hl (by simp +contextual) (by simp +contextual))) fun w w' hw => ?_
    exact .bind (ih.eval (h.sub hr (by simp +contextual) (by simp +contextual))) fun u u' hu =>
      .pure (.equal hv hw hu)
  | emptyClass | declared | fulfilled => exact .bind (ih.chain h) fun c c' hc => .pure (.classOf hc)
  | @object _ fs fs' hlabels hfields =>
    have hfs : FieldsAlike (Environment.Similar ρ θ env env') fs fs' := by
      refine fieldsAlike_iff.2 ⟨hlabels, fun i f f' hf hf' => ?_⟩
      have hmem := List.mem_of_getElem? hf
      have hmem' := List.mem_of_getElem? hf'
      exact h.sub (hfields i f f' hf hf') (fun y hy => Term.mem_freeNames_object.2 ⟨f, hmem, hy⟩)
        fun y hy => Term.mem_freeNames_object.2 ⟨f', hmem', hy⟩
    exact .bind (.fields hfs fun a a' => ih.eval) fun vs vs' hvs => .pure (Value.Similar.object hvs)
  | letIn ha hv hb =>
    refine .bind (ih.eval (h.sub hv (by simp +contextual) (by simp +contextual))) fun v v' hv => ?_
    have hclosure := h.close hb (by simp +contextual) (by simp +contextual)
    obtain ⟨θ', henv⟩ := hclosure.bind hv
    exact ih.eval henv

theorem chain_succ (ih : ComputesSimilarly ρ n) {θ : Renaming}
    {env env' : Environment} {t t' : Term} (h : Environment.Similar ρ θ env env' t t') :
    Eval.Rel (Chain.Similar ρ) (evalChain (n + 1) env t) (evalChain (n + 1) env' t') := by
  unfold evalChain
  cases h.alike with
  | emptyClass => exact .pure .nil
  | declared ha hb =>
    refine .bind (ih.eval (h.sub ha (by simp +contextual) (by simp +contextual))) fun v v' hv =>
      .pure (.declared hv ?_)
    exact h.close hb (by simp +contextual) (by simp +contextual)
  | fulfilled ha hv hb =>
    refine .bind (ih.eval (h.sub hv (by simp +contextual) (by simp +contextual))) fun v v' hv => ?_
    refine .bind (ih.eval (h.sub ha (by simp +contextual) (by simp +contextual))) fun a a' ha => ?_
    have hclosure := h.close hb (by simp +contextual) (by simp +contextual)
    obtain ⟨θ', henv⟩ := hclosure.bind hv
    exact .bind (ih.chain henv) fun c c' hc => .pure (.fulfilled ha hv hc)
  | _ => exact .fault _ _

theorem apply (ih : ComputesSimilarly ρ n) {c c' : Closure} {v v' : Value} (hc : c.Similar ρ c')
    (hv : v.Similar ρ v') :
    Eval.Rel (Value.Similar ρ) (c.apply n v) (c'.apply n v') := by
  obtain ⟨θ, henv⟩ := hc.bind hv
  exact ih.eval henv

theorem app_succ (ih : ComputesSimilarly ρ n) {p : Plicity} {f f' a a' : Value}
    (hf : f.Similar ρ f') (ha : a.Similar ρ a') :
    Eval.Rel (Value.Similar ρ) (f.app (n + 1) p a) (f'.app (n + 1) p a') := by
  unfold Value.app
  cases hf with
  | fn _ hc =>
    dsimp only
    split
    · exact ih.apply hc ha
    · exact .fault _ _
  | neutral htype he =>
    cases htype with
    | pi hdomain hc =>
      dsimp only
      split
      · exact .bind (ih.apply hc ha) fun b b' hb => .pure (.neutral hb (.app he hdomain ha))
      · exact .fault _ _
    | _ => exact .fault _ _
  | _ => exact .fault _ _

theorem cdr_succ (ih : ComputesSimilarly ρ n) {v v' : Value} (hv : v.Similar ρ v') :
    Eval.Rel (Value.Similar ρ) (v.cdr (n + 1)) (v'.cdr (n + 1)) := by
  unfold Value.cdr
  cases hv with
  | cons _ hb => exact .pure hb
  | neutral htype he =>
    cases htype with
    | sigma ha hc =>
      exact .bind (ih.apply hc (.neutral ha (.car he))) fun b b' hb => .pure (.neutral hb (.cdr he))
    | _ => exact .fault _ _
  | _ => exact .fault _ _

theorem dot_succ (ih : ComputesSimilarly ρ n) {v v' : Value} {k : Name} (hv : v.Similar ρ v') :
    Eval.Rel (Value.Similar ρ) (v.dot (n + 1) k) (v'.dot (n + 1) k) := by
  unfold Value.dot
  cases hv with
  | @object fs fs' hlabels hfields =>
    have hfs : FieldsAlike (Value.Similar ρ) fs fs' := fieldsAlike_iff.2 ⟨hlabels, hfields⟩
    have hrel := hfs.lookup k
    dsimp only
    generalize fs.lookup k = o at hrel ⊢
    generalize fs'.lookup k = o' at hrel ⊢
    cases hrel with
    | none => exact .fault _ _
    | some hw => exact .pure hw
  | neutral htype he =>
    cases htype with
    | classOf hc =>
      refine .bind (ih.find hc (.neutral (.classOf hc) he)) fun r r' hr => ?_
      cases hr with
      | none => exact .fault _ _
      | @some f f' hf =>
        obtain ⟨a, o⟩ := f
        obtain ⟨a', o'⟩ := f'
        obtain ⟨ha, ho⟩ := hf
        cases ho with
        | none => exact .pure (.neutral ha (.dot he))
        | some hw => exact .pure hw
    | _ => exact .fault _ _
  | _ => exact .fault _ _

theorem find_succ (ih : ComputesSimilarly ρ n) {c c' : Chain} {v v' : Value} {k : Name}
    (hc : c.Similar ρ c') (hv : v.Similar ρ v') :
    Eval.Rel (Option.Rel fun f f' => f.1.Similar ρ f'.1 ∧ Option.Rel (Value.Similar ρ) f.2 f'.2)
      (c.find (n + 1) v k) (c'.find (n + 1) v' k) := by
  unfold Chain.find
  cases hc with
  | nil => exact .pure .none
  | declared ha hrest =>
    dsimp only
    split
    · exact .pure (.some ⟨ha, .none⟩)
    · refine .bind (ih.dot hv) fun w w' hw => .bind (ih.apply hrest hw) fun r r' hr => ?_
      exact .bind (Value.chain_similar hr) fun d d' hd => ih.find hd hv
  | fulfilled ha hw hrest =>
    dsimp only
    split
    · exact .pure (.some ⟨ha, .some hw⟩)
    · exact ih.find hrest hv

theorem all (ρ : Renaming) (n : Nat) : ComputesSimilarly ρ n := by
  induction n with
  | zero => constructor <;> intros <;> exact .outOfFuel _
  | succ n ih =>
    exact ⟨ih.eval_succ, ih.chain_succ, ih.app_succ, ih.cdr_succ, ih.dot_succ, ih.find_succ⟩

end ComputesSimilarly

end DependentClasses
