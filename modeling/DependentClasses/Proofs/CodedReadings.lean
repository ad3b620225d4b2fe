import DependentClasses.Proofs.CodedValues
import DependentClasses.Proofs.Contexts

/-! Reading back computes codes: the code of a normal form is reached from that of the value by
computing and by putting solutions for pattern variables, and there is nothing to carry out in it.
So the normal form of a value is the only one that its code has, up to the names of binders. -/
namespace DependentClasses

open Code

section Congruence

theorem Coding.under_congr {t : Term} {η η' : Coding} {x : Name}
    (h : ∀ y ∈ t.freeNames, y ≠ x → η y = η' y) :
    ∀ y ∈ t.freeNames, η.under x y = η'.under x y := by
  intro y hy
  by_cases hx : y = x
  · subst hx
    simp [under]
  · simp [under, hx, h y hy hx]

theorem Coding.update_congr {t : Term} {η η' : Coding} {x : Name} {c : Code}
    (h : ∀ y ∈ t.freeNames, y ≠ x → η y = η' y) :
    ∀ y ∈ t.freeNames, Function.update η x c y = Function.update η' x c y := by
  intro y hy
  by_cases hx : y = x
  · subst hx
    simp
  · simp [hx, h y hy hx]

mutual

/-- Only what the free names stand for matters. -/
theorem Term.code_congr : (t : Term) → {η η' : Coding} → (∀ y ∈ t.freeNames, η y = η' y) →
    t.code η = t.code η'
  | .var x, η, η', h => h x (by simp)
  | .type, _, _, _ | .string, _, _, _ | .quote _, _, _, _ | .trivial, _, _, _ | .sole, _, _, _
  | .emptyClass, _, _, _ => rfl
  | .pi _ x a b, η, η', h | .fn _ x a b, η, η', h | .sigma x a b, η, η', h
  | .declared _ x a b, η, η', h => by
    have hbody := Coding.under_congr (t := b) (x := x) fun y hy hne => h y (by simp [hy, hne])
    simp only [code, code_congr a fun y hy => h y (by simp [hy]), code_congr b hbody]
  | .app _ a b, η, η', h | .cons a b, η, η', h => by
    simp only [code, code_congr a fun y hy => h y (by simp [hy]),
      code_congr b fun y hy => h y (by simp [hy])]
  | .car a, η, η', h | .cdr a, η, η', h | .same a, η, η', h | .dot a _, η, η', h => by
    simp only [code, code_congr a fun y hy => h y (by simpa using hy)]
  | .equal a l r, η, η', h => by
    simp only [code, code_congr a fun y hy => h y (by simp [hy]),
      code_congr l fun y hy => h y (by simp [hy]), code_congr r fun y hy => h y (by simp [hy])]
  | .fulfilled _ x a v b, η, η', h => by
    have hvalue : v.code η = v.code η' := code_congr v fun y hy => h y (by simp [hy])
    have hrest := Coding.update_congr (t := b) (x := x) (c := v.code η') fun y hy hne =>
      h y (by simp [hy, hne])
    simp only [code, code_congr a fun y hy => h y (by simp [hy]), hvalue, code_congr b hrest]
  | .object fields, η, η', h => by
    simp only [code, codeOfFields_congr fields fun f hf y hy =>
      h y (mem_freeNames_object.2 ⟨f, hf, hy⟩)]
  | .letIn x _ v b, η, η', h => by
    have hbody := Coding.under_congr (t := b) (x := x) fun y hy hne => h y (by simp [hy, hne])
    simp only [code, code_congr v fun y hy => h y (by simp [hy]), code_congr b hbody]

theorem Term.codeOfFields_congr : (fields : List (Name × Term)) → {η η' : Coding} →
    (∀ f ∈ fields, ∀ y ∈ f.2.freeNames, η y = η' y) → codeOfFields fields η = codeOfFields fields η'
  | [], _, _, _ => rfl
  | (k, a) :: fields, η, η', h => by
    simp only [codeOfFields, code_congr a (h (k, a) List.mem_cons_self),
      codeOfFields_congr fields fun f hf => h f (List.mem_cons_of_mem _ hf)]

end

mutual

theorem Value.code_congr {X : Name → Prop} {θ θ' : Coding} (hθ : ∀ y, X y → θ y = θ' y) :
    (v : Value) → v.Over X → v.code θ = v.code θ'
  | .neutral _ e, h => Neutral.code_congr hθ e (Value.all_neutral.1 h).2
  | .type, _ | .string, _ | .quote _, _ | .trivial, _ | .sole, _ => rfl
  | .pi _ a c, h => by
    obtain ⟨ha, hc⟩ := Value.all_pi.1 h
    simp only [Value.code, Value.code_congr hθ a ha, Closure.code_congr hθ c hc]
  | .fn _ a c, h => by
    obtain ⟨ha, hc⟩ := Value.all_fn.1 h
    simp only [Value.code, Value.code_congr hθ a ha, Closure.code_congr hθ c hc]
  | .sigma a c, h => by
    obtain ⟨ha, hc⟩ := Value.all_sigma.1 h
    simp only [Value.code, Value.code_congr hθ a ha, Closure.code_congr hθ c hc]
  | .cons a b, h => by
    obtain ⟨ha, hb⟩ := Value.all_cons.1 h
    simp only [Value.code, Value.code_congr hθ a ha, Value.code_congr hθ b hb]
  | .equal a l r, h => by
    obtain ⟨ha, hl, hr⟩ := Value.all_equal.1 h
    simp only [Value.code, Value.code_congr hθ a ha, Value.code_congr hθ l hl,
      Value.code_congr hθ r hr]
  | .same a, h => by simp only [Value.code, Value.code_congr hθ a (Value.all_same.1 h)]
  | .classOf c, h => Chain.code_congr hθ c (Value.all_classOf.1 h)
  | .object fields, h => by
    simp only [Value.code, Value.codeOfFields_congr hθ fields (Value.all_object.1 h).2]

theorem Neutral.code_congr {X : Name → Prop} {θ θ' : Coding} (hθ : ∀ y, X y → θ y = θ' y) :
    (e : Neutral) → e.Over X → e.code θ = e.code θ'
  | .var x, h => hθ x (Neutral.all_var.1 h)
  | .app _ e _ v, h => by
    obtain ⟨he, -, hv⟩ := Neutral.all_app.1 h
    simp only [Neutral.code, Neutral.code_congr hθ e he, Value.code_congr hθ v hv]
  | .car e, h => by simp only [Neutral.code, Neutral.code_congr hθ e (Neutral.all_car.1 h)]
  | .cdr e, h => by simp only [Neutral.code, Neutral.code_congr hθ e (Neutral.all_cdr.1 h)]
  | .dot e _, h => by simp only [Neutral.code, Neutral.code_congr hθ e (Neutral.all_dot.1 h)]

theorem Chain.code_congr {X : Name → Prop} {θ θ' : Coding} (hθ : ∀ y, X y → θ y = θ' y) :
    (c : Chain) → c.Over X → c.code θ = c.code θ'
  | .nil, _ => rfl
  | .declared _ a c, h => by
    obtain ⟨-, -, ha, hc⟩ := Chain.all_declared.1 h
    simp only [Chain.code, Value.code_congr hθ a ha, Closure.code_congr hθ c hc]
  | .fulfilled _ a v c, h => by
    obtain ⟨-, ha, hv, hc⟩ := Chain.all_fulfilled.1 h
    simp only [Chain.code, Value.code_congr hθ a ha, Value.code_congr hθ v hv,
      Chain.code_congr hθ c hc]

theorem Closure.code_congr {X : Name → Prop} {θ θ' : Coding} (hθ : ∀ y, X y → θ y = θ' y) :
    (c : Closure) → c.All (Part.Named X) → c.code θ = c.code θ'
  | ⟨env, x, body⟩, h => by
    have hbody := Coding.under_congr (t := body) (x := x) fun y hy hne =>
      codeOfEntries_congr hθ env y ((Closure.all_iff.1 h).2 y hy hne).1
    simp only [Closure.code, Term.code_congr body hbody]

theorem codeOfEntries_congr {X : Name → Prop} {θ θ' : Coding} (hθ : ∀ y, X y → θ y = θ' y) :
    (env : List (Name × Value)) → (y : Name) → (∀ w, env.lookup y = some w → w.Over X) →
    codeOfEntries env θ y = codeOfEntries env θ' y
  | [], _, _ => rfl
  | (x, v) :: env, y, h => by
    simp only [lookup_cons_ite] at h
    simp only [codeOfEntries, Function.update_apply]
    split at h
    · next heq => simp only [if_pos heq, Value.code_congr hθ v (h v rfl)]
    · next hne => simp only [if_neg hne, codeOfEntries_congr hθ env y h]

theorem Value.codeOfFields_congr {X : Name → Prop} {θ θ' : Coding} (hθ : ∀ y, X y → θ y = θ' y) :
    (fields : List (Name × Value)) → (∀ f ∈ fields, f.2.Over X) →
    Value.codeOfFields fields θ = Value.codeOfFields fields θ'
  | [], _ => rfl
  | (k, a) :: fields, h => by
    simp only [Value.codeOfFields, Value.code_congr hθ a (h (k, a) List.mem_cons_self),
      Value.codeOfFields_congr hθ fields fun f hf => h f (List.mem_cons_of_mem _ hf)]

end

end Congruence

theorem Value.code_shift (v : Value) (θ : Coding) :
    (v.code θ).shift = v.code fun y => (θ y).shift := by
  simp only [shift, rename_eq_subst, v.code_subst]

/-- What the solved pattern variables stand for. -/
def Solution.meanings (s : Solution) : Meanings where
  of x :=
    match s.find x with
    | some (.solved _ v) => some (v.code free)
    | _ => none
  closed := by
    intro x c h σ
    split at h
    · cases h
      exact Value.code_subst _ _ σ
    · cases h

theorem Solution.meanings_of_solved {s : Solution} {x : Name} {a v : Value}
    (h : s.find x = some (.solved a v)) : s.meanings.of x = some (v.code free) := by
  simp only [meanings, h]

theorem Solution.meanings_of_unsolved {s : Solution} {x : Name} (h : ¬ s.IsSolved x) :
    s.meanings.of x = none := by
  simp only [meanings]
  split
  · next a v hv => exact absurd ⟨a, v, hv⟩ h
  · rfl

/-- Values over `X` may be read back with binders that avoid `used`, where `θ` tells what names
stand for: variables that are solved, and those in what they are solved by, stand for themselves. -/
structure Coding.Fits (θ : Coding) (s : Solution) (X : Name → Prop) (used : List Name) : Prop where
  keeps : s.Keeps (Part.Named X)
  named : s.NamedIn used
  used : ∀ y, X y → y ∈ used
  solved : ∀ m a v, s.find m = some (.solved a v) → X m → θ m = free m ∧ v.code θ = v.code free

theorem Coding.under_of_ne {θ : Coding} {x y : Name} (h : y ≠ x) : θ.under x y = (θ y).shift := by
  simp [under, h]

theorem Coding.under_self {θ : Coding} {x : Name} : θ.under x x = bound 0 := by simp [under]

/-- The name of a binder may join if it is not used. -/
theorem Coding.Fits.under {θ : Coding} {s : Solution} {X : Name → Prop} {used : List Name}
    (h : θ.Fits s X used) {x : Name} (hx : x ∉ used) :
    (θ.under x).Fits s (fun y => X y ∨ y = x) (x :: used) := by
  have hunsolved := h.named.not_isSolved hx
  refine ⟨h.keeps.bind hunsolved, h.named.cons x, ReadsNormal.joined h.used, ?_⟩
  rintro m a v hm (hX | rfl)
  · obtain ⟨hfree, hcode⟩ := h.solved m a v hm hX
    have hne : ∀ y, X y → y ≠ x := by
      rintro y hy rfl
      exact hx (h.used y hy)
    refine ⟨by rw [under_of_ne (hne m hX), hfree]; rfl, ?_⟩
    calc v.code (θ.under x) = v.code fun y => (θ y).shift :=
          Value.code_congr (fun y hy => under_of_ne (hne y hy)) v (h.keeps m a v hm hX)
      _ = (v.code free).shift := by rw [← Value.code_shift, hcode]
      _ = v.code free := Value.code_shift v free
  · exact absurd ⟨a, v, hm⟩ hunsolved

/-- The classes that a solution records fulfil only properties with a label in `F`, and what pattern
variables are solved by selects only others. -/
structure Solution.Separates (F : Name → Prop) (s : Solution) : Prop where
  fulfilled : s.All (Part.FulfilledIn F)
  selected : ∀ x a v, s.find x = some (.solved a v) → (v.code free).Avoids F

theorem Solution.Separates.avoid {F : Name → Prop} {s : Solution} (h : s.Separates F) :
    s.meanings.Avoid F := by
  intro x c hc
  simp only [meanings] at hc
  split at hc
  · next a v hv =>
    cases hc
    exact h.selected x a v hv
  · cases hc

section Forcing

variable {F X : Name → Prop} {used : List Name} {s : Solution} {θ : Coding} {n : Nat}

theorem Neutral.resume_reduces (hs : s.Separates F) (hθ : θ.Fits s X used) {e : Neutral} {v : Value}
    (h : e.resume n s = .ok (some v)) (he : e.Over X) (hparts : e.All (Part.FulfilledIn F))
    (hcode : (e.code θ).Avoids F) : Reduces s.meanings (e.code θ) (v.code θ) :=
  match e with
  | .var x => by
    unfold resume at h
    split at h
    · next a w hw =>
      simp only [Eval.pure_eq_ok, Option.some.injEq] at h
      subst h
      obtain ⟨hfree, hcode⟩ := hθ.solved x a _ hw (all_var.1 he)
      rw [code, hfree, hcode]
      exact .single (.meaning (Solution.meanings_of_solved hw))
    · simp at h
  | .app p f a w => by
    obtain ⟨g, hg, h⟩ := resumed_eq_some h
    obtain ⟨hf, -, -⟩ := all_app.1 he
    obtain ⟨hfparts, -, hwparts⟩ := all_app.1 hparts
    have htarget := resume_reduces (e := f) hs hθ hg hf hfparts hcode.1
    have hg := resume_all hs.fulfilled.keeps hg hfparts
    exact (htarget.app p (.refl _)).trans ((ComputesCodes.all hs.avoid n).app h hg hwparts
      (htarget.avoids hs.avoid hcode.1) hcode.2)
  | .car f => by
    obtain ⟨g, hg, h⟩ := resumed_eq_some h
    have htarget := resume_reduces (e := f) hs hθ hg (all_car.1 he) (all_car.1 hparts) hcode
    exact (htarget.take _).trans (Value.car_reduces h θ)
  | .cdr f => by
    obtain ⟨g, hg, h⟩ := resumed_eq_some h
    have htarget := resume_reduces (e := f) hs hθ hg (all_cdr.1 he) (all_cdr.1 hparts) hcode
    exact (htarget.take _).trans (Value.cdr_reduces h θ)
  | .dot f k => by
    obtain ⟨g, hg, h⟩ := resumed_eq_some h
    have htarget := resume_reduces (e := f) hs hθ hg (all_dot.1 he) (all_dot.1 hparts) hcode.2
    have hg := resume_all hs.fulfilled.keeps hg (all_dot.1 hparts)
    exact (htarget.take _).trans (Value.dot_reduces h hcode.1 hg θ)

theorem Value.force_reduces (hs : s.Separates F) (hθ : θ.Fits s X used) {v w : Value}
    (h : v.force n s = .ok w) (hv : v.Over X) (hparts : v.All (Part.FulfilledIn F))
    (hcode : (v.code θ).Avoids F) : Reduces s.meanings (v.code θ) (w.code θ) := by
  induction n generalizing v with
  | zero => simp [force] at h
  | succ n ih =>
    unfold force at h
    split at h
    · next a e =>
      simp only [Eval.bind_eq_ok] at h
      obtain ⟨r, hr, h⟩ := h
      cases r with
      | none =>
        rw [Eval.pure_eq_ok] at h
        subst h
        exact .refl _
      | some u =>
        have he := (all_neutral.1 hv).2
        have heparts := (all_neutral.1 hparts).2
        have hu := Neutral.resume_reduces hs hθ hr he heparts hcode
        exact hu.trans (ih h (Neutral.resume_all hθ.keeps hr he)
          (Neutral.resume_all hs.fulfilled.keeps hr heparts) (hu.avoids hs.avoid hcode))
    · rw [Eval.pure_eq_ok] at h
      subst h
      exact .refl _

end Forcing

structure Value.Decodable (F X : Name → Prop) (θ : Coding) (v : Value) : Prop where
  named : v.Over X
  fulfilled : v.All (Part.FulfilledIn F)
  selected : (v.code θ).Avoids F

structure Neutral.Decodable (F X : Name → Prop) (θ : Coding) (e : Neutral) : Prop where
  named : e.Over X
  fulfilled : e.All (Part.FulfilledIn F)
  selected : (e.code θ).Avoids F

structure Chain.Decodable (F X : Name → Prop) (θ : Coding) (c : Chain) : Prop where
  named : c.Over X
  fulfilled : c.All (Part.FulfilledIn F)
  selected : (c.code θ).Avoids F

theorem Value.code_chain {v : Value} {c : Chain} (h : v.chain = .ok c) (θ : Coding) :
    v.code θ = c.code θ := by
  unfold Value.chain at h
  split at h
  · rw [Eval.pure_eq_ok] at h
    subst h
    rfl
  · simp at h

theorem Value.Decodable.chain {F X : Name → Prop} {θ : Coding} {v : Value} {c : Chain}
    (h : v.Decodable F X θ) (hc : v.chain = .ok c) : c.Decodable F X θ :=
  ⟨Value.chain_all hc h.named, Value.chain_all hc h.fulfilled, Value.code_chain hc θ ▸ h.selected⟩

structure ReadsCodes (F : Name → Prop) (s : Solution) (n : Nat) : Prop where
  value {X : Name → Prop} {used : List Name} {θ : Coding} {v : Value} {t : Term} :
    θ.Fits s X used → v.Decodable F X θ → v.reify n s used = .ok t →
      Reduces s.meanings (v.code θ) (t.code θ)
  spine {X : Name → Prop} {used : List Name} {θ : Coding} {e : Neutral} {t : Term} :
    θ.Fits s X used → e.Decodable F X θ → e.reify n s used = .ok t →
      Reduces s.meanings (e.code θ) (t.code θ)
  chain {X : Name → Prop} {used : List Name} {θ : Coding} {c : Chain} {t : Term} :
    θ.Fits s X used → c.Decodable F X θ → c.reify n s used = .ok t →
      Reduces s.meanings (c.code θ) (t.code θ)

namespace ReadsCodes

variable {F X : Name → Prop} {used : List Name} {s : Solution} {θ : Coding} {n : Nat} {x : Name}

/-- The code of a closure's body, with a variable for the closure's name. -/
theorem opened (hs : s.Separates F) (hθ : θ.Fits s X used) {c : Closure}
    {a r : Value} (hx : x ∉ used) (hr : c.apply n (.variable a x) = .ok r) (ha : a.Over X)
    (haparts : a.All (Part.FulfilledIn F)) (hc : c.All (Part.Named X))
    (hcparts : c.All (Part.FulfilledIn F)) (hcode : (c.code θ).Avoids F) :
    r.Decodable F (fun y => X y ∨ y = x) (θ.under x) ∧
      Reduces s.meanings (c.code θ) (.under (r.code (θ.under x))) := by
  obtain ⟨env, z, body⟩ := c
  have hne : ∀ y, X y → y ≠ x := by
    rintro y hy rfl
    exact hx (hθ.used y hy)
  have hentries : ∀ y ∈ body.freeNames, (codeOfEntries env θ).under z y =
      codeOfEntries ((z, .variable a x) :: env) (θ.under x) y := by
    intro y hy
    rw [codeOfEntries, Function.update_apply]
    split
    · next heq =>
      subst heq
      rw [Coding.under_self]
      exact Coding.under_self.symm
    · next hyz =>
      rw [Coding.under_of_ne hyz]
      have hkept := ((Closure.all_iff.1 hc).2 y hy hyz).1
      have hshift : (codeOfEntries env θ y).shift = codeOfEntries env (fun y => (θ y).shift) y := by
        simp only [shift, rename_eq_subst]
        exact congrFun (codeOfEntries_subst env θ _) y
      rw [hshift]
      exact codeOfEntries_congr (fun y hy => (Coding.under_of_ne (hne y hy)).symm) env y hkept
  have hbody : body.code ((codeOfEntries env θ).under z) = _ := Term.code_congr body hentries
  have hstart : Closure.code ⟨env, z, body⟩ θ =
      .under (body.code (codeOfEntries ((z, .variable a x) :: env) (θ.under x))) := by
    rw [Closure.code, hbody]
  rw [hstart] at hcode ⊢
  have hvariable : (Value.variable a x).All (Part.FulfilledIn F) :=
    Value.all_variable.2 ⟨haparts, trivial⟩
  have henv := hcparts.bind hvariable
  have hreduces := (ComputesCodes.all hs.avoid n).eval hr henv hcode
  have hdecodable : r.Decodable F (fun y => X y ∨ y = x) (θ.under x) :=
    ⟨Closure.apply_over hr hc ha, (AddsNoParts.all _ n).eval hr henv,
      hreduces.avoids hs.avoid hcode⟩
  exact ⟨hdecodable, .under hreduces⟩

theorem body (ih : ReadsCodes F s n) (hs : s.Separates F) (hθ : θ.Fits s X used) {c : Closure}
    {a r : Value} {t : Term} (hx : x ∉ used) (hr : c.apply n (.variable a x) = .ok r)
    (ht : r.reify n s (x :: used) = .ok t) (ha : a.Over X) (haparts : a.All (Part.FulfilledIn F))
    (hc : c.All (Part.Named X)) (hcparts : c.All (Part.FulfilledIn F))
    (hcode : (c.code θ).Avoids F) :
    Reduces s.meanings (c.code θ) (.under (t.code (θ.under x))) := by
  obtain ⟨hdecodable, hreduces⟩ := opened hs hθ hx hr ha haparts hc hcparts hcode
  exact hreduces.trans (.under (ih.value (hθ.under hx) hdecodable ht))

theorem fields (ih : ReadsCodes F s n) (hθ : θ.Fits s X used) {fields : List (Name × Value)}
    {ts : List (Name × Term)} (h : (fields.mapM fun (label, a) => do
      let a ← a.reify n s used
      pure (label, a)) = Except.ok ts) (hfields : ∀ f ∈ fields, f.2.Decodable F X θ) :
    Reduces s.meanings (Value.codeOfFields fields θ) (Term.codeOfFields ts θ) := by
  induction fields generalizing ts with
  | nil =>
    cases h
    exact .refl _
  | cons f fields ihf =>
    obtain ⟨k, a⟩ := f
    simp only [List.mapM_cons, Eval.bind_eq_ok, Eval.pure_eq_ok] at h
    obtain ⟨_, ⟨w, hw, rfl⟩, gs, hgs, rfl⟩ := h
    have hvalue := ih.value hθ (hfields (k, a) List.mem_cons_self) hw
    exact .join (.tag _ hvalue) (ihf hgs fun f hf => hfields f (List.mem_cons_of_mem _ hf))

theorem avoids_fields {fields : List (Name × Value)} (h : (Value.codeOfFields fields θ).Avoids F) :
    ∀ f ∈ fields, (f.2.code θ).Avoids F := by
  induction fields with
  | nil => simp
  | cons f fields ih => exact List.forall_mem_cons.2 ⟨h.1, ih h.2⟩

theorem value_succ (ih : ReadsCodes F s n) (hs : s.Separates F) (hθ : θ.Fits s X used) {v : Value}
    {t : Term} (hv : v.Decodable F X θ) (h : v.reify (n + 1) s used = .ok t) :
    Reduces s.meanings (v.code θ) (t.code θ) := by
  unfold Value.reify at h
  simp only [Eval.bind_eq_ok] at h
  obtain ⟨w, hw, h⟩ := h
  have hforced := Value.force_reduces hs hθ hw hv.named hv.fulfilled hv.selected
  have hcode := hforced.avoids hs.avoid hv.selected
  have hX : w.Over X := Value.force_all hθ.keeps hw hv.named
  have hparts := Value.force_all hs.fulfilled.keeps hw hv.fulfilled
  refine hforced.trans ?_
  cases w with
  | neutral a e =>
    exact ih.spine hθ ⟨(Value.all_neutral.1 hX).2, (Value.all_neutral.1 hparts).2, hcode⟩ h
  | type | string | quote | trivial | sole =>
    simp only [Eval.pure_eq_ok] at h
    subst h
    exact .refl _
  | pi p a c =>
    simp only [Eval.bind_eq_ok, Eval.pure_eq_ok] at h
    obtain ⟨r, hr, b, hb, d, hd, rfl⟩ := h
    obtain ⟨ha, hc⟩ := Value.all_pi.1 hX
    obtain ⟨haparts, hcparts⟩ := Value.all_pi.1 hparts
    have hbody := ih.body hs hθ (Name.fresh_not_mem used c.x) hr hb ha haparts hc hcparts hcode.2
    exact .tag _ (.join (ih.value hθ ⟨ha, haparts, hcode.1⟩ hd) hbody)
  | fn p a c =>
    simp only [Eval.bind_eq_ok, Eval.pure_eq_ok] at h
    obtain ⟨r, hr, b, hb, d, hd, rfl⟩ := h
    obtain ⟨ha, hc⟩ := Value.all_fn.1 hX
    obtain ⟨haparts, hcparts⟩ := Value.all_fn.1 hparts
    have hbody := ih.body hs hθ (Name.fresh_not_mem used c.x) hr hb ha haparts hc hcparts hcode.2
    exact .tag _ (.join (ih.value hθ ⟨ha, haparts, hcode.1⟩ hd) hbody)
  | sigma a c =>
    simp only [Eval.bind_eq_ok, Eval.pure_eq_ok] at h
    obtain ⟨r, hr, b, hb, d, hd, rfl⟩ := h
    obtain ⟨ha, hc⟩ := Value.all_sigma.1 hX
    obtain ⟨haparts, hcparts⟩ := Value.all_sigma.1 hparts
    have hbody := ih.body hs hθ (Name.fresh_not_mem used c.x) hr hb ha haparts hc hcparts hcode.2
    exact .tag _ (.join (ih.value hθ ⟨ha, haparts, hcode.1⟩ hd) hbody)
  | cons a b =>
    simp only [Eval.bind_eq_ok, Eval.pure_eq_ok] at h
    obtain ⟨d, hd, e, he, rfl⟩ := h
    obtain ⟨ha, hb⟩ := Value.all_cons.1 hX
    obtain ⟨haparts, hbparts⟩ := Value.all_cons.1 hparts
    exact .tag _ (.join (ih.value hθ ⟨ha, haparts, hcode.1⟩ hd)
      (ih.value hθ ⟨hb, hbparts, hcode.2⟩ he))
  | equal a l r =>
    simp only [Eval.bind_eq_ok, Eval.pure_eq_ok] at h
    obtain ⟨d, hd, e, he, f, hf, rfl⟩ := h
    obtain ⟨ha, hl, hr⟩ := Value.all_equal.1 hX
    obtain ⟨haparts, hlparts, hrparts⟩ := Value.all_equal.1 hparts
    exact .tag _ (.join (ih.value hθ ⟨ha, haparts, hcode.1⟩ hd)
      (.join (ih.value hθ ⟨hl, hlparts, hcode.2.1⟩ he) (ih.value hθ ⟨hr, hrparts, hcode.2.2⟩ hf)))
  | same a =>
    simp only [Eval.bind_eq_ok, Eval.pure_eq_ok] at h
    obtain ⟨d, hd, rfl⟩ := h
    exact .tag _ (ih.value hθ ⟨Value.all_same.1 hX, Value.all_same.1 hparts, hcode⟩ hd)
  | classOf c => exact ih.chain hθ ⟨Value.all_classOf.1 hX, Value.all_classOf.1 hparts, hcode⟩ h
  | object fields =>
    simp only [Eval.bind_eq_ok, Eval.pure_eq_ok] at h
    obtain ⟨fs, hfs, rfl⟩ := h
    obtain ⟨-, hover⟩ := Value.all_object.1 hX
    obtain ⟨-, hparts⟩ := Value.all_object.1 hparts
    have hcodes := avoids_fields (show (Value.codeOfFields fields θ).Avoids F from hcode)
    exact .tag _ (ih.fields hθ hfs fun f hf => ⟨hover f hf, hparts f hf, hcodes f hf⟩)

theorem spine_succ (ih : ReadsCodes F s n) (hθ : θ.Fits s X used) {e : Neutral} {t : Term}
    (he : e.Decodable F X θ) (h : e.reify (n + 1) s used = .ok t) :
    Reduces s.meanings (e.code θ) (t.code θ) := by
  obtain ⟨hX, hparts, hcode⟩ := he
  unfold Neutral.reify at h
  cases e with
  | var x =>
    simp only [Eval.pure_eq_ok] at h
    subst h
    exact .refl _
  | app p f a v =>
    simp only [Eval.bind_eq_ok, Eval.pure_eq_ok] at h
    obtain ⟨g, hg, w, hw, rfl⟩ := h
    obtain ⟨hf, -, hv⟩ := Neutral.all_app.1 hX
    obtain ⟨hfparts, -, hvparts⟩ := Neutral.all_app.1 hparts
    exact .app p (ih.spine hθ ⟨hf, hfparts, hcode.1⟩ hg) (ih.value hθ ⟨hv, hvparts, hcode.2⟩ hw)
  | car f =>
    simp only [Eval.bind_eq_ok, Eval.pure_eq_ok] at h
    obtain ⟨g, hg, rfl⟩ := h
    exact .take _ (ih.spine hθ ⟨Neutral.all_car.1 hX, Neutral.all_car.1 hparts, hcode⟩ hg)
  | cdr f =>
    simp only [Eval.bind_eq_ok, Eval.pure_eq_ok] at h
    obtain ⟨g, hg, rfl⟩ := h
    exact .take _ (ih.spine hθ ⟨Neutral.all_cdr.1 hX, Neutral.all_cdr.1 hparts, hcode⟩ hg)
  | dot f k =>
    simp only [Eval.bind_eq_ok, Eval.pure_eq_ok] at h
    obtain ⟨g, hg, rfl⟩ := h
    exact .take _ (ih.spine hθ ⟨Neutral.all_dot.1 hX, Neutral.all_dot.1 hparts, hcode.2⟩ hg)

theorem chain_succ (ih : ReadsCodes F s n) (hs : s.Separates F) (hθ : θ.Fits s X used) {c : Chain}
    {t : Term} (hc : c.Decodable F X θ) (h : c.reify (n + 1) s used = .ok t) :
    Reduces s.meanings (c.code θ) (t.code θ) := by
  obtain ⟨hX, hparts, hcode⟩ := hc
  unfold Chain.reify at h
  cases c with
  | nil =>
    simp only [Eval.pure_eq_ok] at h
    subst h
    exact .refl _
  | declared k a c =>
    simp only [Eval.bind_eq_ok, Eval.pure_eq_ok] at h
    obtain ⟨d, hd, e, he, b, hb, rfl⟩ := h
    obtain ⟨-, -, ha, hc⟩ := Chain.all_declared.1 hX
    obtain ⟨-, -, haparts, hcparts⟩ := Chain.all_declared.1 hparts
    have hx := Name.fresh_not_mem used k
    simp only [Closure.applyChain, Eval.bind_eq_ok] at he
    obtain ⟨r, hr, he⟩ := he
    obtain ⟨hdecodable, hreduces⟩ := opened hs hθ hx hr ha haparts hc hcparts hcode.2
    have hrest := ih.chain (hθ.under hx) (hdecodable.chain he) hb
    rw [← Value.code_chain he] at hrest
    exact .tag _ (.join (ih.value hθ ⟨ha, haparts, hcode.1⟩ hd) (hreduces.trans (.under hrest)))
  | fulfilled k a v c =>
    simp only [Eval.bind_eq_ok, Eval.pure_eq_ok] at h
    obtain ⟨d, hd, e, he, b, hb, rfl⟩ := h
    obtain ⟨-, ha, hv, hc⟩ := Chain.all_fulfilled.1 hX
    obtain ⟨-, haparts, hvparts, hcparts⟩ := Chain.all_fulfilled.1 hparts
    obtain ⟨hcodeType, hcodeValue, hcodeRest⟩ := hcode
    have hfits : θ.Fits s X (k.fresh used :: used) :=
      ⟨hθ.keeps, hθ.named.cons _, fun y hy => List.mem_cons_of_mem _ (hθ.used y hy), hθ.solved⟩
    have hrest := ih.chain hfits ⟨hc, hcparts, hcodeRest⟩ hb
    -- the name that the property is given is not mentioned
    have hsame : b.code (Function.update θ (k.fresh used) (e.code θ)) = b.code θ := by
      refine Term.code_congr b fun y hy => Function.update_of_ne ?_ _ _
      rintro rfl
      have hfree := ((ReadsNormal.all s n).chain hθ.keeps hfits.named hb hc).1.free _ hy
      exact Name.fresh_not_mem used k (hθ.used _ hfree.1)
    rw [← hsame] at hrest
    exact .tag _ (.join (ih.value hθ ⟨ha, haparts, hcodeType⟩ hd)
      (.join (ih.value hθ ⟨hv, hvparts, hcodeValue⟩ he) hrest))

theorem all (hs : s.Separates F) (n : Nat) : ReadsCodes F s n := by
  induction n with
  | zero => constructor <;> intros <;> simp_all [Value.reify, Neutral.reify, Chain.reify]
  | succ n ih =>
    exact ⟨fun hθ => ih.value_succ hs hθ, fun hθ => ih.spine_succ hθ, fun hθ => ih.chain_succ hs hθ⟩

end ReadsCodes

section NormalForms

def Code.IsVariable (D : Meanings) : Code → Prop
  | bound _ => True
  | free x => D.of x = none
  | _ => False

/-- Nothing that an operation could take apart. -/
def Code.IsStuck : Code → Prop
  | bound _ => True
  | free _ => True
  | app .. => True
  | take .. => True
  | _ => False

variable {D : Meanings} {c d : Code}

theorem Code.IsVariable.settled (h : c.IsVariable D) : c.Settled D := by
  intro d hd
  cases hd with
  | bound i => rfl
  | free x => rfl
  | meaning hx =>
    have hnone : D.of _ = none := h
    rw [hnone] at hx
    cases hx
  | _ => cases h

theorem Code.IsVariable.isStuck (h : c.IsVariable D) : c.IsStuck := by
  cases c with
  | bound i | free x => trivial
  | _ => cases h

theorem Code.IsVariable.shift (h : c.IsVariable D) : c.shift.IsVariable D := by
  cases c with
  | bound i => trivial
  | free x => exact h
  | _ => cases h

theorem Code.Settled.tag (h : c.Settled D) (t : Tag) : (tag t c).Settled D := by
  intro d hd
  cases hd with
  | tag _ hd => rw [h _ hd]

theorem Code.Settled.join (hc : c.Settled D) (hd : d.Settled D) : (join c d).Settled D := by
  intro e he
  cases he with
  | join hc' hd' => rw [hc _ hc', hd _ hd']

theorem Code.Settled.under (h : c.Settled D) : (under c).Settled D := by
  intro d hd
  cases hd with
  | under hd => rw [h _ hd]

theorem Code.Settled.app (hc : c.Settled D) (hstuck : c.IsStuck) (hd : d.Settled D) (p : Plicity) :
    (app p c d).Settled D := by
  intro e he
  cases he with
  | app _ hc' hd' => rw [hc _ hc', hd _ hd']
  | beta hf _ =>
    rw [← hc _ hf] at hstuck
    cases hstuck

theorem Code.Settled.take (hc : c.Settled D) (hstuck : c.IsStuck) (s : Selector) :
    (take s c).Settled D := by
  intro e he
  cases he with
  | take _ hc' => rw [hc _ hc']
  | pick hc' hpick =>
    rw [hc _ hc'] at hpick
    unfold Code.pick at hpick
    split at hpick
    · cases hstuck
    · cases hstuck
    · cases hstuck
    · cases hpick

/-- The names of a term stand for variables. -/
def Coding.Plain (D : Meanings) (η : Coding) (t : Term) : Prop :=
  ∀ y ∈ t.freeNames, (η y).IsVariable D

theorem Coding.Plain.sub {t u : Term} {η : Coding} (h : η.Plain D t)
    (hu : ∀ y ∈ u.freeNames, y ∈ t.freeNames) : η.Plain D u :=
  fun y hy => h y (hu y hy)

/-- The two parts of a term with a binder. -/
theorem Coding.Plain.binder {a b : Term} {η : Coding} {x : Name}
    (h : ∀ y, y ∈ a.freeNames ∨ y ∈ b.freeNames ∧ y ≠ x → (η y).IsVariable D) :
    η.Plain D a ∧ (η.under x).Plain D b := by
  refine ⟨fun y hy => h y (.inl hy), fun y hy => ?_⟩
  by_cases hx : y = x
  · rw [hx, under_self]
    trivial
  · rw [under_of_ne hx]
    exact (h y (.inr ⟨hy, hx⟩)).shift

theorem Term.code_isStuck {t : Term} {η : Coding} (ht : t.IsStuck) (h : η.Plain D t) :
    (t.code η).IsStuck := by
  cases t with
  | var x => exact (h x (by simp)).isStuck
  | app | car | cdr | dot => trivial
  | _ => cases ht

mutual

/-- There is nothing to carry out in a normal form whose free names have no meaning. -/
theorem Term.code_settled : (t : Term) → {η : Coding} → t.Normal → η.Plain D t →
    (t.code η).Settled D
  | .var x, η, _, h => (h x (by simp)).settled
  | .type, _, _, _ | .string, _, _, _ | .quote _, _, _, _ | .trivial, _, _, _ | .sole, _, _, _
  | .emptyClass, _, _, _ => fun d hd => by
    cases hd
    rfl
  | .pi p x a b, η, ht, h => by
    obtain ⟨ha, hb⟩ := Coding.Plain.binder fun y hy => h y (mem_freeNames_pi.2 hy)
    exact .tag (.join (code_settled a ht.1 ha) (.under (code_settled b ht.2 hb))) _
  | .fn p x a b, η, ht, h => by
    obtain ⟨ha, hb⟩ := Coding.Plain.binder fun y hy => h y (mem_freeNames_fn.2 hy)
    exact .tag (.join (code_settled a ht.1 ha) (.under (code_settled b ht.2 hb))) _
  | .sigma x a b, η, ht, h => by
    obtain ⟨ha, hb⟩ := Coding.Plain.binder fun y hy => h y (mem_freeNames_sigma.2 hy)
    exact .tag (.join (code_settled a ht.1 ha) (.under (code_settled b ht.2 hb))) _
  | .app p f a, η, ht, h => by
    have hf : η.Plain D f := h.sub (by simp +contextual)
    have ha : η.Plain D a := h.sub (by simp +contextual)
    exact (code_settled f ht.2.1 hf).app (code_isStuck ht.1 hf) (code_settled a ht.2.2 ha) p
  | .cons a b, η, ht, h =>
    .tag (.join (code_settled a ht.1 (h.sub (by simp +contextual)))
      (code_settled b ht.2 (h.sub (by simp +contextual)))) _
  | .car a, η, ht, h => (code_settled a ht.2 h).take (code_isStuck ht.1 h) _
  | .cdr a, η, ht, h => (code_settled a ht.2 h).take (code_isStuck ht.1 h) _
  | .dot a k, η, ht, h => (code_settled a ht.2 h).take (code_isStuck ht.1 h) _
  | .equal a l r, η, ht, h =>
    .tag (.join (code_settled a ht.1 (h.sub (by simp +contextual)))
      (.join (code_settled l ht.2.1 (h.sub (by simp +contextual)))
        (code_settled r ht.2.2 (h.sub (by simp +contextual))))) _
  | .same a, η, ht, h => .tag (code_settled a ht h) _
  | .declared k x a b, η, ht, h => by
    obtain ⟨ha, hb⟩ := Coding.Plain.binder fun y hy => h y (mem_freeNames_declared.2 hy)
    exact .tag (.join (code_settled a ht.1 ha) (.under (code_settled b ht.2.2 hb))) _
  | .fulfilled k x a v b, η, ht, h => by
    obtain ⟨ha, hv, -, hb, hx⟩ := ht
    have hne : ∀ y ∈ b.freeNames, y ≠ x := fun y hy heq => hx (heq ▸ hy)
    rw [code, code_congr b fun y hy => Function.update_of_ne (hne y hy) _ _]
    exact .tag (.join (code_settled a ha (h.sub (by simp +contextual)))
      (.join (code_settled v hv (h.sub (by simp +contextual)))
        (code_settled b hb (h.sub fun y hy => by simp [hy, hne y hy])))) _
  | .object fields, η, ht, h =>
    .tag (codeOfFields_settled fields ht fun f hf y hy =>
      h y (mem_freeNames_object.2 ⟨f, hf, hy⟩)) _

theorem Term.codeOfFields_settled : (fields : List (Name × Term)) → {η : Coding} →
    FieldsNormal fields → (∀ f ∈ fields, η.Plain D f.2) → (codeOfFields fields η).Settled D
  | [], _, _, _ => fun d hd => by
    cases hd
    rfl
  | (k, a) :: fields, η, ht, h =>
    .join (.tag (code_settled a ht.1 (h (k, a) List.mem_cons_self)) _)
      (codeOfFields_settled fields ht.2 fun f hf => h f (List.mem_cons_of_mem _ hf))

end

end NormalForms

section Equality

theorem Coding.under_rel {ρ : Renaming} {η η' : Coding} (h : ∀ y y', ρ y y' → η y = η' y')
    {x x' y y' : Name} (hy : ρ.under x x' y y') : η.under x y = η'.under x' y' := by
  rcases hy with ⟨rfl, rfl⟩ | ⟨hne, hne', hy⟩
  · rw [under_self, under_self]
  · rw [under_of_ne hne, under_of_ne hne', h y y' hy]

theorem Coding.update_rel {ρ : Renaming} {η η' : Coding} (h : ∀ y y', ρ y y' → η y = η' y')
    (c : Code) {x x' y y' : Name} (hy : ρ.under x x' y y') :
    Function.update η x c y = Function.update η' x' c y' := by
  rcases hy with ⟨rfl, rfl⟩ | ⟨hne, hne', hy⟩
  · simp
  · simp [hne, hne', h y y' hy]

/-- The names of binders do not matter for the code. -/
theorem Term.Alike.code_eq {ρ : Renaming} {t u : Term} (h : t.Alike ρ u) {η η' : Coding}
    (hρ : ∀ y y', ρ y y' → η y = η' y') : t.code η = u.code η' := by
  induction h generalizing η η' with
  | var hx => exact hρ _ _ hx
  | type | string | quote | trivial | sole | emptyClass => rfl
  | pi _ _ iha ihb | fn _ _ iha ihb | sigma _ _ iha ihb | declared _ _ iha ihb =>
    simp only [code, iha hρ, ihb fun _ _ => Coding.under_rel hρ]
  | app _ _ iha ihb | cons _ _ iha ihb => simp only [code, iha hρ, ihb hρ]
  | car _ ih | cdr _ ih | same _ ih | dot _ ih => simp only [code, ih hρ]
  | equal _ _ _ iha ihl ihr => simp only [code, iha hρ, ihl hρ, ihr hρ]
  | fulfilled _ _ _ iha ihv ihb =>
    simp only [code, iha hρ, ihv hρ, ihb fun _ _ => Coding.update_rel hρ _]
  | letIn _ _ _ iha ihv ihb => simp only [code, ihv hρ, ihb fun _ _ => Coding.under_rel hρ]
  | @object ρ fs fs' hlabels hfields ih =>
    have hsame : FieldsAlike (fun a b : Term => a.code η = b.code η') fs fs' :=
      fieldsAlike_iff.2 ⟨hlabels, fun i f f' hf hf' => ih i f f' hf hf' hρ⟩
    have hcodes : codeOfFields fs η = codeOfFields fs' η' := by
      clear hfields ih hlabels
      induction hsame with
      | nil => rfl
      | @cons f f' fs fs' hf _ ihfs =>
        obtain ⟨k, a⟩ := f
        obtain ⟨k', a'⟩ := f'
        obtain ⟨rfl, ha⟩ : k = k' ∧ a.code η = a'.code η' := hf
        simp only [codeOfFields, ha, ihfs]
    simp only [code, hcodes]

variable {D : Meanings}

theorem Code.IsVariable.shift_inj {c d : Code} (hc : c.IsVariable D) (hd : d.IsVariable D)
    (h : c.shift = d.shift) : c = d := by
  cases c with
  | bound i =>
    cases d with
    | bound j => exact congrArg bound (Nat.succ.inj (bound.inj h))
    | free x => cases h
    | _ => cases hd
  | free x =>
    cases d with
    | bound j => cases h
    | free y => exact h
    | _ => cases hd
  | _ => cases hc

theorem Code.IsVariable.shift_ne {c : Code} (hc : c.IsVariable D) : c.shift ≠ bound 0 := by
  intro h
  cases c with
  | bound i => cases h
  | free x => cases h
  | _ => cases hc

/-- Below binders, names that stand for the same variable are the names of these binders, or stood
for the same before. -/
theorem Coding.rel_under {η η' : Coding} {x x' y y' : Name} (hy : y ≠ x → (η y).IsVariable D)
    (hy' : y' ≠ x' → (η' y').IsVariable D) (h : η.under x y = η'.under x' y') :
    Renaming.under (fun z z' => η z = η' z') x x' y y' := by
  by_cases hx : y = x <;> by_cases hx' : y' = x'
  · exact .inl ⟨hx, hx'⟩
  · rw [hx, under_self, under_of_ne hx'] at h
    exact absurd h.symm (hy' hx').shift_ne
  · rw [hx', under_self, under_of_ne hx] at h
    exact absurd h (hy hx).shift_ne
  · rw [under_of_ne hx, under_of_ne hx'] at h
    exact .inr ⟨hx, hx', (hy hx).shift_inj (hy' hx') h⟩

/-- What is no variable is not the code of one. -/
theorem Term.var_clash {c : Code} {η : Coding} {y : Name} (hc : ¬ c.IsVariable D)
    (hη : η.Plain D (.var y)) (h : c = (Term.var y).code η) : False :=
  hc (h ▸ hη y (by simp))

/-- The parts of two terms with a binder are alike if they are so by their codes. -/
theorem Term.alike_binder {a a' b b' : Term} {η η' : Coding} {x x' : Name}
    (hη : ∀ y, y ∈ a.freeNames ∨ y ∈ b.freeNames ∧ y ≠ x → (η y).IsVariable D)
    (hη' : ∀ y, y ∈ a'.freeNames ∨ y ∈ b'.freeNames ∧ y ≠ x' → (η' y).IsVariable D)
    (ha : η.Plain D a → η'.Plain D a' → a.Alike (fun y y' => η y = η' y') a')
    (hb : (η.under x).Plain D b → (η'.under x').Plain D b' →
      b.Alike (fun y y' => η.under x y = η'.under x' y') b') :
    a.Alike (fun y y' => η y = η' y') a' ∧
      b.Alike (Renaming.under (fun y y' => η y = η' y') x x') b' := by
  obtain ⟨hleft, hbody⟩ := Coding.Plain.binder hη
  obtain ⟨hleft', hbody'⟩ := Coding.Plain.binder hη'
  refine ⟨ha hleft hleft', (hb hbody hbody').mono fun y hy y' hy' => ?_⟩
  exact Coding.rel_under (fun hne => hη y (.inr ⟨hy, hne⟩)) fun hne => hη' y' (.inr ⟨hy', hne⟩)

mutual

/-- Normal forms with the same code differ only in the names of their binders. -/
theorem Term.alike_of_code : (t u : Term) → {η η' : Coding} → t.Normal → u.Normal →
    η.Plain D t → η'.Plain D u → t.code η = u.code η' → t.Alike (fun y y' => η y = η' y') u
  | .var x, u, η, η', _, hu, hη, hη', h => by
    have hx := hη x (by simp)
    rw [show η x = u.code η' from h] at hx
    cases u with
    | var y => exact .var h
    | letIn => cases hu
    | _ => cases hx
  | .type, u, _, _, _, hu, _, hη', h | .string, u, _, _, _, hu, _, hη', h
  | .trivial, u, _, _, _, hu, _, hη', h | .sole, u, _, _, _, hu, _, hη', h
  | .emptyClass, u, _, _, _, hu, _, hη', h => by
    cases u with
    | type | string | trivial | sole | emptyClass => first | constructor | cases h
    | var y => exact (var_clash id hη' h).elim
    | letIn => cases hu
    | _ => cases h
  | .quote text, u, _, η', _, hu, _, hη', h => by
    cases u with
    | quote text' =>
      simp only [code, atom.injEq, Atom.quote.injEq] at h
      exact h ▸ .quote text
    | var y => exact (var_clash id hη' h).elim
    | letIn => cases hu
    | _ => cases h
  | .pi p x a b, u, η, η', ht, hu, hη, hη', h => by
    cases u with
    | pi q x' a' b' =>
      simp only [code, tag.injEq, Tag.pi.injEq, join.injEq, under.injEq] at h
      obtain ⟨rfl, ha, hb⟩ := h
      obtain ⟨hdomain, hbody⟩ := alike_binder (fun y hy => hη y (mem_freeNames_pi.2 hy))
        (fun y hy => hη' y (mem_freeNames_pi.2 hy))
        (fun hη hη' => alike_of_code a a' ht.1 hu.1 hη hη' ha)
        (fun hη hη' => alike_of_code b b' ht.2 hu.2 hη hη' hb)
      exact .pi hdomain hbody
    | var y => exact (var_clash id hη' h).elim
    | letIn => cases hu
    | _ => cases h
  | .fn p x a b, u, η, η', ht, hu, hη, hη', h => by
    cases u with
    | fn q x' a' b' =>
      simp only [code, tag.injEq, Tag.fn.injEq, join.injEq, under.injEq] at h
      obtain ⟨rfl, ha, hb⟩ := h
      obtain ⟨hdomain, hbody⟩ := alike_binder (fun y hy => hη y (mem_freeNames_fn.2 hy))
        (fun y hy => hη' y (mem_freeNames_fn.2 hy))
        (fun hη hη' => alike_of_code a a' ht.1 hu.1 hη hη' ha)
        (fun hη hη' => alike_of_code b b' ht.2 hu.2 hη hη' hb)
      exact .fn hdomain hbody
    | var y => exact (var_clash id hη' h).elim
    | letIn => cases hu
    | _ => cases h
  | .sigma x a b, u, η, η', ht, hu, hη, hη', h => by
    cases u with
    | sigma x' a' b' =>
      simp only [code, tag.injEq, true_and, join.injEq, under.injEq] at h
      obtain ⟨hcar, hcdr⟩ := alike_binder (fun y hy => hη y (mem_freeNames_sigma.2 hy))
        (fun y hy => hη' y (mem_freeNames_sigma.2 hy))
        (fun hη hη' => alike_of_code a a' ht.1 hu.1 hη hη' h.1)
        (fun hη hη' => alike_of_code b b' ht.2 hu.2 hη hη' h.2)
      exact .sigma hcar hcdr
    | var y => exact (var_clash id hη' h).elim
    | letIn => cases hu
    | _ => cases h
  | .declared k x a b, u, η, η', ht, hu, hη, hη', h => by
    cases u with
    | declared j x' a' b' =>
      simp only [code, tag.injEq, Tag.declared.injEq, join.injEq, under.injEq] at h
      obtain ⟨rfl, ha, hb⟩ := h
      obtain ⟨htype, hrest⟩ := alike_binder (fun y hy => hη y (mem_freeNames_declared.2 hy))
        (fun y hy => hη' y (mem_freeNames_declared.2 hy))
        (fun hη hη' => alike_of_code a a' ht.1 hu.1 hη hη' ha)
        (fun hη hη' => alike_of_code b b' ht.2.2 hu.2.2 hη hη' hb)
      exact .declared htype hrest
    | var y => exact (var_clash id hη' h).elim
    | letIn => cases hu
    | _ => cases h
  | .app p a b, u, η, η', ht, hu, hη, hη', h => by
    cases u with
    | app q a' b' =>
      simp only [code, Code.app.injEq] at h
      obtain ⟨rfl, ha, hb⟩ := h
      have hfn := alike_of_code a a' ht.2.1 hu.2.1 (hη.sub (by simp +contextual))
        (hη'.sub (by simp +contextual)) ha
      have harg := alike_of_code b b' ht.2.2 hu.2.2 (hη.sub (by simp +contextual))
        (hη'.sub (by simp +contextual)) hb
      exact .app hfn harg
    | var y => exact (var_clash id hη' h).elim
    | letIn => cases hu
    | _ => cases h
  | .cons a b, u, η, η', ht, hu, hη, hη', h => by
    cases u with
    | cons a' b' =>
      simp only [code, tag.injEq, true_and, join.injEq] at h
      have hcar := alike_of_code a a' ht.1 hu.1 (hη.sub (by simp +contextual))
        (hη'.sub (by simp +contextual)) h.1
      have hcdr := alike_of_code b b' ht.2 hu.2 (hη.sub (by simp +contextual))
        (hη'.sub (by simp +contextual)) h.2
      exact .cons hcar hcdr
    | var y => exact (var_clash id hη' h).elim
    | letIn => cases hu
    | _ => cases h
  | .car a, u, η, η', ht, hu, hη, hη', h => by
    cases u with
    | car a' =>
      simp only [code, take.injEq, true_and] at h
      exact .car (alike_of_code a a' ht.2 hu.2 hη hη' h)
    | var y => exact (var_clash id hη' h).elim
    | letIn => cases hu
    | _ => cases h
  | .cdr a, u, η, η', ht, hu, hη, hη', h => by
    cases u with
    | cdr a' =>
      simp only [code, take.injEq, true_and] at h
      exact .cdr (alike_of_code a a' ht.2 hu.2 hη hη' h)
    | var y => exact (var_clash id hη' h).elim
    | letIn => cases hu
    | _ => cases h
  | .dot a k, u, η, η', ht, hu, hη, hη', h => by
    cases u with
    | dot a' j =>
      simp only [code, take.injEq, Selector.dot.injEq] at h
      obtain ⟨rfl, h⟩ := h
      exact .dot (alike_of_code a a' ht.2 hu.2 hη hη' h)
    | var y => exact (var_clash id hη' h).elim
    | letIn => cases hu
    | _ => cases h
  | .same a, u, η, η', ht, hu, hη, hη', h => by
    cases u with
    | same a' =>
      simp only [code, tag.injEq, true_and] at h
      exact .same (alike_of_code a a' ht hu hη hη' h)
    | var y => exact (var_clash id hη' h).elim
    | letIn => cases hu
    | _ => cases h
  | .equal a l r, u, η, η', ht, hu, hη, hη', h => by
    cases u with
    | equal a' l' r' =>
      simp only [code, tag.injEq, true_and, join.injEq] at h
      have htype := alike_of_code a a' ht.1 hu.1 (hη.sub (by simp +contextual))
        (hη'.sub (by simp +contextual)) h.1
      have hleft := alike_of_code l l' ht.2.1 hu.2.1 (hη.sub (by simp +contextual))
        (hη'.sub (by simp +contextual)) h.2.1
      have hright := alike_of_code r r' ht.2.2 hu.2.2 (hη.sub (by simp +contextual))
        (hη'.sub (by simp +contextual)) h.2.2
      exact .equal htype hleft hright
    | var y => exact (var_clash id hη' h).elim
    | letIn => cases hu
    | _ => cases h
  | .fulfilled k x a v b, u, η, η', ht, hu, hη, hη', h => by
    cases u with
    | fulfilled j x' a' v' b' =>
      simp only [code, tag.injEq, Tag.fulfilled.injEq, join.injEq] at h
      obtain ⟨rfl, ha, hv, hb⟩ := h
      obtain ⟨hat, hvt, -, hbt, hx⟩ := ht
      obtain ⟨hau, hvu, -, hbu, hx'⟩ := hu
      -- a normal form does not mention the property, so that its value is put nowhere
      have hne : ∀ y ∈ b.freeNames, y ≠ x := fun y hy heq => hx (heq ▸ hy)
      have hne' : ∀ y ∈ b'.freeNames, y ≠ x' := fun y hy heq => hx' (heq ▸ hy)
      rw [code_congr b fun y hy => Function.update_of_ne (hne y hy) _ _,
        code_congr b' fun y hy => Function.update_of_ne (hne' y hy) _ _] at hb
      have htype := alike_of_code a a' hat hau (hη.sub (by simp +contextual))
        (hη'.sub (by simp +contextual)) ha
      have hvalue := alike_of_code v v' hvt hvu (hη.sub (by simp +contextual))
        (hη'.sub (by simp +contextual)) hv
      have hrest := alike_of_code b b' hbt hbu (hη.sub fun y hy => by simp [hy, hne y hy])
        (hη'.sub fun y hy => by simp [hy, hne' y hy]) hb
      exact .fulfilled htype hvalue
        (hrest.mono fun y hy y' hy' heq => .inr ⟨hne y hy, hne' y' hy', heq⟩)
    | var y => exact (var_clash id hη' h).elim
    | letIn => cases hu
    | _ => cases h
  | .object fields, u, η, η', ht, hu, hη, hη', h => by
    cases u with
    | object fields' =>
      simp only [code, tag.injEq, true_and] at h
      have hfields := alike_of_codeOfFields fields fields' ht hu
        (fun f hf y hy => hη y (mem_freeNames_object.2 ⟨f, hf, hy⟩))
        (fun f hf y hy => hη' y (mem_freeNames_object.2 ⟨f, hf, hy⟩)) h
      obtain ⟨hlabels, hfields⟩ := fieldsAlike_iff.1 hfields
      exact .object hlabels hfields
    | var y => exact (var_clash id hη' h).elim
    | letIn => cases hu
    | _ => cases h

theorem Term.alike_of_codeOfFields : (fs gs : List (Name × Term)) → {η η' : Coding} →
    FieldsNormal fs → FieldsNormal gs → (∀ f ∈ fs, η.Plain D f.2) → (∀ g ∈ gs, η'.Plain D g.2) →
    codeOfFields fs η = codeOfFields gs η' → FieldsAlike (Alike fun y y' => η y = η' y') fs gs
  | [], gs, _, _, _, _, _, _, h => by
    cases gs with
    | nil => exact .nil
    | cons g gs => cases h
  | (k, a) :: fs, gs, η, η', hfs, hgs, hη, hη', h => by
    cases gs with
    | nil => cases h
    | cons g gs =>
      obtain ⟨j, b⟩ := g
      simp only [codeOfFields, join.injEq, tag.injEq, Tag.field.injEq] at h
      obtain ⟨⟨rfl, ha⟩, h⟩ := h
      have hfield := alike_of_code a b hfs.1 hgs.1 (hη (k, a) List.mem_cons_self)
        (hη' (k, b) List.mem_cons_self) ha
      have hrest := alike_of_codeOfFields fs gs hfs.2 hgs.2
        (fun f hf => hη f (List.mem_cons_of_mem _ hf))
        (fun g hg => hη' g (List.mem_cons_of_mem _ hg)) h
      exact .cons ⟨rfl, hfield⟩ hrest

end

end Equality

end DependentClasses
