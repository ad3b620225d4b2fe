import DependentClasses.Proofs.ReadBack

/-! Normal forms. Reading back leaves operations on variables only, and the name that a
fulfilled property binds is not mentioned by what follows it. -/
namespace DependentClasses

namespace Term

/-- A variable, or an operation that takes a value apart. -/
def IsStuck : Term → Prop
  | .var _ => True
  | .app .. => True
  | .car _ => True
  | .cdr _ => True
  | .dot .. => True
  | _ => False

mutual

def Normal : Term → Prop
  | .var _ => True
  | .type => True
  | .pi _ _ a b => a.Normal ∧ b.Normal
  | .fn _ _ a b => a.Normal ∧ b.Normal
  | .app _ f a => f.IsStuck ∧ f.Normal ∧ a.Normal
  | .sigma _ a b => a.Normal ∧ b.Normal
  | .cons a b => a.Normal ∧ b.Normal
  | .car a => a.IsStuck ∧ a.Normal
  | .cdr a => a.IsStuck ∧ a.Normal
  | .string => True
  | .quote _ => True
  | .trivial => True
  | .sole => True
  | .equal a l r => a.Normal ∧ l.Normal ∧ r.Normal
  | .same a => a.Normal
  | .emptyClass => True
  | .declared _ _ a rest => a.Normal ∧ rest.IsClass ∧ rest.Normal
  | .fulfilled _ x a v rest => a.Normal ∧ v.Normal ∧ rest.IsClass ∧ rest.Normal ∧ x ∉ rest.freeNames
  | .object fields => FieldsNormal fields
  | .dot a _ => a.IsStuck ∧ a.Normal
  | .letIn .. => False

def FieldsNormal : List (Name × Term) → Prop
  | [] => True
  | (_, a) :: fields => a.Normal ∧ FieldsNormal fields

end

theorem fieldsNormal_iff (fields : List (Name × Term)) :
    FieldsNormal fields ↔ ∀ f ∈ fields, f.2.Normal := by
  induction fields with
  | nil => simp [FieldsNormal]
  | cons f fields ih => simp [FieldsNormal, ih]

end Term

/-- A normal form of a value over `X`, read back with binders that avoid `used`. -/
structure Term.NormalOver (X : Name → Prop) (s : Solution) (used : List Name)
    (t : Term) : Prop where
  /-- It mentions only variables that the value is over, and none that is solved. -/
  free : ∀ y ∈ t.freeNames, X y ∧ ¬ s.IsSolved y
  normal : (∀ y, X y → y ∈ used) → t.Normal

structure ReadsNormal (s : Solution) (n : Nat) : Prop where
  value {X : Name → Prop} {used : List Name} {v : Value} {t : Term} :
    s.Keeps (Part.Named X) → s.NamedIn used → v.reify n s used = .ok t → v.Over X →
    t.NormalOver X s used
  spine {X : Name → Prop} {used : List Name} {v : Neutral} {t : Term} :
    s.Keeps (Part.Named X) → s.NamedIn used → v.reify n s used = .ok t → v.Over X →
      ¬ s.IsSolved v.head → t.NormalOver X s used ∧ t.IsStuck
  chain {X : Name → Prop} {used : List Name} {v : Chain} {t : Term} :
    s.Keeps (Part.Named X) → s.NamedIn used → v.reify n s used = .ok t → v.Over X →
      t.NormalOver X s used ∧ t.IsClass

namespace ReadsNormal

variable {s : Solution} {n : Nat} {X : Name → Prop} {used : List Name}

theorem joined {x : Name} (h : ∀ y, X y → y ∈ used) (y : Name) (hy : X y ∨ y = x) :
    y ∈ x :: used := by
  rcases hy with hy | rfl
  · exact List.mem_cons_of_mem x (h y hy)
  · exact List.mem_cons_self

/-- The name of a binder is not free outside it. -/
theorem below {x : Name} {t : Term} (h : t.NormalOver (fun y => X y ∨ y = x) s (x :: used)) :
    (∀ y ∈ t.freeNames, y ≠ x → X y ∧ ¬ s.IsSolved y) ∧ ((∀ y, X y → y ∈ used) → t.Normal) :=
  ⟨fun y hy hyx => ⟨(h.free y hy).1.resolve_right hyx, (h.free y hy).2⟩,
    fun hX => h.normal (joined hX)⟩

theorem body (ih : ReadsNormal s n) (hs : s.Keeps (Part.Named X)) (hu : s.NamedIn used)
    {c : Closure} {a r : Value} {x : Name} {t : Term} (hx : x ∉ used)
    (hr : c.apply n (.variable a x) = .ok r) (ht : r.reify n s (x :: used) = .ok t)
    (hc : c.All (Part.Named X)) (ha : a.Over X) :
    (∀ y ∈ t.freeNames, y ≠ x → X y ∧ ¬ s.IsSolved y) ∧ ((∀ y, X y → y ∈ used) → t.Normal) :=
  below (ih.value (hs.bind (hu.not_isSolved hx)) (hu.cons x) ht (Closure.apply_over hr hc ha))

theorem value_succ (ih : ReadsNormal s n) (hs : s.Keeps (Part.Named X)) (hu : s.NamedIn used)
    {v : Value} {t : Term} (h : v.reify (n + 1) s used = .ok t) (hv : v.Over X) :
    t.NormalOver X s used := by
  unfold Value.reify at h
  simp only [Eval.bind_eq_ok] at h
  obtain ⟨w, hw, h⟩ := h
  have hX : w.Over X := Value.force_all hs hw hv
  cases w with
  | neutral a spine =>
    exact (ih.spine hs hu h (Value.all_neutral.1 hX).2 (Value.not_isSolved_of_force hw)).1
  | type | string | quote | trivial | sole =>
    simp only [Eval.pure_eq_ok] at h
    subst h
    exact ⟨by simp, fun _ => trivial⟩
  | pi p a c =>
    simp only [Eval.bind_eq_ok, Eval.pure_eq_ok] at h
    obtain ⟨r, hr, b, hb, d, hd, rfl⟩ := h
    obtain ⟨ha, hc⟩ := Value.all_pi.1 hX
    have hdomain := ih.value hs hu hd ha
    have hbody := ih.body hs hu (Name.fresh_not_mem used c.x) hr hb hc ha
    refine ⟨fun y hy => ?_, fun hused => ⟨hdomain.normal hused, hbody.2 hused⟩⟩
    rcases Term.mem_freeNames_pi.1 hy with hy | ⟨hy, hyx⟩
    · exact hdomain.free y hy
    · exact hbody.1 y hy hyx
  | fn p a c =>
    simp only [Eval.bind_eq_ok, Eval.pure_eq_ok] at h
    obtain ⟨r, hr, b, hb, d, hd, rfl⟩ := h
    obtain ⟨ha, hc⟩ := Value.all_fn.1 hX
    have hdomain := ih.value hs hu hd ha
    have hbody := ih.body hs hu (Name.fresh_not_mem used c.x) hr hb hc ha
    refine ⟨fun y hy => ?_, fun hused => ⟨hdomain.normal hused, hbody.2 hused⟩⟩
    rcases Term.mem_freeNames_fn.1 hy with hy | ⟨hy, hyx⟩
    · exact hdomain.free y hy
    · exact hbody.1 y hy hyx
  | sigma a c =>
    simp only [Eval.bind_eq_ok, Eval.pure_eq_ok] at h
    obtain ⟨r, hr, b, hb, d, hd, rfl⟩ := h
    obtain ⟨ha, hc⟩ := Value.all_sigma.1 hX
    have hcar := ih.value hs hu hd ha
    have hbody := ih.body hs hu (Name.fresh_not_mem used c.x) hr hb hc ha
    refine ⟨fun y hy => ?_, fun hused => ⟨hcar.normal hused, hbody.2 hused⟩⟩
    rcases Term.mem_freeNames_sigma.1 hy with hy | ⟨hy, hyx⟩
    · exact hcar.free y hy
    · exact hbody.1 y hy hyx
  | cons a b =>
    simp only [Eval.bind_eq_ok, Eval.pure_eq_ok] at h
    obtain ⟨d, hd, e, he, rfl⟩ := h
    obtain ⟨ha, hb⟩ := Value.all_cons.1 hX
    have hcar := ih.value hs hu hd ha
    have hcdr := ih.value hs hu he hb
    refine ⟨fun y hy => ?_, fun hused => ⟨hcar.normal hused, hcdr.normal hused⟩⟩
    rcases Term.mem_freeNames_cons.1 hy with hy | hy
    · exact hcar.free y hy
    · exact hcdr.free y hy
  | equal a l r =>
    simp only [Eval.bind_eq_ok, Eval.pure_eq_ok] at h
    obtain ⟨d, hd, e, he, f, hf, rfl⟩ := h
    obtain ⟨ha, hl, hr⟩ := Value.all_equal.1 hX
    have htype := ih.value hs hu hd ha
    have hleft := ih.value hs hu he hl
    have hright := ih.value hs hu hf hr
    refine ⟨fun y hy => ?_,
      fun hused => ⟨htype.normal hused, hleft.normal hused, hright.normal hused⟩⟩
    rcases Term.mem_freeNames_equal.1 hy with hy | hy | hy
    · exact htype.free y hy
    · exact hleft.free y hy
    · exact hright.free y hy
  | same a =>
    simp only [Eval.bind_eq_ok, Eval.pure_eq_ok] at h
    obtain ⟨d, hd, rfl⟩ := h
    have hvalue := ih.value hs hu hd (Value.all_same.1 hX)
    exact ⟨fun y hy => hvalue.free y (by simpa using hy), hvalue.normal⟩
  | classOf c => exact (ih.chain hs hu h (Value.all_classOf.1 hX)).1
  | object fields =>
    simp only [Eval.bind_eq_ok, Eval.pure_eq_ok] at h
    obtain ⟨fs, hfs, rfl⟩ := h
    have hfield : ∀ g ∈ fs, g.2.NormalOver X s used := by
      intro g hg
      obtain ⟨f, hf, -, ht⟩ := (Eval.mapM_fields hfs).2 g hg
      exact ih.value hs hu ht ((Value.all_object.1 hX).2 f hf)
    refine ⟨fun y hy => ?_, fun hused => (Term.fieldsNormal_iff fs).2 fun g hg =>
      (hfield g hg).normal hused⟩
    obtain ⟨g, hg, hy⟩ := Term.mem_freeNames_object.1 hy
    exact (hfield g hg).free y hy

theorem spine_succ (ih : ReadsNormal s n) (hs : s.Keeps (Part.Named X)) (hu : s.NamedIn used)
    {v : Neutral} {t : Term} (h : v.reify (n + 1) s used = .ok t) (hv : v.Over X)
    (hhead : ¬ s.IsSolved v.head) :
    t.NormalOver X s used ∧ t.IsStuck := by
  unfold Neutral.reify at h
  cases v with
  | var x =>
    simp only [Eval.pure_eq_ok] at h
    subst h
    refine ⟨⟨fun y hy => ?_, fun _ => trivial⟩, trivial⟩
    rw [Term.mem_freeNames_var.1 hy]
    exact ⟨Neutral.all_var.1 hv, hhead⟩
  | app p f a w =>
    simp only [Eval.bind_eq_ok, Eval.pure_eq_ok] at h
    obtain ⟨d, hd, e, he, rfl⟩ := h
    obtain ⟨hf, -, hw⟩ := Neutral.all_app.1 hv
    obtain ⟨htarget, hstuck⟩ := ih.spine hs hu hd hf hhead
    have harg := ih.value hs hu he hw
    refine ⟨⟨fun y hy => ?_, fun hused => ⟨hstuck, htarget.normal hused, harg.normal hused⟩⟩,
      trivial⟩
    rcases Term.mem_freeNames_app.1 hy with hy | hy
    · exact htarget.free y hy
    · exact harg.free y hy
  | car f =>
    simp only [Eval.bind_eq_ok, Eval.pure_eq_ok] at h
    obtain ⟨d, hd, rfl⟩ := h
    obtain ⟨hpair, hstuck⟩ := ih.spine hs hu hd (Neutral.all_car.1 hv) hhead
    exact ⟨⟨fun y hy => hpair.free y (by simpa using hy),
      fun hused => ⟨hstuck, hpair.normal hused⟩⟩, trivial⟩
  | cdr f =>
    simp only [Eval.bind_eq_ok, Eval.pure_eq_ok] at h
    obtain ⟨d, hd, rfl⟩ := h
    obtain ⟨hpair, hstuck⟩ := ih.spine hs hu hd (Neutral.all_cdr.1 hv) hhead
    exact ⟨⟨fun y hy => hpair.free y (by simpa using hy),
      fun hused => ⟨hstuck, hpair.normal hused⟩⟩, trivial⟩
  | dot f k =>
    simp only [Eval.bind_eq_ok, Eval.pure_eq_ok] at h
    obtain ⟨d, hd, rfl⟩ := h
    obtain ⟨htarget, hstuck⟩ := ih.spine hs hu hd (Neutral.all_dot.1 hv) hhead
    exact ⟨⟨fun y hy => htarget.free y (by simpa using hy),
      fun hused => ⟨hstuck, htarget.normal hused⟩⟩, trivial⟩

theorem chain_succ (ih : ReadsNormal s n) (hs : s.Keeps (Part.Named X)) (hu : s.NamedIn used)
    {v : Chain} {t : Term} (h : v.reify (n + 1) s used = .ok t) (hv : v.Over X) :
    t.NormalOver X s used ∧ t.IsClass := by
  unfold Chain.reify at h
  cases v with
  | nil =>
    simp only [Eval.pure_eq_ok] at h
    subst h
    exact ⟨⟨by simp, fun _ => trivial⟩, trivial⟩
  | declared k a c =>
    simp only [Eval.bind_eq_ok, Eval.pure_eq_ok] at h
    obtain ⟨d, hd, e, he, r, hr, rfl⟩ := h
    obtain ⟨-, -, ha, hc⟩ := Chain.all_declared.1 hv
    have hx := hu.not_isSolved (Name.fresh_not_mem used k)
    have htype := ih.value hs hu hd ha
    obtain ⟨hrest, hclass⟩ :=
      ih.chain (hs.bind hx) (hu.cons _) hr (Closure.applyChain_over he hc ha)
    have hrest := below hrest
    refine ⟨⟨fun y hy => ?_, fun hused => ⟨htype.normal hused, hclass, hrest.2 hused⟩⟩, trivial⟩
    rcases Term.mem_freeNames_declared.1 hy with hy | ⟨hy, hyx⟩
    · exact htype.free y hy
    · exact hrest.1 y hy hyx
  | fulfilled k a w c =>
    simp only [Eval.bind_eq_ok, Eval.pure_eq_ok] at h
    obtain ⟨d, hd, e, he, r, hr, rfl⟩ := h
    obtain ⟨-, ha, hw, hc⟩ := Chain.all_fulfilled.1 hv
    have htype := ih.value hs hu hd ha
    have hvalue := ih.value hs hu he hw
    obtain ⟨hrest, hclass⟩ := ih.chain hs (hu.cons _) hr hc
    refine ⟨⟨fun y hy => ?_, fun hused => ?_⟩, trivial⟩
    · rcases Term.mem_freeNames_fulfilled.1 hy with hy | hy | ⟨hy, -⟩
      · exact htype.free y hy
      · exact hvalue.free y hy
      · exact hrest.free y hy
    · -- what follows was computed before the name was chosen
      have hfresh : k.fresh used ∉ r.freeNames :=
        fun hmem => Name.fresh_not_mem used k (hused _ (hrest.free _ hmem).1)
      have hnormal := hrest.normal fun y hy => List.mem_cons_of_mem _ (hused y hy)
      exact ⟨htype.normal hused, hvalue.normal hused, hclass, hnormal, hfresh⟩

theorem all (s : Solution) (n : Nat) : ReadsNormal s n := by
  induction n with
  | zero => constructor <;> intros <;> simp_all [Value.reify, Neutral.reify, Chain.reify]
  | succ n ih =>
    exact ⟨fun hs hu => ih.value_succ hs hu, fun hs hu => ih.spine_succ hs hu,
      fun hs hu => ih.chain_succ hs hu⟩

end ReadsNormal

end DependentClasses
