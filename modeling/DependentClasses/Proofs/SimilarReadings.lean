import DependentClasses.Proofs.Contexts
import DependentClasses.Proofs.Similarity

/-! Similar values have normal forms that are alike, also if they are read back in different
solutions and with different names in use. -/
namespace DependentClasses

theorem rel_mono {α β : Type} {P Q : α → β → Prop} (h : ∀ a b, P a b → Q a b)
    {o : Option α} {o' : Option β} (ho : Option.Rel P o o') : Option.Rel Q o o' := by
  cases ho with
  | none => exact .none
  | some hab => exact .some (h _ _ hab)

theorem rel_symm {α β : Type} {P : α → β → Prop} {Q : β → α → Prop} (h : ∀ a b, P a b → Q b a)
    {o : Option α} {o' : Option β} (ho : Option.Rel P o o') : Option.Rel Q o' o := by
  cases ho with
  | none => exact .none
  | some hab => exact .some (h _ _ hab)

theorem rel_some {α β : Type} {P : α → β → Prop} {o : Option α} {o' : Option β} {a : α}
    (h : Option.Rel P o o') (ho : o = some a) : ∃ b, o' = some b ∧ P a b := by
  cases h with
  | none => cases ho
  | some hab =>
    cases ho
    exact ⟨_, rfl, hab⟩

theorem rel_none {α β : Type} {P : α → β → Prop} {o : Option α} {o' : Option β}
    (h : Option.Rel P o o') (ho : o = none) :
    o' = none := by
  cases h with
  | none => rfl
  | some => cases ho

inductive PatternVariable.Similar (ρ : Renaming) : PatternVariable → PatternVariable → Prop
  | unsolved {a a' scope scope'} : a.Similar ρ a' →
      Similar ρ (.unsolved a scope) (.unsolved a' scope')
  | solved {a a' v v'} : v.Similar ρ v' → Similar ρ (.solved a v) (.solved a' v')

theorem PatternVariable.Similar.mono {ρ ρ' : Renaming} {p p' : PatternVariable} (h : p.Similar ρ p')
    (hρ : ∀ y y', ρ y y' → ρ' y y') : p.Similar ρ' p' := by
  cases h with
  | unsolved ha => exact .unsolved (ha.mono hρ)
  | solved hv => exact .solved (hv.mono hρ)

theorem PatternVariable.Similar.symm {ρ : Renaming} {p p' : PatternVariable} (h : p.Similar ρ p') :
    p'.Similar ρ.symm p := by
  cases h with
  | unsolved ha => exact .unsolved ha.symm
  | solved hv => exact .solved hv.symm

/-- Variables that stand for each other are in use, and the same is known of both. -/
structure Solution.Similar (ρ : Renaming) (used used' : List Name) (s s' : Solution) : Prop where
  find : ∀ x x', ρ x x' → Option.Rel (PatternVariable.Similar ρ) (s.find x) (s'.find x')
  mem : ∀ x x', ρ x x' → x ∈ used ∧ x' ∈ used'
  named : s.NamedIn used
  named' : s'.NamedIn used'

theorem Solution.NamedIn.find_eq_none {s : Solution} {used : List Name} {x : Name}
    (h : s.NamedIn used) (hx : x ∉ used) :
    s.find x = none :=
  Option.eq_none_iff_forall_ne_some.2 fun p hp => hx (h x p hp)

section

variable {ρ : Renaming} {used used' : List Name} {s s' : Solution} {n : Nat}

namespace Solution.Similar

variable {x x' : Name}

theorem le_under (h : s.Similar ρ used used' s') (hx : x ∉ used) (hx' : x' ∉ used')
    (y y' : Name) (hy : ρ y y') :
    ρ.under x x' y y' := by
  obtain ⟨hmem, hmem'⟩ := h.mem y y' hy
  exact .inr ⟨fun heq => hx (heq ▸ hmem), fun heq => hx' (heq ▸ hmem'), hy⟩

/-- Two new variables stand for each other. -/
theorem under (h : s.Similar ρ used used' s') (hx : x ∉ used) (hx' : x' ∉ used') :
    s.Similar (ρ.under x x') (x :: used) (x' :: used') s' where
  find := by
    rintro y y' (⟨rfl, rfl⟩ | ⟨-, -, hy⟩)
    · rw [h.named.find_eq_none hx, h.named'.find_eq_none hx']
      exact .none
    · exact rel_mono (fun p p' hp => hp.mono (h.le_under hx hx')) (h.find y y' hy)
  mem := by
    rintro y y' (⟨rfl, rfl⟩ | ⟨-, -, hy⟩)
    · exact ⟨List.mem_cons_self, List.mem_cons_self⟩
    · obtain ⟨hmem, hmem'⟩ := h.mem y y' hy
      exact ⟨List.mem_cons_of_mem x hmem, List.mem_cons_of_mem x' hmem'⟩
  named := h.named.cons x
  named' := h.named'.cons x'

end Solution.Similar

theorem Neutral.resume_similar (hs : s.Similar ρ used used' s') :
    {e e' : Neutral} → e.Similar ρ e' →
    Eval.Rel (Option.Rel (Value.Similar ρ)) (e.resume n s) (e'.resume n s')
  | .var x, _, h => by
    cases h with
    | @var _ x' hx =>
      have hrel := hs.find x x' hx
      simp only [resume]
      generalize s.find x = o at hrel ⊢
      generalize s'.find x' = o' at hrel ⊢
      cases hrel with
      | none => exact .pure .none
      | some hp =>
        cases hp with
        | unsolved => exact .pure .none
        | solved hv => exact .pure (.some hv)
  | .app p e a v, _, h => by
    cases h with
    | app he ha hv =>
      simp only [resume]
      refine .bind (resume_similar hs he) fun o o' ho => ?_
      cases ho with
      | none => exact .pure .none
      | some hf => exact .map ((ComputesSimilarly.all ρ n).app hf hv) fun _ _ hw => .some hw
  | .car e, _, h => by
    cases h with
    | car he =>
      simp only [resume]
      refine .bind (resume_similar hs he) fun o o' ho => ?_
      cases ho with
      | none => exact .pure .none
      | some hf => exact .map (Value.car_similar hf) fun _ _ hw => .some hw
  | .cdr e, _, h => by
    cases h with
    | cdr he =>
      simp only [resume]
      refine .bind (resume_similar hs he) fun o o' ho => ?_
      cases ho with
      | none => exact .pure .none
      | some hf => exact .map ((ComputesSimilarly.all ρ n).cdr hf) fun _ _ hw => .some hw
  | .dot e k, _, h => by
    cases h with
    | dot he =>
      simp only [resume]
      refine .bind (resume_similar hs he) fun o o' ho => ?_
      cases ho with
      | none => exact .pure .none
      | some hf => exact .map ((ComputesSimilarly.all ρ n).dot hf) fun _ _ hw => .some hw

theorem Value.force_similar (hs : s.Similar ρ used used' s') {v v' : Value} (h : v.Similar ρ v') :
    Eval.Rel (Value.Similar ρ) (v.force n s) (v'.force n s') := by
  induction n generalizing v v' with
  | zero => exact .outOfFuel _
  | succ n ih =>
    have hv := h
    unfold force
    cases h with
    | neutral ha he =>
      refine .bind (Neutral.resume_similar hs he) fun o o' ho => ?_
      cases ho with
      | none => exact .pure hv
      | some hw => exact ih hw
    | _ => exact .pure hv

structure ReadsAlike (s s' : Solution) (n : Nat) : Prop where
  value {ρ : Renaming} {used used' : List Name} {v v' : Value} : s.Similar ρ used used' s' →
    v.Similar ρ v' → Eval.Rel (Term.Alike ρ) (v.reify n s used) (v'.reify n s' used')
  spine {ρ : Renaming} {used used' : List Name} {e e' : Neutral} : s.Similar ρ used used' s' →
    e.Similar ρ e' → Eval.Rel (Term.Alike ρ) (e.reify n s used) (e'.reify n s' used')
  chain {ρ : Renaming} {used used' : List Name} {c c' : Chain} : s.Similar ρ used used' s' →
    c.Similar ρ c' → Eval.Rel (Term.Alike ρ) (c.reify n s used) (c'.reify n s' used')

theorem Closure.applyChain_similar {c c' : Closure} {v v' : Value} (hc : c.Similar ρ c')
    (hv : v.Similar ρ v') :
    Eval.Rel (Chain.Similar ρ) (c.applyChain n v) (c'.applyChain n v') :=
  .bind ((ComputesSimilarly.all ρ n).apply hc hv) fun _ _ hr => Value.chain_similar hr

namespace ReadsAlike

/-- The body of a binder is read back at a new variable. -/
theorem body (ih : ReadsAlike s s' n) (hs : s.Similar ρ used used' s') {a a' : Value}
    {c c' : Closure} (ha : a.Similar ρ a') (hc : c.Similar ρ c') {x x' : Name} (hx : x ∉ used)
    (hx' : x' ∉ used') :
    Eval.Rel (Term.Alike (ρ.under x x'))
      (do
        let r ← c.apply n (.variable a x)
        r.reify n s (x :: used))
      (do
        let r ← c'.apply n (.variable a' x')
        r.reify n s' (x' :: used')) := by
  have hle := hs.le_under hx hx'
  have hvariable : Value.Similar (ρ.under x x') (.variable a x) (.variable a' x') :=
    .neutral (ha.mono hle) (.var (.inl ⟨rfl, rfl⟩))
  exact .bind ((ComputesSimilarly.all _ n).apply (hc.mono hle) hvariable) fun r r' hr =>
    ih.value (hs.under hx hx') hr

/-- A type and the body of its binder. -/
theorem binder (ih : ReadsAlike s s' n) (hs : s.Similar ρ used used' s') {a a' : Value}
    {c c' : Closure} (ha : a.Similar ρ a') (hc : c.Similar ρ c') {f g : Name → Term → Term → Term}
    (hfg : ∀ x x' t t' b b', t.Alike ρ t' → b.Alike (ρ.under x x') b' →
      (f x t b).Alike ρ (g x' t' b')) :
    Eval.Rel (Term.Alike ρ)
      (do
        let x := c.x.fresh used
        let r ← c.apply n (.variable a x)
        let b ← r.reify n s (x :: used)
        let t ← a.reify n s used
        pure (f x t b))
      (do
        let x := c'.x.fresh used'
        let r ← c'.apply n (.variable a' x)
        let b ← r.reify n s' (x :: used')
        let t ← a'.reify n s' used'
        pure (g x t b)) := by
  have hbody := ih.body hs ha hc (Name.fresh_not_mem used c.x) (Name.fresh_not_mem used' c'.x)
  have hall := hbody.bind fun b b' hb => (ih.value hs ha).bind fun t t' ht =>
    Eval.Rel.pure (hfg _ _ t t' b b' ht hb)
  simpa only [bind_assoc] using hall

theorem value_succ (ih : ReadsAlike s s' n) (hs : s.Similar ρ used used' s') {v v' : Value}
    (h : v.Similar ρ v') :
    Eval.Rel (Term.Alike ρ) (v.reify (n + 1) s used) (v'.reify (n + 1) s' used') := by
  unfold Value.reify
  refine .bind (Value.force_similar hs h) fun w w' hw => ?_
  cases hw with
  | neutral _ he => exact ih.spine hs he
  | type => exact .pure .type
  | string => exact .pure .string
  | quote text => exact .pure (.quote text)
  | trivial => exact .pure .trivial
  | sole => exact .pure .sole
  | pi ha hc => exact ih.binder hs ha hc fun _ _ _ _ _ _ => .pi
  | fn ha hc => exact ih.binder hs ha hc fun _ _ _ _ _ _ => .fn
  | sigma ha hc => exact ih.binder hs ha hc fun _ _ _ _ _ _ => .sigma
  | cons ha hb =>
    exact .bind (ih.value hs ha) fun _ _ ht => .bind (ih.value hs hb) fun _ _ hu =>
      .pure (.cons ht hu)
  | equal ha hl hr =>
    refine .bind (ih.value hs ha) fun _ _ ht => .bind (ih.value hs hl) fun _ _ hl => ?_
    exact .bind (ih.value hs hr) fun _ _ hr => .pure (.equal ht hl hr)
  | same ha => exact .bind (ih.value hs ha) fun _ _ ht => .pure (.same ht)
  | classOf hc => exact ih.chain hs hc
  | object hlabels hfields =>
    refine .bind (.fields (fieldsAlike_iff.2 ⟨hlabels, hfields⟩) fun a a' ha => ih.value hs ha)
      fun fs fs' hfs => ?_
    obtain ⟨hlabels, hfields⟩ := fieldsAlike_iff.1 hfs
    exact .pure (.object hlabels hfields)

theorem spine_succ (ih : ReadsAlike s s' n) (hs : s.Similar ρ used used' s') {e e' : Neutral}
    (h : e.Similar ρ e') :
    Eval.Rel (Term.Alike ρ) (e.reify (n + 1) s used) (e'.reify (n + 1) s' used') := by
  unfold Neutral.reify
  cases h with
  | var hx => exact .pure (.var hx)
  | app he _ hv =>
    exact .bind (ih.spine hs he) fun _ _ ht => .bind (ih.value hs hv) fun _ _ hu =>
      .pure (.app ht hu)
  | car he => exact .bind (ih.spine hs he) fun _ _ ht => .pure (.car ht)
  | cdr he => exact .bind (ih.spine hs he) fun _ _ ht => .pure (.cdr ht)
  | dot he => exact .bind (ih.spine hs he) fun _ _ ht => .pure (.dot ht)

theorem chain_succ (ih : ReadsAlike s s' n) (hs : s.Similar ρ used used' s') {c c' : Chain}
    (h : c.Similar ρ c') :
    Eval.Rel (Term.Alike ρ) (c.reify (n + 1) s used) (c'.reify (n + 1) s' used') := by
  unfold Chain.reify
  cases h with
  | nil => exact .pure .emptyClass
  | @declared k a a' c c' ha hc =>
    have hx := Name.fresh_not_mem used k
    have hx' := Name.fresh_not_mem used' k
    have hle := hs.le_under hx hx'
    refine .bind (ih.value hs ha) fun t t' ht => ?_
    refine .bind
      (Closure.applyChain_similar (hc.mono hle) (.neutral (ha.mono hle) (.var (.inl ⟨rfl, rfl⟩))))
      fun d d' hd => ?_
    exact .bind (ih.chain (hs.under hx hx') hd) fun u u' hu => .pure (.declared ht hu)
  | @fulfilled k a a' v v' c c' ha hv hc =>
    have hx := Name.fresh_not_mem used k
    have hx' := Name.fresh_not_mem used' k
    refine .bind (ih.value hs ha) fun t t' ht => .bind (ih.value hs hv) fun u u' hu => ?_
    exact .bind (ih.chain (hs.under hx hx') (hc.mono (hs.le_under hx hx'))) fun r r' hr =>
      .pure (.fulfilled ht hu hr)

theorem all (s s' : Solution) (n : Nat) : ReadsAlike s s' n := by
  induction n with
  | zero => exact ⟨fun _ _ => .outOfFuel _, fun _ _ => .outOfFuel _, fun _ _ => .outOfFuel _⟩
  | succ n ih =>
    exact ⟨fun hs => ih.value_succ hs, fun hs => ih.spine_succ hs, fun hs => ih.chain_succ hs⟩

end ReadsAlike

end

def Renaming.only (X : Name → Prop) : Renaming := fun y y' => y = y' ∧ X y

section

variable {X : Name → Prop} {used used' : List Name} {s : Solution} {n : Nat}

theorem Value.Over.similar {v : Value} (h : v.Over X) : v.Similar (.only X) v :=
  v.similar_self fun y hy => ⟨rfl, h (.name y) hy⟩

theorem Solution.Over.similar (h : s.Over X) (hX : ∀ y, X y → y ∈ used ∧ y ∈ used')
    (hs : s.NamedIn used) (hs' : s.NamedIn used') : s.Similar (.only X) used used' s where
  find := by
    rintro y _ ⟨rfl, -⟩
    cases hp : s.find y with
    | none => exact .none
    | some p =>
      have hover := h y p hp
      cases p with
      | unsolved a scope => exact .some (.unsolved (Value.Over.similar hover))
      | solved a v => exact .some (.solved (Value.Over.similar hover.2))
  mem := by
    rintro y _ ⟨rfl, hy⟩
    exact hX y hy
  named := hs
  named' := hs'

theorem Term.Alike.alphaEquivalent {t t' : Term} (h : t.Alike (.only X) t') :
    t.alphaEquivalent t' :=
  Term.alphaEquivalent_iff.2 (h.mono fun _ _ _ _ hy => hy.1)

/-- Similar values have equal normal forms, whatever names are in use. -/
theorem Value.Similar.reify {v v' : Value} {t : Term} (h : v.Similar (.only X) v') (hs : s.Over X)
    (hX : ∀ y, X y → y ∈ used ∧ y ∈ used') (hused : s.NamedIn used) (hused' : s.NamedIn used')
    (ht : v.reify n s used = .ok t) : ∃ t', v'.reify n s used' = .ok t' ∧ t.alphaEquivalent t' := by
  obtain ⟨t', ht', halike⟩ := (ReadsAlike.all s s n).value (hs.similar hX hused hused') h t ht
  exact ⟨t', ht', halike.alphaEquivalent⟩

end

end DependentClasses
