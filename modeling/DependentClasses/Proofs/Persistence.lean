import DependentClasses.Proofs.Growth
import DependentClasses.Proofs.RoundTrip
import DependentClasses.Proofs.SimilarReadings

/-! Normal forms while pattern variables go on being solved. A normal form stays one as long as no
variable of it is solved, and what is found to be equal is evaluated to equal normal forms again. -/
namespace DependentClasses

section

variable {s s' : Solution} {n : Nat}

theorem Neutral.head_mem_freeNames {used : List Name} : {e : Neutral} → {n : Nat} → {t : Term} →
    e.reify n s used = .ok t → e.head ∈ t.freeNames
  | .var x, n, t, h => by
    obtain ⟨m, rfl⟩ := reify_pos h
    simp only [reify, Eval.pure_eq_ok] at h
    simp [h, head]
  | .app p f a v, n, t, h => by
    obtain ⟨m, g, hg, w, -, rfl⟩ := reify_app h
    exact Term.mem_freeNames_app.2 (.inl (head_mem_freeNames (e := f) hg))
  | .car f, n, t, h => by
    obtain ⟨m, g, hg, rfl⟩ := reify_car h
    rw [Term.freeNames_car]
    exact head_mem_freeNames (e := f) hg
  | .cdr f, n, t, h => by
    obtain ⟨m, g, hg, rfl⟩ := reify_cdr h
    rw [Term.freeNames_cdr]
    exact head_mem_freeNames (e := f) hg
  | .dot f k, n, t, h => by
    obtain ⟨m, g, hg, rfl⟩ := reify_dot h
    rw [Term.freeNames_dot]
    exact head_mem_freeNames (e := f) hg

/-- A normal form under `s` in which nothing is solved by `s'` is one under `s'`, to the depth
`n`. -/
structure KeepsReadings (s s' : Solution) (n : Nat) : Prop where
  value {used : List Name} {v : Value} {t : Term} : s'.NamedIn used → v.reify n s used = .ok t →
    (∀ y ∈ t.freeNames, ¬ s'.IsSolved y) → v.reify n s' used = .ok t
  spine {used : List Name} {e : Neutral} {t : Term} : s'.NamedIn used → e.reify n s used = .ok t →
    (∀ y ∈ t.freeNames, ¬ s'.IsSolved y) → e.reify n s' used = .ok t
  chain {used : List Name} {c : Chain} {t : Term} : s'.NamedIn used → c.reify n s used = .ok t →
    (∀ y ∈ t.freeNames, ¬ s'.IsSolved y) → c.reify n s' used = .ok t

namespace KeepsReadings

variable {used : List Name} {t : Term}

/-- A new variable is not solved. -/
theorem unsolved_below (hs : s'.NamedIn used) {x : Name} (hx : x ∉ used) {b : Term}
    (hb : ∀ y ∈ b.freeNames, y ≠ x → ¬ s'.IsSolved y) : ∀ y ∈ b.freeNames, ¬ s'.IsSolved y := by
  intro y hy
  by_cases hyx : y = x
  · exact hyx ▸ hs.not_isSolved hx
  · exact hb y hy hyx

theorem fields (ih : KeepsReadings s s' n) (hs : s'.NamedIn used) {fs : List (Name × Value)}
    {gs : List (Name × Term)} (h : (fs.mapM fun (label, a) => do
      let a ← a.reify n s used
      pure (label, a)) = .ok gs) (hfree : ∀ g ∈ gs, ∀ y ∈ g.2.freeNames, ¬ s'.IsSolved y) :
    (fs.mapM fun (label, a) => do
      let a ← a.reify n s' used
      pure (label, a)) = .ok gs := by
  induction fs generalizing gs with
  | nil => exact h
  | cons f fs ih' =>
    obtain ⟨k, v⟩ := f
    simp only [List.mapM_cons, Eval.bind_eq_ok, Eval.pure_eq_ok] at h ⊢
    obtain ⟨_, ⟨t, ht, rfl⟩, gs, hgs, rfl⟩ := h
    have hv := ih.value hs ht (hfree (k, t) List.mem_cons_self)
    exact ⟨(k, t), ⟨t, hv, rfl⟩, gs, ih' hgs fun g hg => hfree g (List.mem_cons_of_mem _ hg), rfl⟩

theorem value_succ (hsolved : s.SolvedIn s') (ih : KeepsReadings s s' n)
    (hs : s'.NamedIn used) {v : Value} (h : v.reify (n + 1) s used = .ok t)
    (hfree : ∀ y ∈ t.freeNames, ¬ s'.IsSolved y) :
    v.reify (n + 1) s' used = .ok t := by
  unfold Value.reify at h ⊢
  obtain ⟨w, hw, h⟩ := Eval.bind_eq_ok.1 h
  refine Eval.bind_eq_ok.2 ⟨w, Value.force_of_solvedIn hsolved hw ?_, ?_⟩
  · rintro a e rfl
    exact hfree _ (Neutral.head_mem_freeNames h)
  cases w with
  | neutral a e => exact ih.spine hs h hfree
  | type | string | quote | trivial | sole => exact h
  | pi p a c | fn p a c | sigma a c =>
    simp only [Eval.bind_eq_ok, Eval.pure_eq_ok] at h ⊢
    obtain ⟨r, hr, b, hb, d, hd, rfl⟩ := h
    have hx := Name.fresh_not_mem used c.x
    have hbelow := unsolved_below (b := b) hs hx fun y hy hne => hfree y (by simp [hy, hne])
    exact ⟨r, hr, b, ih.value (hs.cons _) hb hbelow, d, ih.value hs hd fun y hy =>
      hfree y (by simp [hy]), rfl⟩
  | cons a b =>
    simp only [Eval.bind_eq_ok, Eval.pure_eq_ok] at h ⊢
    obtain ⟨d, hd, e, he, rfl⟩ := h
    exact ⟨d, ih.value hs hd fun y hy => hfree y (by simp [hy]), e, ih.value hs he fun y hy =>
      hfree y (by simp [hy]), rfl⟩
  | equal a l r =>
    simp only [Eval.bind_eq_ok, Eval.pure_eq_ok] at h ⊢
    obtain ⟨d, hd, e, he, f, hf, rfl⟩ := h
    exact ⟨d, ih.value hs hd fun y hy => hfree y (by simp [hy]), e, ih.value hs he fun y hy =>
      hfree y (by simp [hy]), f, ih.value hs hf fun y hy => hfree y (by simp [hy]), rfl⟩
  | same a =>
    simp only [Eval.bind_eq_ok, Eval.pure_eq_ok] at h ⊢
    obtain ⟨d, hd, rfl⟩ := h
    exact ⟨d, ih.value hs hd fun y hy => hfree y (by simpa using hy), rfl⟩
  | classOf c => exact ih.chain hs h hfree
  | object fs =>
    simp only [Eval.bind_eq_ok, Eval.pure_eq_ok] at h ⊢
    obtain ⟨gs, hgs, rfl⟩ := h
    refine ⟨gs, fields ih hs hgs fun f hf y hy => hfree y (Term.mem_freeNames_object.2 ⟨f, hf, hy⟩),
      rfl⟩

theorem spine_succ (ih : KeepsReadings s s' n) (hs : s'.NamedIn used) {e : Neutral}
    (h : e.reify (n + 1) s used = .ok t) (hfree : ∀ y ∈ t.freeNames, ¬ s'.IsSolved y) :
    e.reify (n + 1) s' used = .ok t := by
  unfold Neutral.reify at h ⊢
  cases e with
  | var x => exact h
  | app p f a v =>
    simp only [Eval.bind_eq_ok, Eval.pure_eq_ok] at h ⊢
    obtain ⟨d, hd, e, he, rfl⟩ := h
    exact ⟨d, ih.spine hs hd fun y hy => hfree y (by simp [hy]), e, ih.value hs he fun y hy =>
      hfree y (by simp [hy]), rfl⟩
  | car f | cdr f | dot f k =>
    simp only [Eval.bind_eq_ok, Eval.pure_eq_ok] at h ⊢
    obtain ⟨d, hd, rfl⟩ := h
    exact ⟨d, ih.spine hs hd fun y hy => hfree y (by simpa using hy), rfl⟩

theorem chain_succ (ih : KeepsReadings s s' n) (hs : s'.NamedIn used) {c : Chain}
    (h : c.reify (n + 1) s used = .ok t) (hfree : ∀ y ∈ t.freeNames, ¬ s'.IsSolved y) :
    c.reify (n + 1) s' used = .ok t := by
  unfold Chain.reify at h ⊢
  cases c with
  | nil => exact h
  | declared k a c =>
    simp only [Eval.bind_eq_ok, Eval.pure_eq_ok] at h ⊢
    obtain ⟨d, hd, e, he, b, hb, rfl⟩ := h
    have hx := Name.fresh_not_mem used k
    have hbelow := unsolved_below (b := b) hs hx fun y hy hne => hfree y (by simp [hy, hne])
    exact ⟨d, ih.value hs hd fun y hy => hfree y (by simp [hy]), e, he, b,
      ih.chain (hs.cons _) hb hbelow, rfl⟩
  | fulfilled k a v c =>
    simp only [Eval.bind_eq_ok, Eval.pure_eq_ok] at h ⊢
    obtain ⟨d, hd, e, he, b, hb, rfl⟩ := h
    have hx := Name.fresh_not_mem used k
    have hbelow := unsolved_below (b := b) hs hx fun y hy hne => hfree y (by simp [hy, hne])
    exact ⟨d, ih.value hs hd fun y hy => hfree y (by simp [hy]), e, ih.value hs he fun y hy =>
      hfree y (by simp [hy]), b, ih.chain (hs.cons _) hb hbelow, rfl⟩

theorem all (hsolved : s.SolvedIn s') (n : Nat) : KeepsReadings s s' n := by
  induction n with
  | zero => constructor <;> intros <;> simp_all [Value.reify, Neutral.reify, Chain.reify]
  | succ n ih =>
    exact ⟨fun hs => ih.value_succ hsolved hs, fun hs => ih.spine_succ hs,
      fun hs => ih.chain_succ hs⟩

end KeepsReadings

end

/-- Solutions that `s` leads to, as pattern variables are created and values unified in any
contexts. -/
inductive Solution.LeadsTo (s : Solution) : Solution → Prop
  | refl : LeadsTo s s
  | create {s₁ x} (a : Value) (scope : List Name) : LeadsTo s s₁ → s₁.find x = none →
      LeadsTo s (s₁.create x a scope)
  | solve {s₁ s₂ n ctx a l r} : LeadsTo s s₁ → (unify n ctx a l r).Yields s₁ () s₂ → LeadsTo s s₂

/-- `t` is the normal form of `v`. -/
def Value.ReadsAs (s : Solution) (ctx : Context) (v : Value) (t : Term) : Prop :=
  ∃ n, s.reify n ctx v = .ok t

/-- The types have been found to be equal. -/
def Value.EqualAsTypes (s : Solution) (ctx : Context) (a b : Value) : Prop :=
  ∃ n, (convertType n s ctx a b).Yields ()

section

variable {s s' : Solution} {ctx : Context}

theorem Value.ReadsAs.unique {v : Value} {t u : Term} (h : v.ReadsAs s ctx t)
    (h' : v.ReadsAs s ctx u) : t = u :=
  let ⟨_, ht⟩ := h
  let ⟨_, hu⟩ := h'
  Value.reify_unique ht hu

theorem Value.ReadsAs.common {v w : Value} {t u : Term} (h : v.ReadsAs s ctx t)
    (h' : w.ReadsAs s ctx u) :
    ∃ n, s.reify n ctx v = .ok t ∧ s.reify n ctx w = .ok u := by
  obtain ⟨n, ht⟩ := h
  obtain ⟨m, hu⟩ := h'
  have hgrows (v : Value) (n : Nat) : (s.reify n ctx v).Le (s.reify (n + 1) ctx v) :=
    (ReifyGrows.all s n).value _ v
  exact ⟨max n m, Eval.le_of_le (hgrows v) (Nat.le_max_left n m) t ht,
    Eval.le_of_le (hgrows w) (Nat.le_max_right n m) u hu⟩

theorem Value.equalAsTypes_iff {a b : Value} :
    a.EqualAsTypes s ctx b ↔ ∃ t u, a.ReadsAs s ctx t ∧ b.ReadsAs s ctx u ∧
      t.alphaEquivalent u := by
  unfold EqualAsTypes convertType
  simp only [Verdict.yields_bind, Verdict.yields_lift]
  constructor
  · rintro ⟨n, t, ht, u, hu, h⟩
    split at h
    · exact ⟨t, u, ⟨n, ht⟩, ⟨n, hu⟩, ‹_›⟩
    · simp at h
  · rintro ⟨t, u, ht, hu, h⟩
    obtain ⟨n, ht, hu⟩ := ht.common hu
    exact ⟨n, t, ht, u, hu, by simp [h]⟩

namespace Solution.LeadsTo

theorem solvedIn (h : s.LeadsTo s') : s.SolvedIn s' := by
  induction h with
  | refl => exact fun _ _ _ => id
  | @create s₁ x a scope _ hnone ih =>
    intro y b v hy
    have hne : y ≠ x := by
      rintro rfl
      rw [ih y b v hy] at hnone
      cases hnone
    rw [find_create, if_neg hne]
    exact ih y b v hy
  | solve _ hunify ih => exact fun y b v hy => (bindsTo_of_unify hunify).find_solved (ih y b v hy)

theorem names (h : s.LeadsTo s') : s.names ⊆ s'.names := by
  induction h with
  | refl => exact fun _ => id
  | create a scope _ _ ih => exact fun y hy => mem_names_create.2 (.inr (ih hy))
  | solve _ hunify ih =>
    rw [(bindsTo_of_unify hunify).names_eq]
    exact ih

end Solution.LeadsTo

theorem WellBuilt.mem_usedNames (h : WellBuilt ctx s) {y : Name} (hy : s.Visible ctx y) :
    y ∈ s.usedNames ctx := by
  rcases hy with hy | hy
  · obtain ⟨p, hp⟩ := Option.isSome_iff_exists.1 hy
    exact h.named.usedNames ctx y p hp
  · exact List.mem_append_left _ (Context.mem_names_of_isAbstract hy)

theorem WellBuilt.environment_over (h : WellBuilt ctx s) (y : Name) (w : Value)
    (hw : (s.environment ctx).lookup y = some w) : w.Over (s.Visible ctx) :=
  Solution.environment_all h.solution h.context.entries_over (fun _ => .inl) (fun _ _ => .inr) hw

end

end DependentClasses
