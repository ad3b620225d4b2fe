import DependentClasses.Proofs.Computation
import DependentClasses.Proofs.FreshNames

/-! Forcing and reading back. A forced value is not stuck on a solved pattern variable, and
only the solutions of variables that a value is over are ever looked at. -/
namespace DependentClasses

/-- The variables of a value are as `X` says; nothing is asked of its other parts. -/
def Part.Named (X : Name → Prop) : Part → Prop
  | .name y => X y
  | _ => True

/-- Every variable that the value may get stuck on, or that it records, is as `X` says. -/
def Value.Over (X : Name → Prop) (v : Value) : Prop := v.All (Part.Named X)

def Chain.Over (X : Name → Prop) (c : Chain) : Prop := c.All (Part.Named X)

def Neutral.Over (X : Name → Prop) (s : Neutral) : Prop := s.All (Part.Named X)

theorem Part.Named.mono {X Y : Name → Prop} (h : ∀ y, X y → Y y) (q : Part) :
    Named X q → Named Y q := by
  cases q with
  | name y => exact h y
  | missing | labels | fulfilled | fields | rest => exact id

theorem Value.Over.mono {X Y : Name → Prop} (h : ∀ y, X y → Y y) {v : Value}
    (hv : v.Over X) : v.Over Y :=
  Value.All.mono (Part.Named.mono h) hv

mutual

/-- The parts of a term are the labels that are written in it and what its classes go on with. -/
theorem Term.all_of_written {P : Part → Prop} (hl : ∀ ks, P (.labels ks))
    (hk : ∀ k ks, P (.fulfilled k ks)) (hf : ∀ ks, P (.fields ks)) (hr : ∀ t, P (.rest t)) :
    ∀ t : Term, t.All P
  | .var _ | .type | .string | .quote _ | .trivial | .sole | .emptyClass => by simp
  | .pi _ _ a b => all_pi.2 ⟨all_of_written hl hk hf hr a, all_of_written hl hk hf hr b⟩
  | .fn _ _ a b => all_fn.2 ⟨all_of_written hl hk hf hr a, all_of_written hl hk hf hr b⟩
  | .app _ a b => all_app.2 ⟨all_of_written hl hk hf hr a, all_of_written hl hk hf hr b⟩
  | .sigma _ a b => all_sigma.2 ⟨all_of_written hl hk hf hr a, all_of_written hl hk hf hr b⟩
  | .cons a b => all_cons.2 ⟨all_of_written hl hk hf hr a, all_of_written hl hk hf hr b⟩
  | .car a | .cdr a | .same a | .dot a _ => all_of_written hl hk hf hr a
  | .equal a l r =>
    all_equal.2 ⟨all_of_written hl hk hf hr a, all_of_written hl hk hf hr l,
      all_of_written hl hk hf hr r⟩
  | .declared _ _ a rest =>
    all_declared.2 ⟨hl _, hr _, all_of_written hl hk hf hr a, all_of_written hl hk hf hr rest⟩
  | .fulfilled _ _ a v rest =>
    all_fulfilled.2 ⟨hk _ _, hr _, all_of_written hl hk hf hr a, all_of_written hl hk hf hr v,
      all_of_written hl hk hf hr rest⟩
  | .object fields => all_object.2 ⟨hf _, all_of_written_fields hl hk hf hr fields⟩
  | .letIn _ a v b =>
    all_letIn.2 ⟨all_of_written hl hk hf hr a, all_of_written hl hk hf hr v,
      all_of_written hl hk hf hr b⟩

theorem Term.all_of_written_fields {P : Part → Prop} (hl : ∀ ks, P (.labels ks))
    (hk : ∀ k ks, P (.fulfilled k ks)) (hf : ∀ ks, P (.fields ks)) (hr : ∀ t, P (.rest t)) :
    ∀ fields : List (Name × Term), ∀ f ∈ fields, f.2.All P
  | [], _, h => by simp at h
  | (_, a) :: fields, f, h => by
    rcases List.mem_cons.1 h with rfl | h
    · exact all_of_written hl hk hf hr a
    · exact all_of_written_fields hl hk hf hr fields f h

end

/-- Terms have no variables that they are stuck on. -/
theorem Term.all_named {X : Name → Prop} (t : Term) : t.All (Part.Named X) :=
  t.all_of_written (fun _ => True.intro) (fun _ _ => True.intro) (fun _ => True.intro)
    fun _ => True.intro

/-- What a closure keeps is over `X` if its whole environment is. -/
theorem Closure.over_of_forall {X : Name → Prop} {env : Environment} {x : Name} {body : Term}
    (h : ∀ f ∈ env, f.2.Over X) : Closure.All (Part.Named X) ⟨env, x, body⟩ :=
  Closure.all_iff.2
    ⟨body.all_named, fun y _ _ => ⟨fun w hw => h (y, w) (mem_of_lookup hw), fun _ => True.intro⟩⟩

namespace Solution

def IsSolved (s : Solution) (m : Name) : Prop := ∃ a v, s.find m = some (.solved a v)

/-- The solutions of the variables that `P` allows have only parts that `P` allows. -/
def Keeps (P : Part → Prop) (s : Solution) : Prop :=
  ∀ m a v, s.find m = some (.solved a v) → P (.name m) → v.All P

end Solution

section

variable {P : Part → Prop} {n : Nat} {s s' : Solution}

namespace Neutral

theorem resumed_eq_some {x : Eval (Option Value)} {f : Value → Eval Value} {w : Value}
    (h : (do match ← x with
      | some v => some <$> f v
      | none => pure none) = .ok (some w)) : ∃ v, x = .ok (some v) ∧ f v = .ok w := by
  simp only [Eval.bind_eq_ok] at h
  obtain ⟨r, hr, h⟩ := h
  cases r with
  | none => simp at h
  | some v =>
    simp only [Eval.map_eq_ok, Option.some.injEq] at h
    obtain ⟨u, hu, rfl⟩ := h
    exact ⟨v, hr, hu⟩

theorem resume_all (hs : s.Keeps P) {e : Neutral} {v : Value}
    (h : e.resume n s = .ok (some v)) (he : e.All P) : v.All P :=
  match e with
  | .var x => by
    unfold resume at h
    split at h
    · next a w hw =>
      simp only [Eval.pure_eq_ok, Option.some.injEq] at h
      subst h
      exact hs x a _ hw (all_var.1 he)
    · simp at h
  | .app p f a w => by
    obtain ⟨g, hg, h⟩ := resumed_eq_some h
    obtain ⟨hf, -, hw⟩ := all_app.1 he
    exact (AddsNoParts.all P n).app h (resume_all (e := f) hs hg hf) hw
  | .car f => by
    obtain ⟨g, hg, h⟩ := resumed_eq_some h
    exact Value.car_all h (resume_all (e := f) hs hg (all_car.1 he))
  | .cdr f => by
    obtain ⟨g, hg, h⟩ := resumed_eq_some h
    exact (AddsNoParts.all P n).cdr h (resume_all (e := f) hs hg (all_cdr.1 he))
  | .dot f k => by
    obtain ⟨g, hg, h⟩ := resumed_eq_some h
    exact (AddsNoParts.all P n).dot h (resume_all (e := f) hs hg (all_dot.1 he))

theorem resumed_eq_none {x : Eval (Option Value)} {f : Value → Eval Value}
    (h : (do match ← x with
      | some v => some <$> f v
      | none => pure none) = .ok (none : Option Value)) : x = .ok none := by
  simp only [Eval.bind_eq_ok] at h
  obtain ⟨r, hr, h⟩ := h
  cases r with
  | none => exact hr
  | some v => simp at h

/-- A computation is resumed if its head is solved. -/
theorem not_isSolved_head {e : Neutral} (h : e.resume n s = .ok none) : ¬ s.IsSolved e.head :=
  match e with
  | .var x => by
    rintro ⟨a, v, hx⟩
    rw [head] at hx
    simp [resume, hx] at h
  | .app _ f _ _ => not_isSolved_head (e := f) (resumed_eq_none h)
  | .car f | .cdr f | .dot f _ => not_isSolved_head (e := f) (resumed_eq_none h)

/-- Resuming a computation looks at the solution of its head only. -/
theorem resume_congr {e : Neutral} (h : s.find e.head = s'.find e.head) :
    e.resume n s = e.resume n s' :=
  match e with
  | .var x => by rw [head] at h; simp only [resume, h]
  | .app _ f _ _ | .car f | .cdr f | .dot f _ => by
    simp only [resume]
    rw [resume_congr (e := f) h]

end Neutral

namespace Value

theorem force_all (hs : s.Keeps P) {v w : Value} (h : v.force n s = .ok w)
    (hv : v.All P) : w.All P := by
  induction n generalizing v with
  | zero => simp [force] at h
  | succ n ih =>
    unfold force at h
    split at h
    · simp only [Eval.bind_eq_ok] at h
      obtain ⟨r, hr, h⟩ := h
      cases r with
      | none =>
        rw [Eval.pure_eq_ok] at h
        subst h
        exact hv
      | some u => exact ih h (Neutral.resume_all hs hr (all_neutral.1 hv).2)
    · rw [Eval.pure_eq_ok] at h
      subst h
      exact hv

theorem not_isSolved_of_force {v a : Value} {spine : Neutral}
    (h : v.force n s = .ok (.neutral a spine)) :
    ¬ s.IsSolved spine.head := by
  induction n generalizing v with
  | zero => simp [force] at h
  | succ n ih =>
    unfold force at h
    split at h
    · simp only [Eval.bind_eq_ok] at h
      obtain ⟨r, hr, h⟩ := h
      cases r with
      | none =>
        simp only [Eval.pure_eq_ok, neutral.injEq] at h
        rw [h.2]
        exact Neutral.not_isSolved_head hr
      | some u => exact ih h
    · next hn =>
      rw [Eval.pure_eq_ok] at h
      exact absurd h.symm (hn a spine)

/-- Forcing looks only at the solutions of variables that the value is over. -/
theorem force_congr {X : Name → Prop} (hs : s.Keeps (Part.Named X))
    (hfind : ∀ m, X m → s.find m = s'.find m) {v : Value} (hv : v.Over X) :
    v.force n s = v.force n s' := by
  induction n generalizing v with
  | zero => rfl
  | succ n ih =>
    unfold force
    split
    · next a spine =>
      have hspine := (all_neutral.1 hv).2
      rw [← Neutral.resume_congr (hfind _ hspine.head)]
      cases hr : spine.resume n s with
      | error e => rfl
      | ok r =>
        cases r with
        | none => rfl
        | some u => exact ih (Neutral.resume_all hs hr hspine)
    · rfl

end Value

namespace Closure

variable {X : Name → Prop} {c : Closure} {a : Value} {x : Name}

/-- Below a binder the bound variable joins those that a value may be over. -/
theorem apply_over {r : Value} (h : c.apply n (.variable a x) = .ok r) (hc : c.All (Part.Named X))
    (ha : a.Over X) : r.Over fun y => X y ∨ y = x := by
  have hmono := Part.Named.mono (fun y (hy : X y) => (Or.inl hy : X y ∨ y = x))
  have hx : (Value.variable a x).Over fun y => X y ∨ y = x :=
    Value.all_variable.2 ⟨Value.All.mono hmono ha, .inr rfl⟩
  exact (AddsNoParts.all _ n).eval h (Closure.All.bind (fun q hq => hmono q (hc q hq)) hx)

theorem applyChain_over {d : Chain} (h : c.applyChain n (.variable a x) = .ok d)
    (hc : c.All (Part.Named X)) (ha : a.Over X) : d.Over fun y => X y ∨ y = x := by
  simp only [applyChain, Eval.bind_eq_ok] at h
  obtain ⟨r, hr, hd⟩ := h
  exact Value.chain_all hd (apply_over hr hc ha)

end Closure

namespace Solution

def NamedIn (s : Solution) (used : List Name) : Prop := ∀ y p, s.find y = some p → y ∈ used

theorem NamedIn.cons {used : List Name} (h : s.NamedIn used) (x : Name) : s.NamedIn (x :: used) :=
  fun y p hy => List.mem_cons_of_mem x (h y p hy)

theorem NamedIn.not_isSolved {used : List Name} {x : Name} (h : s.NamedIn used) (hx : x ∉ used) :
    ¬ s.IsSolved x :=
  fun ⟨_, _, hs⟩ => hx (h x _ hs)

/-- A variable that has no solution may join. -/
theorem Keeps.bind {X : Name → Prop} {x : Name} (h : s.Keeps (Part.Named X)) (hx : ¬ s.IsSolved x) :
    s.Keeps (Part.Named fun y => X y ∨ y = x) := by
  rintro m a v hm (hX | rfl)
  · exact (h m a v hm hX).mono (Part.Named.mono fun _ => .inl)
  · exact absurd ⟨a, v, hm⟩ hx

end Solution

/-- Two solutions that say the same about the variables in `X`, and name no variable outside
`used`. -/
structure Solution.Agree (X : Name → Prop) (used : List Name) (s s' : Solution) : Prop where
  keeps : s.Keeps (Part.Named X)
  named : s.NamedIn used
  named' : s'.NamedIn used
  find : ∀ m, X m → s.find m = s'.find m

theorem Solution.Agree.bind {X : Name → Prop} {used : List Name} {x : Name} (h : Agree X used s s')
    (hx : x ∉ used) :
    Agree (fun y => X y ∨ y = x) (x :: used) s s' := by
  refine ⟨h.keeps.bind (h.named.not_isSolved hx), h.named.cons x, h.named'.cons x, ?_⟩
  rintro m (hm | rfl)
  · exact h.find m hm
  · have hs : s.find m = none := Option.eq_none_iff_forall_ne_some.2 fun p hp => hx (h.named m p hp)
    have hs' : s'.find m = none :=
      Option.eq_none_iff_forall_ne_some.2 fun p hp => hx (h.named' m p hp)
    rw [hs, hs']

structure SameReadings (s s' : Solution) (n : Nat) : Prop where
  value {X : Name → Prop} {used : List Name} {v : Value} :
    s.Agree X used s' → v.Over X → v.reify n s used = v.reify n s' used
  spine {X : Name → Prop} {used : List Name} {v : Neutral} :
    s.Agree X used s' → v.Over X → v.reify n s used = v.reify n s' used
  chain {X : Name → Prop} {used : List Name} {v : Chain} :
    s.Agree X used s' → v.Over X → v.reify n s used = v.reify n s' used

namespace SameReadings

variable {X : Name → Prop} {used : List Name}

theorem value_succ (ih : SameReadings s s' n) (h : s.Agree X used s') {v : Value} (hv : v.Over X) :
    v.reify (n + 1) s used = v.reify (n + 1) s' used := by
  unfold Value.reify
  rw [← Value.force_congr h.keeps h.find hv]
  refine Eval.bind_congr fun w hw => ?_
  have hX : w.Over X := Value.force_all h.keeps hw hv
  cases w with
  | neutral a spine => exact ih.spine h (Value.all_neutral.1 hX).2
  | type | string | quote | trivial | sole => rfl
  | pi p a c =>
    obtain ⟨ha, hc⟩ := Value.all_pi.1 hX
    refine Eval.bind_congr fun r hr => ?_
    rw [ih.value (h.bind (Name.fresh_not_mem used c.x)) (Closure.apply_over hr hc ha),
      ih.value h ha]
  | fn p a c =>
    obtain ⟨ha, hc⟩ := Value.all_fn.1 hX
    refine Eval.bind_congr fun r hr => ?_
    rw [ih.value (h.bind (Name.fresh_not_mem used c.x)) (Closure.apply_over hr hc ha),
      ih.value h ha]
  | sigma a c =>
    obtain ⟨ha, hc⟩ := Value.all_sigma.1 hX
    refine Eval.bind_congr fun r hr => ?_
    rw [ih.value (h.bind (Name.fresh_not_mem used c.x)) (Closure.apply_over hr hc ha),
      ih.value h ha]
  | cons a b =>
    obtain ⟨ha, hb⟩ := Value.all_cons.1 hX
    simp only [ih.value h ha, ih.value h hb]
  | equal a l r =>
    obtain ⟨ha, hl, hr⟩ := Value.all_equal.1 hX
    simp only [ih.value h ha, ih.value h hl, ih.value h hr]
  | same a => simp only [ih.value h (Value.all_same.1 hX)]
  | classOf c => exact ih.chain h (Value.all_classOf.1 hX)
  | object fields =>
    have hf := (Value.all_object.1 hX).2
    refine congrArg (· >>= _) (Eval.mapM_congr fun f hm => ?_)
    simp only [ih.value h (hf f hm)]

theorem spine_succ (ih : SameReadings s s' n) (h : s.Agree X used s') {v : Neutral}
    (hv : v.Over X) :
    v.reify (n + 1) s used = v.reify (n + 1) s' used := by
  unfold Neutral.reify
  cases v with
  | var x => rfl
  | app p f a w =>
    obtain ⟨hf, -, hw⟩ := Neutral.all_app.1 hv
    simp only [ih.spine h hf, ih.value h hw]
  | car f => simp only [ih.spine h (Neutral.all_car.1 hv)]
  | cdr f => simp only [ih.spine h (Neutral.all_cdr.1 hv)]
  | dot f k => simp only [ih.spine h (Neutral.all_dot.1 hv)]

theorem chain_succ (ih : SameReadings s s' n) (h : s.Agree X used s') {v : Chain} (hv : v.Over X) :
    v.reify (n + 1) s used = v.reify (n + 1) s' used := by
  unfold Chain.reify
  cases v with
  | nil => rfl
  | declared k a c =>
    obtain ⟨-, -, ha, hc⟩ := Chain.all_declared.1 hv
    simp only [ih.value h ha]
    refine Eval.bind_congr fun t _ => Eval.bind_congr fun d hd => ?_
    rw [ih.chain (h.bind (Name.fresh_not_mem used k)) (Closure.applyChain_over hd hc ha)]
  | fulfilled k a w c =>
    obtain ⟨-, ha, hw, hc⟩ := Chain.all_fulfilled.1 hv
    have hc : c.Over fun y => X y ∨ y = k.fresh used :=
      fun q hq => Part.Named.mono (fun _ => .inl) q (hc q hq)
    simp only [ih.value h ha, ih.value h hw, ih.chain (h.bind (Name.fresh_not_mem used k)) hc]

theorem all (s s' : Solution) (n : Nat) : SameReadings s s' n := by
  induction n with
  | zero => exact ⟨fun _ _ => rfl, fun _ _ => rfl, fun _ _ => rfl⟩
  | succ n ih =>
    exact ⟨fun h => ih.value_succ h, fun h => ih.spine_succ h, fun h => ih.chain_succ h⟩

end SameReadings

end

end DependentClasses
