import DependentClasses.Proofs.AlphaEquality
import DependentClasses.Proofs.Answers
import DependentClasses.Proofs.SolverFuel

/-! A value compared with itself. Comparison follows the type, and a value may have more than its
type says: an object keeps the properties that its class does not have. Such a value is not equal
to itself, and nothing but a part of this kind keeps a value from being so. -/
namespace DependentClasses

namespace Verdict

variable {α β : Type}

/-- A check comes to an end with the failure `e`. -/
def Refuses (x : Verdict α) (e : Failure) : Prop := x.run = .ok (.error e)

variable {x : Verdict α} {f : α → Verdict β} {e : Failure}

@[simp] theorem refuses_pure {a : α} : Refuses (pure a) e ↔ False := by
  simp [Refuses, pure, ExceptT.pure, ExceptT.mk, ExceptT.run, Except.pure]

@[simp] theorem refuses_bind :
    Refuses (x >>= f) e ↔ x.Refuses e ∨ ∃ a, x.Yields a ∧ (f a).Refuses e := by
  unfold Refuses Yields
  rw [ExceptT.run_bind]
  rcases x.run with h | e | a <;> simp [bind, Except.bind, pure, Except.pure]

@[simp] theorem refuses_lift {c : Eval α} : Refuses (liftM c) e ↔ False := by
  unfold Refuses
  change (ExceptT.run (ExceptT.lift c) = _) ↔ _
  rw [ExceptT.run_lift]
  cases c <;> simp [Functor.map, Except.map]

@[simp] theorem refuses_outOfFuel : Refuses (Eval.outOfFuel : Eval (Except Failure α)) e ↔ False :=
  Eval.outOfFuel_eq_ok

@[simp] theorem refuses_refuse {c : Cause} :
    Refuses (refuse c : Verdict α) e ↔ e = { cause := c } := by
  simp [Refuses, refuse, throw, throwThe, MonadExceptOf.throw, ExceptT.mk, ExceptT.run, pure,
    Except.pure, eq_comm]

/-- A traversal that is refused is refused at one of its elements. -/
theorem exists_of_forM_refuses {γ : Type} {g : γ → Verdict PUnit} {ys : List γ}
    (h : Refuses (ys.forM g) e) :
    ∃ y ∈ ys, (g y).Refuses e := by
  induction ys with
  | nil => exact (refuses_pure.1 h).elim
  | cons y ys ih =>
    obtain h | ⟨-, -, h⟩ := refuses_bind.1 h
    · exact ⟨y, List.mem_cons_self, h⟩
    · obtain ⟨z, hz, h⟩ := ih h
      exact ⟨z, List.mem_cons_of_mem y hz, h⟩

/-- A traversal that succeeds does so at each of its elements. -/
theorem yields_of_forM {γ : Type} {g : γ → Verdict PUnit} {ys : List γ} {u : PUnit}
    (h : Yields (ys.forM g) u) {y : γ} (hy : y ∈ ys) : (g y).Yields .unit := by
  induction ys with
  | nil => cases hy
  | cons z ys ih =>
    obtain ⟨_, hz, h⟩ := yields_bind.1 h
    rcases List.mem_cons.1 hy with rfl | hy
    · exact hz
    · exact ih h hy

end Verdict

def Neutral.args : Neutral → List (Value × Value)
  | .var _ => []
  | .app _ target a x => (a, x) :: target.args
  | .car pair => pair.args
  | .cdr pair => pair.args
  | .dot target _ => target.args

/-- A value that there is a comparison for at the given type. Literals and stuck computations are
compared whatever their type, types are compared by their normal forms. -/
def Value.suits : Value → Value → Bool
  | .type, _ => true
  | _, .sole => true
  | _, .quote _ => true
  | _, .neutral _ _ => true
  | .sigma _ _, .cons _ _ => true
  | .pi p _ _, .fn q _ _ => p = q
  | .equal _ _ _, .same _ => true
  | .classOf _, .object _ => true
  | _, _ => false

/-- There is more to the value itself than its type says: it is of another kind, or an object with a
property that its class does not have. -/
inductive Foreign (s : Solution) (a v : Value) : Prop
  | kind {a' v'} : a.Forces s a' → v.Forces s v' → a'.suits v' = false → Foreign s a v
  | property {c fs k x n} : a.Forces s (.classOf c) → v.Forces s (.object fs) →
      fs.lookup k = some x →
      c.typeOf n (.object fs) k = .ok none → Foreign s a v

/-- To compare `v` with itself at the type `a` is to compare parts of it with themselves, each at a
type and in a context of its own. -/
inductive Inspects (s : Solution) (ctx : Context) (a v : Value) : Context → Value → Value → Prop
  | car {c d x y} : a.Forces s (.sigma c d) → v.Forces s (.cons x y) → Inspects s ctx a v ctx c x
  | cdr {c d x y n b} : a.Forces s (.sigma c d) → v.Forces s (.cons x y) → d.apply n x = .ok b →
      Inspects s ctx a v ctx b y
  /-- The result of a function, at a parameter. -/
  | body {p c d c' f n m b y} : a.Forces s (.pi p c d) → v.Forces s (.fn p c' f) →
      d.apply n (s.witness ctx d.x c).2 = .ok b → f.apply m (s.witness ctx d.x c).2 = .ok y →
      Inspects s ctx a v (s.witness ctx d.x c).1 b y
  | same {b l r x} : a.Forces s (.equal b l r) → v.Forces s (.same x) → Inspects s ctx a v ctx b x
  | field {c fs k x n b} : a.Forces s (.classOf c) → v.Forces s (.object fs) →
      fs.lookup k = some x →
      c.typeOf n (.object fs) k = .ok (some b) → Inspects s ctx a v ctx b x
  /-- An argument that a computation is stuck with. -/
  | arg {a' b spine c x} : a.Forces s a' → a' ≠ .type → v.Forces s (.neutral b spine) →
      (c, x) ∈ spine.args →
      Inspects s ctx a v ctx c x

/-- Somewhere in a value of type `a` there is a part with more to it than its type says. -/
inductive Oversteps (s : Solution) : Context → Value → Value → Prop
  | here {ctx a v} : Foreign s a v → Oversteps s ctx a v
  | inner {ctx a v ctx' b x} : Inspects s ctx a v ctx' b x → Oversteps s ctx' b x →
      Oversteps s ctx a v

section

variable {s : Solution} {ctx : Context} {n : Nat} {e : Failure}

theorem convertType_self_not_refuses {v : Value} : ¬ (convertType n s ctx v v).Refuses e := by
  intro h
  unfold convertType at h
  simp only [Verdict.refuses_bind, Verdict.refuses_lift, Verdict.yields_lift, false_or] at h
  obtain ⟨t, ht, u, hu, h⟩ := h
  rw [ht] at hu
  cases hu
  simp at h

/-- A stuck computation that is refused is refused for one of its arguments. -/
theorem convertNeutral_self_refuses {spine : Neutral}
    (h : (convertNeutral n s ctx spine spine).Refuses e) :
    ∃ m < n, ∃ a x, (a, x) ∈ spine.args ∧ (convert m s ctx a x x).Refuses e := by
  induction n generalizing spine with
  | zero =>
    rw [convertNeutral] at h
    exact (Verdict.refuses_outOfFuel.1 h).elim
  | succ n ih =>
    cases spine with
    | var x => simp [convertNeutral] at h
    | app p f a x =>
      simp only [convertNeutral, if_true, Verdict.refuses_bind] at h
      obtain h | ⟨-, -, h⟩ := h
      · obtain ⟨m, hm, b, y, hy, h⟩ := ih h
        exact ⟨m, by omega, b, y, List.mem_cons_of_mem _ hy, h⟩
      · exact ⟨n, by omega, a, x, List.mem_cons_self, h⟩
    | car f | cdr f | dot f k =>
      simp only [convertNeutral, if_true] at h
      obtain ⟨m, hm, hrest⟩ := ih h
      exact ⟨m, by omega, hrest⟩

/-- If a stuck computation is equal to itself, so are its arguments. -/
theorem convert_of_convertNeutral_self {spine : Neutral} {u : Unit}
    (h : (convertNeutral n s ctx spine spine).Yields u) {a x : Value} (hx : (a, x) ∈ spine.args) :
    ∃ m, (convert m s ctx a x x).Yields () := by
  induction n generalizing spine with
  | zero =>
    rw [convertNeutral] at h
    exact (Verdict.yields_outOfFuel.1 h).elim
  | succ n ih =>
    cases spine with
    | var y => cases hx
    | app p f b y =>
      simp only [convertNeutral, if_true, Verdict.yields_bind] at h
      obtain ⟨_, hf, hy⟩ := h
      rcases List.mem_cons.1 hx with heq | hx
      · cases heq
        exact ⟨n, hy⟩
      · exact ih hf hx
    | car f | cdr f | dot f k =>
      simp only [convertNeutral, if_true] at h
      exact ih h hx

/-- What a comparison of a value with itself goes on to do, once type and value are forced. -/
theorem yields_forced {a a' v v' : Value} {u : Unit} {k : Value → Value → Value → Verdict Unit}
    (h : Verdict.Yields (do
      let a ← (a.force n s : Eval Value)
      let l ← (v.force n s : Eval Value)
      let r ← (v.force n s : Eval Value)
      k a l r) u)
    (ha : a.Forces s a') (hv : v.Forces s v') : (k a' v' v').Yields u := by
  simp only [Verdict.yields_bind, Verdict.yields_lift] at h
  obtain ⟨b, hb, l, hl, r, hr, h⟩ := h
  cases ha.unique ⟨n, hb⟩
  cases hv.unique ⟨n, hl⟩
  cases hv.unique ⟨n, hr⟩
  exact h

/-- A value that is equal to itself has no more to it than its type says. -/
theorem not_foreign_of_convert {a v : Value} {u : Unit}
    (h : (convert (n + 1) s ctx a v v).Yields u) :
    ¬ Foreign s a v := by
  unfold convert at h
  rintro (⟨ha, hv, hkind⟩ | ⟨ha, hv, hx, hnone⟩)
  · have h := yields_forced h ha hv
    dsimp only at h
    split at h
    · cases hkind
    · split at h
      · simp [Value.suits] at hkind
      · simp [Value.suits] at hkind
      · simp [Value.suits] at hkind
      · split at h
        · simp [Value.suits] at hkind
        · simp at h
      · split at h
        · split at h
          · simp_all [Value.suits]
          · simp at h
        · simp at h
      · split at h
        · simp [Value.suits] at hkind
        · simp at h
      · split at h
        · simp [Value.suits] at hkind
        · simp at h
      · simp at h
  · have h := yields_forced h ha hv
    simp only [if_true] at h
    have h := Verdict.yields_of_forM h (mem_of_lookup hx)
    simp only [hx, Verdict.yields_bind, Verdict.yields_lift] at h
    obtain ⟨b, hb, h⟩ := h
    cases Eval.eq_of_ok (fun n => Chain.typeOf_grows n _ _ _) hb hnone
    simp at h

/-- If a value is equal to itself, so is each part of it that is inspected. -/
theorem Inspects.convert_of_convert {a v : Value} {ctx' : Context} {b x : Value}
    (hx : Inspects s ctx a v ctx' b x) {u : Unit} (h : (convert (n + 1) s ctx a v v).Yields u) :
    ∃ m, (convert m s ctx' b x x).Yields () := by
  unfold convert at h
  cases hx with
  | car ha hv =>
    obtain ⟨_, h, -⟩ := Verdict.yields_bind.1 (yields_forced h ha hv)
    exact ⟨n, h⟩
  | cdr ha hv hb =>
    have h := yields_forced h ha hv
    simp only [Verdict.yields_bind, Verdict.yields_lift] at h
    obtain ⟨-, -, b, hb', h⟩ := h
    cases Eval.eq_of_ok (fun n => Closure.apply_grows n _ _) hb hb'
    exact ⟨n, h⟩
  | body ha hv hb hy =>
    have h := yields_forced h ha hv
    simp only [and_self, if_true, Verdict.yields_bind, Verdict.yields_lift] at h
    obtain ⟨b, hb', y, hy', z, hz, h⟩ := h
    cases Eval.eq_of_ok (fun n => Closure.apply_grows n _ _) hb hb'
    cases Eval.eq_of_ok (fun n => Closure.apply_grows n _ _) hy hy'
    cases Eval.eq_of_ok (fun n => Closure.apply_grows n _ _) hy hz
    exact ⟨n, h⟩
  | same ha hv =>
    have h := yields_forced h ha hv
    exact ⟨n, h⟩
  | field ha hv hx hb =>
    have h := yields_forced h ha hv
    simp only [if_true] at h
    have h := Verdict.yields_of_forM h (mem_of_lookup hx)
    simp only [hx, Verdict.yields_bind, Verdict.yields_lift] at h
    obtain ⟨b', hb', h⟩ := h
    cases Eval.eq_of_ok (fun n => Chain.typeOf_grows n _ _ _) hb hb'
    exact ⟨n, h⟩
  | arg ha htype hv hx =>
    have h := yields_forced h ha hv
    dsimp only at h
    split at h
    · exact absurd rfl htype
    · exact convert_of_convertNeutral_self h hx

theorem Oversteps.not_yields {a v : Value} (h : Oversteps s ctx a v) (n : Nat) :
    ¬ (convert n s ctx a v v).Yields () := by
  induction h generalizing n with
  | here hforeign =>
    intro h
    cases n with
    | zero => rw [convert] at h; exact Verdict.yields_outOfFuel.1 h
    | succ n => exact not_foreign_of_convert h hforeign
  | inner hx _ ih =>
    intro h
    cases n with
    | zero => rw [convert] at h; exact Verdict.yields_outOfFuel.1 h
    | succ n =>
      obtain ⟨m, hm⟩ := hx.convert_of_convert h
      exact ih m hm

def Cause.IsOverstep : Cause → Prop
  | .propertyNotFound _ => True
  | .conversionNotImplemented _ _ _ => True
  | _ => False

/-- A comparison of a value with itself is refused for the value itself or for a part that is
inspected. -/
theorem exists_of_convert_refuses {a v : Value} (h : (convert n s ctx a v v).Refuses e)
    (hs : s.WellFormed True) (hv : v.WellFormed True) :
    (Foreign s a v ∧ e.cause.IsOverstep) ∨
      ∃ m < n, ∃ ctx' b x, Inspects s ctx a v ctx' b x ∧ (convert m s ctx' b x x).Refuses e := by
  cases n with
  | zero =>
    rw [convert] at h
    exact (Verdict.refuses_outOfFuel.1 h).elim
  | succ n =>
    unfold convert at h
    simp only [Verdict.refuses_bind, Verdict.refuses_lift, Verdict.yields_lift, false_or] at h
    obtain ⟨a', ha, v', hv', r, hr, h⟩ := h
    have hfa : a.Forces s a' := ⟨n, ha⟩
    have hfv : v.Forces s v' := ⟨n, hv'⟩
    obtain rfl : v' = r := hfv.unique ⟨n, hr⟩
    have hunsupported {t l r} (hk : a'.suits v' = false)
        (h : (refuse (.conversionNotImplemented t l r) : Verdict Unit).Refuses e) :
        Foreign s a v ∧ e.cause.IsOverstep := by
      cases Verdict.refuses_refuse.1 h
      exact ⟨.kind hfa hfv hk, trivial⟩
    split at h
    · exact absurd h convertType_self_not_refuses
    · next htype =>
      split at h
      · simp at h
      · simp at h
      · obtain ⟨m, hm, c, x, hx, h⟩ := convertNeutral_self_refuses h
        exact .inr ⟨m, by omega, ctx, c, x, .arg hfa htype hfv hx, h⟩
      · split at h
        · simp only [Verdict.refuses_bind, Verdict.refuses_lift, Verdict.yields_lift, false_or] at h
          obtain h | ⟨-, -, b, hb, h⟩ := h
          · exact .inr ⟨n, by omega, ctx, _, _, .car hfa hfv, h⟩
          · exact .inr ⟨n, by omega, ctx, _, _, .cdr hfa hfv hb, h⟩
        · exact .inl (hunsupported (by unfold Value.suits; split <;> simp_all) h)
      · split at h
        · split at h
          · next hpq =>
            simp only [Verdict.refuses_bind, Verdict.refuses_lift,
              Verdict.yields_lift, false_or] at h
            obtain ⟨b, hb, y, hy, z, hz, h⟩ := h
            rw [hy] at hz
            cases hz
            cases hpq.1
            exact .inr ⟨n, by omega, _, b, y, .body hfa hfv hb hy, h⟩
          · exact .inl (hunsupported (by unfold Value.suits; split <;> simp_all) h)
        · exact .inl (hunsupported (by unfold Value.suits; split <;> simp_all) h)
      · split at h
        · exact .inr ⟨n, by omega, ctx, _, _, .same hfa hfv, h⟩
        · exact .inl (hunsupported (by unfold Value.suits; split <;> simp_all) h)
      · obtain ⟨hlabels, -⟩ := Value.all_object.1 (hs.force hv' hv)
        split at h
        · simp only [if_true] at h
          obtain ⟨⟨k, x⟩, hx, h⟩ := Verdict.exists_of_forM_refuses h
          have hlookup := lookup_of_mem (hlabels trivial) hx
          simp only [hlookup, Verdict.refuses_bind, Verdict.refuses_lift,
            Verdict.yields_lift, false_or] at h
          obtain ⟨b, hb, h⟩ := h
          cases b with
          | none =>
            cases Verdict.refuses_refuse.1 h
            exact .inl ⟨.property hfa hfv hlookup hb, trivial⟩
          | some b => exact .inr ⟨n, by omega, ctx, b, x, .field hfa hfv hlookup hb, h⟩
        · exact .inl (hunsupported (by unfold Value.suits; split <;> simp_all) h)
      · exact .inl (hunsupported (by unfold Value.suits; split <;> grind) h)

theorem Neutral.All.args {P : Part → Prop} {e : Neutral} (h : e.All P) {a x : Value}
    (hx : (a, x) ∈ e.args) :
    a.All P ∧ x.All P :=
  match e with
  | .var _ => by cases hx
  | .app _ f b y => by
    obtain ⟨hf, hb, hy⟩ := Neutral.all_app.1 h
    rcases List.mem_cons.1 hx with heq | hx
    · cases heq
      exact ⟨hb, hy⟩
    · exact Neutral.All.args (e := f) hf hx
  | .car f => Neutral.All.args (e := f) (Neutral.all_car.1 h) hx
  | .cdr f => Neutral.All.args (e := f) (Neutral.all_cdr.1 h) hx
  | .dot f _ => Neutral.All.args (e := f) (Neutral.all_dot.1 h) hx

theorem Solution.WellFormed.forces {strict : Prop} (hs : s.WellFormed strict) {v w : Value}
    (h : v.Forces s w) (hv : v.WellFormed strict) : w.WellFormed strict := by
  obtain ⟨n, h⟩ := h
  exact hs.force h hv

/-- The parts of a well-formed value are well-formed, and so are their types. -/
theorem Inspects.wellFormed {strict : Prop} {a v : Value} {ctx' : Context} {b x : Value}
    (h : Inspects s ctx a v ctx' b x) (hs : s.WellFormed strict) (ha : a.WellFormed strict)
    (hv : v.WellFormed strict) :
    b.WellFormed strict ∧ x.WellFormed strict := by
  cases h with
  | car hfa hfv =>
    exact ⟨(Value.all_sigma.1 (hs.forces hfa ha)).1, (Value.all_cons.1 (hs.forces hfv hv)).1⟩
  | cdr hfa hfv hb =>
    obtain ⟨-, hd⟩ := Value.all_sigma.1 (hs.forces hfa ha)
    obtain ⟨hx, hy⟩ := Value.all_cons.1 (hs.forces hfv hv)
    exact ⟨Closure.apply_all hb hd hx, hy⟩
  | body hfa hfv hb hy =>
    obtain ⟨hc, hd⟩ := Value.all_pi.1 (hs.forces hfa ha)
    obtain ⟨-, hf⟩ := Value.all_fn.1 (hs.forces hfv hv)
    exact ⟨Closure.apply_all hb hd (Value.WellFormed.variable hc _),
      Closure.apply_all hy hf (Value.WellFormed.variable hc _)⟩
  | same hfa hfv =>
    exact ⟨(Value.all_equal.1 (hs.forces hfa ha)).1, Value.all_same.1 (hs.forces hfv hv)⟩
  | field hfa hfv hx hb =>
    have hobject := hs.forces hfv hv
    exact ⟨Chain.typeOf_all hb (Value.all_classOf.1 (hs.forces hfa ha)) hobject,
      (Value.all_object.1 hobject).2 _ (mem_of_lookup hx)⟩
  | arg _ _ hfv hx => exact (Value.all_neutral.1 (hs.forces hfv hv)).2.args hx

/-- A value that is not equal to itself has a part with more to it than its type says. -/
theorem oversteps_of_convert_refuses {a v : Value} (h : (convert n s ctx a v v).Refuses e)
    (hs : s.WellFormed True) (ha : a.WellFormed True) (hv : v.WellFormed True) :
    Oversteps s ctx a v ∧ e.cause.IsOverstep := by
  -- An argument of a stuck computation is compared with less fuel than one step spends.
  induction n using Nat.strongRecOn generalizing ctx a v with
  | _ n ih =>
    obtain ⟨hforeign, hcause⟩ | ⟨m, hm, ctx', b, x, hx, h⟩ := exists_of_convert_refuses h hs hv
    · exact ⟨.here hforeign, hcause⟩
    · obtain ⟨hb, hxwf⟩ := hx.wellFormed hs ha hv
      obtain ⟨hinner, hcause⟩ := ih m hm h hb hxwf
      exact ⟨.inner hx hinner, hcause⟩

end

/-- A value that was checked against a type is equal to itself exactly if nothing in it has more to
it than its type says, and no other cause is given if it is not. -/
theorem convert_self_iff_not_oversteps {m : Toplevel} (hm : m.Reachable) {n k i j : Nat}
    {type value : Expr} {r : Term × Value} {t : Term} {s₁ s₂ : Solution} {v : Value}
    {verdict : Except Failure Unit} (htype : (checkType n m.context type).Yields m.solution r s₁)
    (hvalue : (check k m.context value r.2).Yields s₁ t s₂)
    (hv : eval i (s₂.environment m.context) t = .ok v)
    (hverdict : (convert j s₂ m.context r.2 v v).run = .ok verdict) :
    (verdict = .ok () ↔ ¬ Oversteps s₂ m.context r.2 v) ∧ ∀ e, verdict = .error e →
      e.cause.IsOverstep := by
  obtain ⟨htgrow, -, ha⟩ := (Elaborates.all n).checkType htype hm.coherent
  have hc₁ := hm.coherent.grow htgrow
  obtain ⟨hvgrow, htwf⟩ := (Elaborates.all k).check hvalue hc₁ ha
  have hc₂ := hc₁.grow hvgrow
  have hawf := (ha.grow hvgrow).wellFormed
  have hvwf := (hc₂.eval htwf hv).wellFormed
  cases verdict with
  | ok u =>
    exact ⟨⟨fun _ hover => hover.not_yields j hverdict, fun _ => rfl⟩, fun e he => by cases he⟩
  | error e =>
    obtain ⟨hover, hcause⟩ := oversteps_of_convert_refuses hverdict hc₂.sound.wellFormed hawf hvwf
    refine ⟨⟨fun h => (by cases h), fun h => absurd hover h⟩, fun f hf => ?_⟩
    cases hf
    exact hcause

namespace ExtraProperty

open Form (bare)

def x : Name := ⟨"x", 0⟩
def y : Name := ⟨"y", 0⟩

def type : Expr := bare (.classOf [.declared x (bare .string)])

def value : Expr := bare (.object [(x, bare (.quote "a")), (y, bare (.quote "b"))])

end ExtraProperty

open ExtraProperty in
/-- An object keeps a property that its class does not have, and is then not equal to itself. -/
theorem extra_property_oversteps :
    Toplevel.Reachable {} ∧
      ∃ (r : Term × Value) (t : Term) (s₁ s₂ : Solution) (v : Value) (e : Failure),
      (checkType 20 [] type).Yields {} r s₁ ∧ (check 20 [] value r.2).Yields s₁ t s₂ ∧
      eval 20 (s₂.environment []) t = .ok v ∧ (convert 20 s₂ [] r.2 v v).run = .ok (.error e) ∧
      Oversteps s₂ [] r.2 v ∧ e.cause.IsOverstep := by
  have h : (checkType 20 [] type).gives {} fun r s₁ => (check 20 [] value r.2).gives s₁ fun t s₂ =>
      gives (eval 20 (s₂.environment []) t) fun v =>
          gives (convert 20 s₂ [] r.2 v v).run fun verdict =>
        !verdict.toBool := by decide +kernel
  obtain ⟨r, s₁, hr, h⟩ := Solver.exists_of_gives h
  obtain ⟨t, s₂, ht, h⟩ := Solver.exists_of_gives h
  obtain ⟨v, hv, h⟩ := exists_of_gives h
  obtain ⟨verdict, he, h⟩ := exists_of_gives h
  cases verdict with
  | ok => cases h
  | error e =>
    obtain ⟨hiff, hcause⟩ := convert_self_iff_not_oversteps .start hr ht hv he
    have hover : Oversteps s₂ [] r.2 v := by
      by_contra hnot
      cases hiff.2 hnot
    exact ⟨.start, r, t, s₁, s₂, v, e, hr, ht, hv, he, hover, hcause e rfl⟩

end DependentClasses
