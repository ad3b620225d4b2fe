import DependentClasses.Proofs.Standards

/-! Conversion and unification keep to every standard. Both take values apart and open closures, and
unification gives a pattern variable a solution that is read back from a value and computed
again. -/
namespace DependentClasses

section

variable {S : Standard} {n : Nat} {s : Solution} {ctx : Context}

theorem convertType_keeps (n : Nat) (ctx : Context) (hs : S.solution s) {l r : Value}
    (hl : S.value l) (hr : S.value r) :
    (convertType n s ctx l r).Ends S.toDiscipline fun _ => True := by
  unfold convertType
  refine .bind (.lift (S.reify n ctx hs hl)) fun t _ => ?_
  refine .bind (.lift (S.reify n ctx hs hr)) fun u _ => ?_
  split
  · exact .pure True.intro
  · exact .told rfl

structure ConvertsKeeping (S : Standard) (s : Solution) (n : Nat) : Prop where
  value (ctx : Context) {a l r : Value} : S.value a → S.value l → S.value r →
    (convert n s ctx a l r).Ends S.toDiscipline fun _ => True
  spine (ctx : Context) {l r : Neutral} : S.spine l → S.spine r →
    (convertNeutral n s ctx l r).Ends S.toDiscipline fun _ => True

namespace ConvertsKeeping

/-- Objects are compared field by field. The questions that their class asks are put to an
object. -/
theorem fields (ih : ConvertsKeeping S s n) (ctx : Context) {c : Chain} (hc : S.chain c)
    {fs gs : List (Name × Value)} (hl : S.value (.object fs)) (hr : S.value (.object gs)) :
    Verdict.Ends S.toDiscipline (fs.forM fun (label, x) => do
      match gs.lookup label with
      | none => refuse (.missingProperty label)
      | some y =>
        match ← c.typeOf n (.object fs) label with
        | none => refuse (.propertyNotFound label)
        | some b => convert n s ctx b x y) fun _ => True := by
  refine .forM fun ⟨label, x⟩ hx => ?_
  dsimp only
  cases hy : gs.lookup label with
  | none => exact .told rfl
  | some y =>
    refine .bind (.lift (S.computing.typeOf_object n label hc hl)) fun b hb => ?_
    cases b with
    | none => exact .told rfl
    | some b =>
      exact ih.value ctx (hb b rfl) ((S.values.object hl).2 _ hx)
        ((S.values.object hr).2 _ (mem_of_lookup hy))

theorem value_succ (ih : ConvertsKeeping S s n) (hs : S.solution s) (ctx : Context) {a l r : Value}
    (ha : S.value a) (hl : S.value l) (hr : S.value r) :
    (convert (n + 1) s ctx a l r).Ends S.toDiscipline fun _ => True := by
  unfold convert
  refine .bind (.lift (S.force n hs ha)) fun a ha => ?_
  refine .bind (.lift (S.force n hs hl)) fun l hl => ?_
  refine .bind (.lift (S.force n hs hr)) fun r hr => ?_
  dsimp only
  split
  · exact convertType_keeps n ctx hs hl hr
  · split
    · exact .pure True.intro
    · split
      · exact .pure True.intro
      · exact .told rfl
    · exact ih.spine ctx (S.values.neutral hl).2 (S.values.neutral hr).2
    · obtain ⟨hx, hy⟩ := S.values.cons hl
      obtain ⟨hx', hy'⟩ := S.values.cons hr
      split
      · obtain ⟨hc, hd⟩ := S.values.sigma ha
        refine .bind (ih.value ctx hc hx hx') fun _ _ => ?_
        exact .bind (.lift (S.computing.apply n hd hx)) fun d hd => ih.value ctx hd hy hy'
      · exact .told rfl
    · obtain ⟨-, -, hf⟩ := S.values.fn hl
      obtain ⟨-, -, hg⟩ := S.values.fn hr
      split
      · split
        · obtain ⟨-, hc, hd⟩ := S.values.pi ha
          have hv (x : Name) := S.values.parameter x hc
          refine .bind (.lift (S.computing.apply n hd (hv _))) fun d hd => ?_
          refine .bind (.lift (S.computing.apply n hf (hv _))) fun f hf => ?_
          exact .bind (.lift (S.computing.apply n hg (hv _))) fun g hg => ih.value _ hd hf hg
        · exact .told rfl
      · exact .told rfl
    · split
      · exact ih.value ctx (S.values.equal.1 ha).1 (S.values.same hl) (S.values.same hr)
      · exact .told rfl
    · split
      · split
        · exact ih.fields ctx (S.values.classOf.1 ha) hl hr
        · exact .told rfl
      · exact .told rfl
    · exact .told rfl

theorem spine_succ (ih : ConvertsKeeping S s n) (ctx : Context) {l r : Neutral} (hl : S.spine l)
    (hr : S.spine r) :
    (convertNeutral (n + 1) s ctx l r).Ends S.toDiscipline fun _ => True := by
  unfold convertNeutral
  dsimp only
  split
  · split
    · exact .pure True.intro
    · exact .told rfl
  · obtain ⟨-, hf, ha, hx⟩ := S.values.app hl
    obtain ⟨-, hg, -, hy⟩ := S.values.app hr
    split
    · exact .bind (ih.spine ctx hf hg) fun _ _ => ih.value ctx ha hx hy
    · exact .told rfl
  · exact ih.spine ctx (S.values.car hl).2 (S.values.car hr).2
  · exact ih.spine ctx (S.values.cdr hl).2 (S.values.cdr hr).2
  · split
    · exact ih.spine ctx (S.values.dot hl).2 (S.values.dot hr).2
    · exact .told rfl
  · exact .told rfl

theorem all (hs : S.solution s) (n : Nat) : ConvertsKeeping S s n := by
  induction n with
  | zero =>
    constructor
    · intro ctx a l r _ _ _; rw [convert]; exact .lift .outOfFuel
    · intro ctx l r _ _; rw [convertNeutral]; exact .lift .outOfFuel
  | succ n ih => exact ⟨ih.value_succ hs, ih.spine_succ⟩

end ConvertsKeeping

theorem convert_keeps (n : Nat) (ctx : Context) {a l r : Value} (ha : S.value a) (hl : S.value l)
    (hr : S.value r) :
    (Solver.judging fun s => convert n s ctx a l r).Ends S.toDiscipline fun _ => True :=
  .judging fun _ hs => (ConvertsKeeping.all hs n).value ctx ha hl hr

/-- What a pattern variable is applied to is as asked, and it may be applied to it. -/
def PatternSpine.Keeps (S : Standard) (p : PatternSpine) : Prop :=
  ∀ a ∈ p.args, S.applied a.plicity ∧ S.value a.type ∧ S.value a.value

theorem Neutral.patternSpine_keeps :
    ∀ {e : Neutral}, S.spine e → ∀ {p : PatternSpine}, e.patternSpine s = some p →
    p.Keeps S ∧ s.isUnsolved p.head
  | .var x, _, p, hp => by
    simp only [Neutral.patternSpine, Option.ite_none_right_eq_some, Option.some.injEq] at hp
    obtain ⟨hunsolved, rfl⟩ := hp
    exact ⟨by simp [PatternSpine.Keeps], hunsolved⟩
  | .app _ f a v, he, p, hp => by
    obtain ⟨happlied, hf, ha, hv⟩ := S.values.app he
    rw [Neutral.patternSpine, Option.map_eq_some_iff] at hp
    obtain ⟨q, hq, rfl⟩ := hp
    obtain ⟨hargs, hunsolved⟩ := Neutral.patternSpine_keeps hf hq
    exact ⟨List.forall_mem_append.2 ⟨hargs, List.forall_mem_singleton.2 ⟨happlied, ha, hv⟩⟩,
      hunsolved⟩

/-- An application of a pattern variable is only taken apart while the variable is unsolved. -/
theorem Value.patternSpine_keeps {v : Value} (hv : S.value v) {p : PatternSpine}
    (hp : v.patternSpine s = some p) :
    p.Keeps S ∧ s.isUnsolved p.head := by
  unfold Value.patternSpine at hp
  split at hp
  · exact Neutral.patternSpine_keeps (S.values.neutral hv).2 hp
  · cases hp

namespace PatternSpine

theorem sameArgs_keeps (n : Nat) (ctx : Context) (hs : S.solution s) :
    ∀ {as bs : List Arg}, (∀ a ∈ as, S.value a.value) → (∀ b ∈ bs, S.value b.value) →
      (sameArgs n s ctx as bs).Ends S.fault fun _ => True
  | [], [], _, _ | [], _ :: _, _, _ | _ :: _, [], _, _ => .pure True.intro
  | a :: as, b :: bs, has, hbs => by
    rw [List.forall_mem_cons] at has hbs
    unfold sameArgs
    split
    · refine .bind (S.reify n ctx hs has.1) fun l _ => .bind (S.reify n ctx hs hbs.1) fun r _ => ?_
      split
      · exact sameArgs_keeps n ctx hs has.2 hbs.2
      · exact .pure True.intro
    · exact .pure True.intro

theorem same_keeps (n : Nat) (ctx : Context) (hs : S.solution s) {p q : PatternSpine}
    (hp : p.Keeps S) (hq : q.Keeps S) : (p.same n s ctx q).Ends S.fault fun _ => True := by
  unfold same
  split
  · exact sameArgs_keeps n ctx hs (fun a ha => (hp a ha).2.2) fun b hb => (hq b hb).2.2
  · exact .pure True.intro

theorem parameters_keeps (n : Nat) (ctx : Context) (head : Name) (hs : S.solution s) :
    ∀ (seen : List Name) {as : List Arg}, (∀ a ∈ as, S.value a.value) →
      (parameters n s ctx head seen as).Ends S.toDiscipline fun _ => True
  | _, [], _ => .pure True.intro
  | seen, a :: as, has => by
    rw [List.forall_mem_cons] at has
    unfold parameters
    refine .bind (.lift (S.force n hs has.1)) fun v _ => ?_
    split
    · split
      · exact parameters_keeps n ctx head hs _ has.2
      · exact .told rfl
    · exact .told rfl

/-- The functions of a solution are of the kinds that the variable was applied to. -/
theorem abstracted_keeps (n : Nat) (ctx : Context) (hs : S.solution s) {body : Term}
    (hbody : S.term body) :
    ∀ {as : List (Arg × Name)}, (∀ a ∈ as, S.applied a.1.plicity ∧ S.value a.1.type) →
      (abstracted n s ctx as body).Ends S.fault S.term
  | [], _ => .pure hbody
  | (a, x) :: as, has => by
    obtain ⟨⟨happlied, ha⟩, has⟩ := List.forall_mem_cons.1 has
    refine .bind (abstracted_keeps n ctx hs hbody has) fun body hbody => ?_
    exact .bind (S.reify n ctx hs ha) fun domain hdomain =>
      .pure (S.terms.fn happlied hdomain hbody)

theorem checkScope_keeps (s : Solution) (head : Name) (parameters scope : List Name) :
    ∀ xs : List Name, (checkScope s head parameters scope xs).Ends S.toDiscipline fun _ => True
  | [] => .pure True.intro
  | x :: xs => by
    unfold checkScope
    split
    · exact .told rfl
    · split
      · exact .told rfl
      · exact checkScope_keeps s head parameters scope xs

theorem solve_keeps (n : Nat) (hs : S.solution s) (hctx : S.context ctx) {p : PatternSpine}
    (hp : p.Keeps S) (hhead : s.isUnsolved p.head) {v : Value} (hv : S.value v) :
    (p.solve n s ctx v).Ends S.toDiscipline S.solution := by
  unfold solve
  refine .bind (parameters_keeps n ctx p.head hs [] fun a ha => (hp a ha).2.2) fun xs _ => ?_
  refine .bind (.lift (S.reify n ctx hs hv)) fun body hbody => ?_
  split
  · refine .bind (checkScope_keeps s p.head xs _ _) fun _ _ => ?_
    have hargs : ∀ a ∈ p.args.zip xs, S.applied a.1.plicity ∧ S.value a.1.type := fun a ha =>
      let h := hp a.1 (List.of_mem_zip ha).1
      ⟨h.1, h.2.1⟩
    refine .bind (.lift (abstracted_keeps n ctx hs hbody hargs)) fun t ht => ?_
    exact .bind (.lift (S.computing.evaluate n hs hctx ht)) fun w hw =>
      .pure (S.scopes.solve p.head hs hw)
  · -- A head that is not unsolved would be an internal failure.
    next hsolved =>
    unfold Solution.isUnsolved at hhead
    split at hhead
    · next a scope hfind => exact (hsolved a scope hfind).elim
    · cases hhead

end PatternSpine

namespace Solver

theorem cannotUnify_keeps {α : Type} {Q : α → Prop} {l r : Value} (hl : S.value l)
    (hr : S.value r) :
    (cannotUnify n ctx l r).Ends S.toDiscipline Q :=
  .bind (.reify hl) fun _ _ => .bind (.reify hr) fun _ _ => .told rfl

/-- Nothing is solved between finding a spine and solving its head. -/
theorem solvePattern_keeps (hs : S.solution s) (hctx : S.context ctx) {p : PatternSpine}
    (hp : p.Keeps S ∧ s.isUnsolved p.head) {v : Value} (hv : S.value v) :
    (solvePattern n ctx p v).EndsFrom S.toDiscipline s fun _ => True :=
  .bind (.judging hs (PatternSpine.solve_keeps n hs hctx hp.1 hp.2 hv)) fun _ hs => .set hs

theorem isFunction_keeps {a : Value} (ha : S.value a) :
    (isFunction n a).Ends S.toDiscipline fun _ => True := by
  refine .bind (.force ha) fun a _ => ?_
  split <;> exact .pure True.intro

end Solver

theorem Value.resultType_keeps (n : Nat) {a v : Value} (ha : S.value a) (hv : S.value v) :
    (a.resultType n v).Ends S.fault S.value := by
  unfold Value.resultType
  split
  · exact S.computing.apply n (S.values.pi ha).2.2 hv
  · exact .pure S.values.type

structure UnifiesKeeping (S : Standard) (n : Nat) : Prop where
  value {ctx : Context} {a l r : Value} : S.context ctx → S.value a → S.value l → S.value r →
    (unify n ctx a l r).Ends S.toDiscipline fun _ => True
  forms {ctx : Context} {a l r : Value} : S.context ctx → S.value a → S.value l → S.value r →
    (unifyForms n ctx a l r).Ends S.toDiscipline fun _ => True
  binders {ctx : Context} {a a' : Value} {b b' : Closure} : S.context ctx → S.value a →
    S.value a' → S.closure b →
    S.closure b' → (unifyBinders n ctx a a' b b').Ends S.toDiscipline fun _ => True
  spines {ctx : Context} {l r : Neutral} : S.context ctx → S.spine l → S.spine r →
    (unifyNeutrals n ctx l r).Ends S.toDiscipline fun _ => True
  chains {ctx : Context} {l r : Chain} : S.context ctx → S.chain l → S.chain r →
    (unifyChains n ctx l r).Ends S.toDiscipline fun _ => True

namespace UnifiesKeeping

variable {a l r : Value}

theorem value_succ (ih : UnifiesKeeping S n) (hctx : S.context ctx) (ha : S.value a)
    (hl : S.value l) (hr : S.value r) :
    (unify (n + 1) ctx a l r).Ends S.toDiscipline fun _ => True := by
  unfold unify
  refine .bind (.force ha) fun a ha => .bind (.force hl) fun l hl =>
    .bind (.force hr) fun r hr => ?_
  -- The solution is fixed from here on: a head that is unsolved when its spine is found is so when
  -- it is solved.
  refine .get_bind fun s hs => ?_
  split
  · next p q hp hq =>
    have hp := Value.patternSpine_keeps hl hp
    have hq := Value.patternSpine_keeps hr hq
    refine .lift_bind (PatternSpine.same_keeps n ctx hs hp.1 hq.1) fun same _ => ?_
    split
    · exact .pure hs True.intro
    · exact Solver.solvePattern_keeps hs hctx hp hr
  · next p hp _ => exact Solver.solvePattern_keeps hs hctx (Value.patternSpine_keeps hl hp) hr
  · next q _ hq => exact Solver.solvePattern_keeps hs hctx (Value.patternSpine_keeps hr hq) hl
  · exact ih.forms hctx ha hl hr s hs

/-- Functions are compared by what they give for a new parameter. -/
theorem results (ih : UnifiesKeeping S n) (hctx : S.context ctx) (ha : S.value a) {c : Value}
    (hc : S.value c) (x : Name) {f g : Value → Eval Value}
    (hf : ∀ v, S.value v → (f v).Ends S.fault S.value)
    (hg : ∀ v, S.value v → (g v).Ends S.fault S.value) :
    Solver.Ends S.toDiscipline (do
      let (ctx, v) ← Solver.witness ctx x c
      let b ← a.resultType n v
      let l ← f v
      let r ← g v
      unify n ctx b l r) fun _ => True := by
  refine .bind (.witness hctx hc x) fun ⟨ctx, v⟩ ⟨hctx, hv⟩ => ?_
  refine .bind (.lift (Value.resultType_keeps n ha hv)) fun b hb => ?_
  exact .bind (.lift (hf v hv)) fun l hl => .bind (.lift (hg v hv)) fun r hr =>
    ih.value hctx hb hl hr

/-- Objects are compared field by field. The questions that their class asks are put to an
object. -/
theorem fields (ih : UnifiesKeeping S n) (hctx : S.context ctx) (ha : S.value a)
    {fs gs : List (Name × Value)} (hl : S.value (.object fs)) (hr : S.value (.object gs)) :
    Solver.Ends S.toDiscipline (fs.forM fun (label, x) => do
      match gs.lookup label with
      | none => Solver.cannotUnify n ctx (.object fs) (.object gs)
      | some y =>
        let b : Option Value ← match a with
          | .classOf c => (c.typeOf n (.object fs) label : Eval (Option Value))
          | _ => pure none
        match b with
        | some b => unify n ctx b x y
        | none => do
          let t ← Solver.reify n ctx x
          let u ← Solver.reify n ctx y
          if t.alphaEquivalent u then pure ()
          else Solver.cannotUnify n ctx (.object fs) (.object gs)) fun _ => True := by
  refine .forM fun ⟨label, x⟩ hx => ?_
  dsimp only
  cases hy : gs.lookup label with
  | none => exact Solver.cannotUnify_keeps hl hr
  | some y =>
    have hx : S.value x := (S.values.object hl).2 _ hx
    have hy : S.value y := (S.values.object hr).2 _ (mem_of_lookup hy)
    have hcompare (b : Option Value) (hb : ∀ c ∈ b, S.value c) :
        Solver.Ends S.toDiscipline (match b with
        | some b => unify n ctx b x y
        | none => do
          let t ← Solver.reify n ctx x
          let u ← Solver.reify n ctx y
          if t.alphaEquivalent u then pure ()
          else Solver.cannotUnify n ctx (.object fs) (.object gs)) fun _ => True := by
      cases b with
      | some b => exact ih.value hctx (hb b rfl) hx hy
      | none =>
        refine .bind (.reify hx) fun t _ => .bind (.reify hy) fun u _ => ?_
        split
        · exact .pure True.intro
        · exact Solver.cannotUnify_keeps hl hr
    cases a with
    | classOf c =>
      exact .bind (.lift (S.computing.typeOf_object n label (S.values.classOf.1 ha) hl)) hcompare
    | _ => exact .bind (.pure (by simp)) hcompare

theorem forms_succ (ih : UnifiesKeeping S n) (hctx : S.context ctx) (ha : S.value a)
    (hl : S.value l) (hr : S.value r) :
    (unifyForms (n + 1) ctx a l r).Ends S.toDiscipline fun _ => True := by
  have hcannot : (Solver.cannotUnify n ctx l r : Solver Unit).Ends S.toDiscipline fun _ => True :=
    Solver.cannotUnify_keeps hl hr
  unfold unifyForms
  split
  · exact .pure True.intro
  · exact .pure True.intro
  · exact .pure True.intro
  · exact .pure True.intro
  · split
    · exact .pure True.intro
    · exact hcannot
  · obtain ⟨-, hc, hd⟩ := S.values.pi hl
    obtain ⟨-, hc', hd'⟩ := S.values.pi hr
    split
    · exact ih.binders hctx hc hc' hd hd'
    · exact hcannot
  · obtain ⟨hc, hd⟩ := S.values.sigma hl
    obtain ⟨hc', hd'⟩ := S.values.sigma hr
    exact ih.binders hctx hc hc' hd hd'
  · obtain ⟨-, hc, hf⟩ := S.values.fn hl
    obtain ⟨-, -, hg⟩ := S.values.fn hr
    split
    · exact ih.results hctx ha hc _ (fun _ => S.computing.apply n hf) fun _ =>
        S.computing.apply n hg
    · exact hcannot
  · -- The stuck side is applied as well: a written function may be applied, whichever it is.
    obtain ⟨happlied, hc, hf⟩ := S.values.fn hl
    refine .bind (Solver.isFunction_keeps (S.values.neutral hr).1) fun isFunction _ => ?_
    split
    · exact ih.results hctx ha hc _ (fun _ => S.computing.apply n hf) fun _ =>
        S.computing.app n happlied hr
    · exact hcannot
  · obtain ⟨happlied, hc, hg⟩ := S.values.fn hr
    refine .bind (Solver.isFunction_keeps (S.values.neutral hl).1) fun isFunction _ => ?_
    split
    · exact ih.results hctx ha hc _ (fun _ => S.computing.app n happlied hl) fun _ =>
        S.computing.apply n hg
    · exact hcannot
  · obtain ⟨hx, hy⟩ := S.values.cons hl
    obtain ⟨hx', hy'⟩ := S.values.cons hr
    split
    · obtain ⟨hc, hd⟩ := S.values.sigma ha
      refine .bind (ih.value hctx hc hx hx') fun _ _ => ?_
      exact .bind (.apply hd hx) fun d hd => ih.value hctx hd hy hy'
    · exact hcannot
  · obtain ⟨hc, hx, hy⟩ := S.values.equal.1 hl
    obtain ⟨hc', hx', hy'⟩ := S.values.equal.1 hr
    refine .bind (ih.value hctx S.values.type hc hc') fun _ _ => ?_
    exact .bind (ih.value hctx hc hx hx') fun _ _ => ih.value hctx hc hy hy'
  · split
    · exact ih.value hctx (S.values.equal.1 ha).1 (S.values.same hl) (S.values.same hr)
    · exact hcannot
  · refine .bind (ih.chains hctx (S.values.classOf.1 hl) (S.values.classOf.1 hr)) fun same _ => ?_
    split
    · exact .pure True.intro
    · exact hcannot
  · split
    · exact ih.fields hctx ha hl hr
    · exact hcannot
  · refine .bind (ih.spines hctx (S.values.neutral hl).2 (S.values.neutral hr).2) fun same _ => ?_
    split
    · exact .pure True.intro
    · exact hcannot
  · exact hcannot

theorem binders_succ (ih : UnifiesKeeping S n) {a a' : Value} {b b' : Closure}
    (hctx : S.context ctx) (ha : S.value a) (ha' : S.value a') (hb : S.closure b)
    (hb' : S.closure b') :
    (unifyBinders (n + 1) ctx a a' b b').Ends S.toDiscipline fun _ => True := by
  unfold unifyBinders
  refine .bind (ih.value hctx S.values.type ha ha') fun _ _ => ?_
  refine .bind (.witness hctx ha _) fun ⟨ctx, v⟩ ⟨hctx, hv⟩ => ?_
  exact .bind (.apply hb hv) fun b hb => .bind (.apply hb' hv) fun b' hb' =>
    ih.value hctx S.values.type hb hb'

theorem spines_succ (ih : UnifiesKeeping S n) {l r : Neutral} (hctx : S.context ctx)
    (hl : S.spine l) (hr : S.spine r) :
    (unifyNeutrals (n + 1) ctx l r).Ends S.toDiscipline fun _ => True := by
  unfold unifyNeutrals
  split
  · exact .pure True.intro
  · obtain ⟨-, hf, ha, hx⟩ := S.values.app hl
    obtain ⟨-, hg, -, hy⟩ := S.values.app hr
    split
    · refine .bind (ih.spines hctx hf hg) fun same _ => ?_
      split
      · exact .bind (ih.value hctx ha hx hy) fun _ _ => .pure True.intro
      · exact .pure True.intro
    · exact .pure True.intro
  · exact ih.spines hctx (S.values.car hl).2 (S.values.car hr).2
  · exact ih.spines hctx (S.values.cdr hl).2 (S.values.cdr hr).2
  · split
    · exact ih.spines hctx (S.values.dot hl).2 (S.values.dot hr).2
    · exact .pure True.intro
  · exact .pure True.intro

theorem chains_succ (ih : UnifiesKeeping S n) {l r : Chain} (hctx : S.context ctx) (hl : S.chain l)
    (hr : S.chain r) : (unifyChains (n + 1) ctx l r).Ends S.toDiscipline fun _ => True := by
  unfold unifyChains
  split
  · exact .pure True.intro
  · have ha := (S.values.declared hl).2
    split
    · refine .bind (ih.value hctx S.values.type ha (S.values.declared hr).2) fun _ _ => ?_
      refine .bind (.witness hctx ha _) fun ⟨ctx, v⟩ ⟨hctx, hv⟩ => ?_
      exact .bind (.rest hl hv) fun c hc => .bind (.rest hr hv) fun d hd => ih.chains hctx hc.1 hd.1
    · exact .pure True.intro
  · obtain ⟨-, ha, hx, hc⟩ := S.values.fulfilled.1 hl
    obtain ⟨-, hb, hy, hd⟩ := S.values.fulfilled.1 hr
    split
    · refine .bind (ih.value hctx S.values.type ha hb) fun _ _ => ?_
      exact .bind (ih.value hctx ha hx hy) fun _ _ => ih.chains hctx hc hd
    · exact .pure True.intro
  · exact .pure True.intro

theorem zero (S : Standard) : UnifiesKeeping S 0 where
  value _ _ _ _ := by rw [unify]; exact .outOfFuel
  forms _ _ _ _ := by rw [unifyForms]; exact .outOfFuel
  binders _ _ _ _ _ := by rw [unifyBinders]; exact .outOfFuel
  spines _ _ _ := by rw [unifyNeutrals]; exact .outOfFuel
  chains _ _ _ := by rw [unifyChains]; exact .outOfFuel

theorem all (S : Standard) (n : Nat) : UnifiesKeeping S n := by
  induction n with
  | zero => exact zero S
  | succ n ih =>
    exact ⟨ih.value_succ, ih.forms_succ, ih.binders_succ, ih.spines_succ, ih.chains_succ⟩

end UnifiesKeeping

theorem unify_keeps (n : Nat) (hctx : S.context ctx) {a l r : Value} (ha : S.value a)
    (hl : S.value l) (hr : S.value r) : (unify n ctx a l r).Ends S.toDiscipline fun _ => True :=
  (UnifiesKeeping.all S n).value hctx ha hl hr

end

end DependentClasses
