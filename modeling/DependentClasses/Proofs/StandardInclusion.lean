import DependentClasses.Proofs.FreshNames
import DependentClasses.Proofs.StandardSolving

/-! Inclusion keeps to every standard. The fresh names for the properties of two classes are given
out along one walk through each class and asked for along another one, in which the fresh names
themselves stand for the properties. Where account is kept of labels, both walks meet the labels
that are written. -/
namespace DependentClasses

section

variable {S : Standard} {n : Nat} {ctx : Context}

structure Property.Keeps (S : Standard) (p : Property) : Prop where
  type : S.value p.type
  value : ∀ v ∈ p.value, S.value v

namespace Property

variable {images : List (Name × Name)}

/-- That a property has no fresh name is an internal failure. -/
theorem image_keeps {label : Name} (h : S.labelled → (images.lookup label).isSome) :
    (image images label).Ends S.toDiscipline fun _ => True := by
  unfold image
  split
  · exact .pure True.intro
  · next hnone =>
    refine .refuse (S.refusals.internal _ fun hlabelled => ?_)
    have hsome := h hlabelled
    rw [hnone] at hsome
    cases hsome

theorem bindAll_keeps : ∀ {ctx : Context} {ps : List (Name × Property)}, S.context ctx →
    (∀ p ∈ ps, p.2.Keeps S ∧ (S.labelled → (images.lookup p.1).isSome)) →
      (bindAll images ctx ps).Ends S.toDiscipline S.context
  | _, [], hctx, _ => .pure hctx
  | _, (label, p) :: ps, hctx, hps => by
    obtain ⟨⟨hp, himage⟩, hps⟩ := List.forall_mem_cons.1 hps
    unfold bindAll
    split
    · exact bindAll_keeps hctx hps
    · exact .bind (image_keeps himage) fun x _ => bindAll_keeps (S.scopes.bind x x hctx hp.type) hps

end Property

namespace Chain

variable {c : Chain}

/-- The properties of a class have the labels that are written in it. -/
theorem properties_keeps (n : Nat) {images : List (Name × Name)} (hc : S.chain c)
    (himages : S.labelled → ∀ k ∈ c.classLabels, (images.lookup k).isSome) :
    (c.properties n images).Ends S.toDiscipline
      fun ps => ∀ p ∈ ps, p.2.Keeps S ∧ (S.labelled → (images.lookup p.1).isSome) := by
  induction n generalizing c with
  | zero => rw [properties]; exact Verdict.Ends.lift .outOfFuel
  | succ n ih =>
    cases c with
    | nil => rw [properties]; exact .pure (by simp)
    | declared k a rest =>
      have ha := (S.values.declared hc).2
      have himage (hl : S.labelled) := (List.forall_mem_cons.1 (himages hl)).1
      rw [properties]
      refine .bind (Property.image_keeps himage) fun x _ => ?_
      refine .bind (.lift (S.computing.rest n hc (S.values.parameter x ha))) fun d hd => ?_
      refine .bind (ih hd.1 fun hl => hd.2 hl ▸ (List.forall_mem_cons.1 (himages hl)).2)
        fun more hmore => .pure ?_
      exact List.forall_mem_cons.2 ⟨⟨⟨ha, by simp⟩, himage⟩, hmore⟩
    | fulfilled k a v rest =>
      obtain ⟨-, ha, hv, hrest⟩ := S.values.fulfilled.1 hc
      rw [properties]
      refine .bind (ih hrest fun hl => (List.forall_mem_cons.1 (himages hl)).2)
        fun more hmore => .pure ?_
      exact List.forall_mem_cons.2
        ⟨⟨⟨ha, by simpa using hv⟩, fun hl => (List.forall_mem_cons.1 (himages hl)).1⟩, hmore⟩

theorem seek_keeps (n : Nat) (s : Solution) (label : Name) (hctx : S.context ctx) (hc : S.chain c) :
    (c.seek n s ctx label).Ends S.fault fun r => S.context r.1 ∧ S.chain r.2 := by
  induction n generalizing ctx c with
  | zero => rw [seek]; exact .outOfFuel
  | succ n ih =>
    cases c with
    | nil => rw [seek]; exact .pure ⟨hctx, hc⟩
    | declared k a rest =>
      rw [seek]
      split
      · exact .pure ⟨hctx, hc⟩
      · have ha := (S.values.declared hc).2
        refine .bind (S.computing.rest n hc (S.values.parameter _ ha)) fun d hd => ?_
        exact ih (S.scopes.bind _ _ hctx ha) hd.1
    | fulfilled k a v rest =>
      rw [seek]
      split
      · exact .pure ⟨hctx, hc⟩
      · exact ih hctx (S.values.fulfilled.1 hc).2.2.2

theorem isOrdered_keeps (n : Nat) {d : Chain} (hc : S.chain c) (hd : S.chain d) :
    (c.isOrdered n d).Ends S.fault fun _ => True :=
  .bind (S.labels n hc) fun _ _ => .bind (S.labels n hd) fun _ _ => .pure True.intro

end Chain

theorem includeEqual_keeps (n : Nat) (hctx : S.context ctx) {sub super : Value} (hsub : S.value sub)
    (hsuper : S.value super) :
    (includeEqual n ctx sub super).Ends S.toDiscipline fun _ => True := by
  unfold includeEqual
  refine .bind (.reify hsub) fun l _ => .bind (.reify hsuper) fun r _ => ?_
  split
  · exact .pure True.intro
  · refine .bind .get fun s _ => ?_
    split
    · exact .told rfl
    · exact unify_keeps n hctx S.values.type hsub hsuper

structure IncludesKeeping (S : Standard) (n : Nat) : Prop where
  types {ctx : Context} {sub super : Value} : S.context ctx → S.value sub → S.value super →
    (inclusion n ctx sub super).Ends S.toDiscipline fun _ => True
  forms {ctx : Context} {sub super : Value} : S.context ctx → S.value sub → S.value super →
    (includeForms n ctx sub super).Ends S.toDiscipline fun _ => True
  unordered {ctx : Context} {sub super : Chain} : S.context ctx → S.chain sub → S.chain super →
    (includeUnordered n ctx sub super).Ends S.toDiscipline fun _ => True
  property {ctx : Context} {images : List (Name × Name)} {label : Name}
    {p q : Property} : S.context ctx →
    (S.labelled → (images.lookup label).isSome) → p.Keeps S → q.Keeps S →
    (includeProperty n ctx images label p q).Ends S.toDiscipline fun _ => True
  ordered {ctx : Context} {sub super : Chain} : S.context ctx → S.chain sub → S.chain super →
    (includeOrdered n ctx sub super).Ends S.toDiscipline fun _ => True
  inStep {ctx : Context} {sub super : Chain} : S.context ctx → S.chain sub → S.chain super →
    (includeInStep n ctx sub super).Ends S.toDiscipline fun _ => True

namespace IncludesKeeping

theorem types_succ (ih : IncludesKeeping S n) {sub super : Value} (hctx : S.context ctx)
    (hsub : S.value sub) (hsuper : S.value super) :
    (inclusion (n + 1) ctx sub super).Ends S.toDiscipline fun _ => True := by
  unfold inclusion
  refine .bind (.force hsub) fun sub hsub => .bind (.force hsuper) fun super hsuper => ?_
  refine .tryCatch (ih.forms hctx hsub hsuper) fun f hf => ?_
  refine .bind (.reify hsub) fun l _ => .bind (.reify hsuper) fun r _ => ?_
  exact .throw (S.refusals.within _ hf)

/-- Types that bind a value are compared at one parameter. -/
theorem binders (ih : IncludesKeeping S n) (hctx : S.context ctx) {a : Value}
    (ha : S.value a) {b d : Closure} (hb : S.closure b) (hd : S.closure d) :
    Solver.Ends S.toDiscipline (do
      let (ctx, v) ← Solver.witness ctx b.x a
      let b ← b.apply n v
      let d ← d.apply n v
      inclusion n ctx b d) fun _ => True := by
  refine .bind (.witness hctx ha b.x) fun ⟨ctx, v⟩ ⟨hctx, hv⟩ => ?_
  exact .bind (.apply hb hv) fun b hb => .bind (.apply hd hv) fun d hd => ih.types hctx hb hd

theorem forms_succ (ih : IncludesKeeping S n) {sub super : Value} (hctx : S.context ctx)
    (hsub : S.value sub) (hsuper : S.value super) :
    (includeForms (n + 1) ctx sub super).Ends S.toDiscipline fun _ => True := by
  have hequal := includeEqual_keeps n hctx hsub hsuper
  unfold includeForms
  refine .bind .get fun s _ => ?_
  split
  · exact unify_keeps n hctx S.values.type hsub hsuper
  · split
    · obtain ⟨-, ha, hb⟩ := S.values.pi hsub
      obtain ⟨-, hc, hd⟩ := S.values.pi hsuper
      split
      · exact .bind (ih.types hctx hc ha) fun _ _ => ih.binders hctx ha hb hd
      · exact hequal
    · obtain ⟨ha, hb⟩ := S.values.sigma hsub
      obtain ⟨hc, hd⟩ := S.values.sigma hsuper
      exact .bind (ih.types hctx ha hc) fun _ _ => ih.binders hctx ha hb hd
    · have hc := S.values.classOf.1 hsub
      have hd := S.values.classOf.1 hsuper
      refine .bind (.lift (Chain.isOrdered_keeps n hc hd)) fun ordered _ => ?_
      split
      · exact ih.ordered hctx hc hd
      · exact ih.unordered hctx hc hd
    · obtain ⟨ha, hl, hr⟩ := S.values.equal.1 hsub
      obtain ⟨hb, hl', hr'⟩ := S.values.equal.1 hsuper
      refine .bind (ih.types hctx ha hb) fun _ _ => ?_
      exact .bind (convert_keeps n ctx hb hl hl') fun _ _ => convert_keeps n ctx hb hr hr'
    · exact hequal

theorem unordered_succ (ih : IncludesKeeping S n) {sub super : Chain} (hctx : S.context ctx)
    (hsub : S.chain sub) (hsuper : S.chain super) :
    (includeUnordered (n + 1) ctx sub super).Ends S.toDiscipline fun _ => True := by
  unfold includeUnordered
  refine .bind (.lift (S.labels n hsub)) fun among hamong => ?_
  refine .bind (.lift (S.labels n hsuper)) fun labels hlabels => ?_
  refine .bind .get fun s hs => ?_
  -- The walks below ask for names of labels that are written in one of the classes, and those are
  -- all in the table.
  have himages {k : Name} (hk : k ∈ among ++ labels) :
      ((Name.freshImages (s.usedNames ctx) (among ++ labels)).lookup k).isSome := by
    obtain ⟨x, hx⟩ := Name.exists_freshImage hk
    exact Option.isSome_iff_exists.2 ⟨x, hx⟩
  dsimp only
  refine .bind (.set (S.scopes.reserve _ hs)) fun _ _ => ?_
  refine .bind (.judging fun _ _ => Chain.properties_keeps n hsub fun hl k hk =>
    himages (List.mem_append_left _ (hamong hl ▸ hk))) fun ps hps => ?_
  refine .bind (.judging fun _ _ => Chain.properties_keeps n hsuper fun hl k hk =>
    himages (List.mem_append_right _ (hlabels hl ▸ hk))) fun qs hqs => ?_
  refine .bind (.judging fun _ _ => Property.bindAll_keeps hctx hps) fun ctx hctx => ?_
  refine .forM fun ⟨label, q⟩ hq => ?_
  dsimp only
  split
  · exact .told rfl
  · next p hp =>
    obtain ⟨hp, himage⟩ := hps _ (mem_of_lookup hp)
    exact .within (ih.property hctx himage hp (hqs _ hq).1) _

theorem property_succ (ih : IncludesKeeping S n) {images : List (Name × Name)} {label : Name}
    {p q : Property} (hctx : S.context ctx) (himage : S.labelled → (images.lookup label).isSome)
    (hp : p.Keeps S) (hq : q.Keeps S) :
    (includeProperty (n + 1) ctx images label p q).Ends S.toDiscipline fun _ => True := by
  unfold includeProperty
  refine .bind (ih.types hctx hp.type hq.type) fun _ _ => ?_
  split
  · next v w hv hw => exact unify_keeps n hctx hq.type (hq.value w hw) (hp.value v hv)
  · next v hv _ =>
    refine .bind (.judging fun _ _ => Property.image_keeps himage) fun x _ => ?_
    exact .bind (.create hp.type x) fun var hvar => unify_keeps n hctx hp.type hvar (hp.value v hv)
  · exact .told rfl
  · exact .pure True.intro

theorem ordered_succ (ih : IncludesKeeping S n) {sub super : Chain} (hctx : S.context ctx)
    (hsub : S.chain sub) (hsuper : S.chain super) :
    (includeOrdered (n + 1) ctx sub super).Ends S.toDiscipline fun _ => True := by
  unfold includeOrdered includeIfCovered
  refine .bind (.lift (S.labels n hsub)) fun among _ =>
    .bind (.lift (S.labels n hsuper)) fun labels _ => ?_
  dsimp only
  split
  · exact ih.inStep hctx hsub hsuper
  · exact .told rfl

theorem inStep_succ (ih : IncludesKeeping S n) {sub super : Chain} (hctx : S.context ctx)
    (hsub : S.chain sub) (hsuper : S.chain super) :
    (includeInStep (n + 1) ctx sub super).Ends S.toDiscipline fun _ => True := by
  have hseek (label : Name) : Solver.Ends S.toDiscipline
      (Solver.reading fun s => sub.seek n s ctx label)
      fun r => S.context r.1 ∧ S.chain r.2 :=
        .reading fun s _ => Chain.seek_keeps n s label hctx hsub
  unfold includeInStep includeNext
  cases super with
  | nil => exact .pure True.intro
  | declared label a rest =>
    have ha := (S.values.declared hsuper).2
    refine .bind (hseek label) fun ⟨ctx, found⟩ ⟨hctx, hfound⟩ => ?_
    cases found with
    | nil => exact .told rfl
    | declared k b subRest =>
      have hb := (S.values.declared hfound).2
      refine .bind (.within (ih.types hctx hb ha) _) fun _ _ => ?_
      refine .bind (.witness hctx hb _) fun ⟨ctx, v⟩ ⟨hctx, hv⟩ => ?_
      refine .bind (.rest hfound hv) fun sub hsub => ?_
      exact .bind (.rest hsuper hv) fun super hsuper => ih.inStep hctx hsub.1 hsuper.1
    | fulfilled k b v sub =>
      obtain ⟨-, hb, hv, hsub⟩ := S.values.fulfilled.1 hfound
      refine .bind (.within (ih.types hctx hb ha) _) fun _ _ =>
        .bind (.freshName label) fun x _ => ?_
      refine .bind (.create hb x) fun var hvar =>
        .bind (.within (unify_keeps n hctx hb hvar hv) _) fun _ _ => ?_
      exact .bind (.rest hsuper hv) fun super hsuper => ih.inStep hctx hsub hsuper.1
  | fulfilled label a w rest =>
    obtain ⟨-, ha, hw, hrest⟩ := S.values.fulfilled.1 hsuper
    refine .bind (hseek label) fun ⟨ctx, found⟩ ⟨hctx, hfound⟩ => ?_
    cases found with
    | nil => exact .told rfl
    | declared k b subRest => exact .told rfl
    | fulfilled k b v sub =>
      obtain ⟨-, hb, hv, hsub⟩ := S.values.fulfilled.1 hfound
      refine .bind (.within (.bind (ih.types hctx hb ha) fun _ _ => unify_keeps n hctx hb hw hv)
        _) fun _ _ => ?_
      exact ih.inStep hctx hsub hrest

theorem zero (S : Standard) : IncludesKeeping S 0 where
  types _ _ _ := by rw [inclusion]; exact .outOfFuel
  forms _ _ _ := by rw [includeForms]; exact .outOfFuel
  unordered _ _ _ := by rw [includeUnordered]; exact .outOfFuel
  property _ _ _ _ := by rw [includeProperty]; exact .outOfFuel
  ordered _ _ _ := by rw [includeOrdered]; exact .outOfFuel
  inStep _ _ _ := by rw [includeInStep]; exact .outOfFuel

theorem all (S : Standard) (n : Nat) : IncludesKeeping S n := by
  induction n with
  | zero => exact zero S
  | succ n ih =>
    exact ⟨ih.types_succ, ih.forms_succ, ih.unordered_succ, ih.property_succ,
      ih.ordered_succ, ih.inStep_succ⟩

end IncludesKeeping

theorem inclusion_keeps (n : Nat) (hctx : S.context ctx) {sub super : Value} (hsub : S.value sub)
    (hsuper : S.value super) : (inclusion n ctx sub super).Ends S.toDiscipline fun _ => True :=
  (IncludesKeeping.all S n).types hctx hsub hsuper

end

end DependentClasses
