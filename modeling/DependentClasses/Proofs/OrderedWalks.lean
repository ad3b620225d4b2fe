import DependentClasses.Proofs.ClassWalks
import DependentClasses.Proofs.Endings
import DependentClasses.Proofs.Subtyping
import DependentClasses.Proofs.WrittenClasses

/-! The walk along two classes whose common properties stand in the same order. Where the walk looks
for a property, what is left of the narrower class still has it, whatever values the properties
before it have taken; so the walk need not say what happens if a property cannot be found. -/
namespace DependentClasses

namespace Chain

section

variable {among labels : List Name}

theorem places_filter : places among (labels.filter (· ∈ among)) = places among labels := by
  unfold places
  rw [List.filterMap_filter]
  congr 1
  funext k
  by_cases hk : k ∈ among
  · simp [hk]
  · simp only [hk, decide_false, Bool.false_eq_true, if_false]
    exact (List.findIdx?_eq_none_iff.2 fun j hj => by
      simpa using fun heq : j = k => hk (heq ▸ hj)).symm

/-- In a list without repetitions every label stands at its own place. -/
theorem pairwise_places_self (hamong : among.Nodup) : (places among among).Pairwise (· < ·) := by
  have hplace (i : Nat) (hi : i < among.length) : among.findIdx? (· = among[i]) = some i := by
    refine List.findIdx?_eq_some_iff_getElem.2 ⟨hi, by simp, fun j hj => ?_⟩
    simpa using fun heq => hj.ne (hamong.getElem_inj_iff.1 heq)
  refine List.pairwise_filterMap.2 (List.pairwise_iff_getElem.2 fun i j hi hj hij => ?_)
  rw [hplace i hi, hplace j hj]
  simpa using hij

/-- Labels stand at ascending places exactly if those that occur do so in the same order. -/
theorem ascending_places_iff (labels : List Name) (hamong : among.Nodup) :
    ascending (places among labels) ↔ (labels.filter (· ∈ among)).Sublist among := by
  constructor
  · intro h
    refine sublist_of_ascending (fun k hk => ?_) (places_filter.symm ▸ h)
    simpa using (List.mem_filter.1 hk).2
  · intro h
    rw [ascending_iff_pairwise, ← places_filter]
    exact (pairwise_places_self hamong).sublist (h.filterMap _)

end

/-- Looking for a property that is there finds it, and leaves all that comes after it. -/
theorem seek_sublist {n : Nat} {s : Solution} {ctx : Context} {label : Name} {c : Chain}
    {r : Context × Chain} {labels : List Name} (h : c.seek n s ctx label = .ok r)
    (hc : c.WrittenOut) (hlabels : (label :: labels).Sublist c.classLabels) :
    r.2.WrittenOut ∧ ∃ more, r.2.classLabels = label :: more ∧ labels.Sublist more := by
  induction n generalizing ctx c with
  | zero => simp [seek] at h
  | succ n ih =>
    cases c with
    | nil => simp [classLabels] at hlabels
    | declared k a rest =>
      by_cases hk : k = label
      · rw [seek, if_pos hk, Eval.pure_eq_ok] at h
        subst h hk
        exact ⟨hc, _, rfl, List.cons_sublist_cons.1 hlabels⟩
      · rw [seek, if_neg hk] at h
        simp only [Eval.bind_eq_ok] at h
        obtain ⟨d, hd, h⟩ := h
        have hwritten := rest.applyChain_outlines hd hc
        refine ih h hwritten.chain (hwritten.labels ▸ ?_)
        exact List.Sublist.of_cons_of_ne (Ne.symm hk) hlabels
    | fulfilled k a v rest =>
      by_cases hk : k = label
      · rw [seek, if_pos hk, Eval.pure_eq_ok] at h
        subst h hk
        exact ⟨hc, _, rfl, List.cons_sublist_cons.1 hlabels⟩
      · rw [seek, if_neg hk] at h
        exact ih h hc (List.Sublist.of_cons_of_ne (Ne.symm hk) hlabels)

end Chain

/-- The walk along two classes at once, with an answer of its own for a property that it cannot
find. -/
def includeInStepOr (lost : Name → Solver Unit) : Nat → Context → Chain → Chain → Solver Unit
  | 0 => fun _ _ _ => Solver.outOfFuel
  | n + 1 => includeNext lost n (inclusion n) (includeInStepOr lost n)

def includeOrderedOr (lost : Name → Solver Unit) (n : Nat) (ctx : Context) (sub super : Chain) :
    Solver Unit :=
  match n with
  | 0 => Solver.outOfFuel
  | n + 1 => includeIfCovered n sub super (includeInStepOr lost n ctx sub super)

theorem includeInStepOr_refuse (n : Nat) :
    includeInStepOr (fun label => refuse (.propertyNotFound label)) n = includeInStep n := by
  induction n with
  | zero =>
    funext ctx sub super
    rw [includeInStepOr, includeInStep]
  | succ n ih =>
    funext ctx sub super
    rw [includeInStepOr, includeInStep, ih]

theorem includeOrderedOr_refuse (n : Nat) (ctx : Context) (sub super : Chain) :
    includeOrderedOr (fun label => refuse (.propertyNotFound label)) n ctx sub super =
      includeOrdered n ctx sub super := by
  cases n with
  | zero => rw [includeOrderedOr, includeOrdered]
  | succ n => rw [includeOrderedOr, includeOrdered, includeInStepOr_refuse]

/-- A walk whose properties stand in the narrower class in their order finds every one of them. -/
theorem includeInStepOr_eq (lost lost' : Name → Solver Unit) (n : Nat) (ctx : Context)
    {sub super : Chain} (hsub : sub.WrittenOut) (hsuper : super.WrittenOut)
    (hlabels : super.classLabels.Sublist sub.classLabels) :
    includeInStepOr lost n ctx sub super = includeInStepOr lost' n ctx sub super := by
  induction n generalizing ctx sub super with
  | zero => rfl
  | succ n ih =>
    cases super with
    | nil => rfl
    | declared label a rest =>
      simp only [includeInStepOr, includeNext]
      refine Solver.bind_congr_of_yields fun s r s' hr => ?_
      obtain ⟨hwritten, more, hmore, hlater⟩ :=
        Chain.seek_sublist (Solver.yields_reading.1 hr).1 hsub hlabels
      obtain ⟨inner, found⟩ := r
      cases found with
      | nil => simp [Chain.classLabels] at hmore
      | declared _ b subRest =>
        cases hmore
        refine bind_congr fun _ => bind_congr fun w => ?_
        refine Solver.lift_bind_congr fun c hc => Solver.lift_bind_congr fun d hd => ?_
        have hc := subRest.applyChain_outlines hc hwritten
        have hd := rest.applyChain_outlines hd hsuper
        exact ih w.1 hc.chain hd.chain (hc.labels ▸ hd.labels ▸ hlater)
      | fulfilled _ b v sub =>
        cases hmore
        refine bind_congr fun _ => bind_congr fun _ => bind_congr fun _ => bind_congr fun _ => ?_
        refine Solver.lift_bind_congr fun d hd => ?_
        have hd := rest.applyChain_outlines hd hsuper
        exact ih inner hwritten hd.chain (hd.labels ▸ hlater)
    | fulfilled label a w rest =>
      simp only [includeInStepOr, includeNext]
      refine Solver.bind_congr_of_yields fun s r s' hr => ?_
      obtain ⟨hwritten, more, hmore, hlater⟩ :=
        Chain.seek_sublist (Solver.yields_reading.1 hr).1 hsub hlabels
      obtain ⟨inner, found⟩ := r
      cases found with
      | nil => simp [Chain.classLabels] at hmore
      | declared => rfl
      | fulfilled _ b v sub =>
        cases hmore
        exact bind_congr fun _ => ih inner hwritten hsuper hlater

/-- Refusals that a walk does not leave to the comparison of two properties: none is for want of a
property. -/
def neverLost : Discipline :=
  ⟨fun _ => True, fun _ => True, fun f => f.trace = [] → ∀ label, f.cause ≠ .propertyNotFound label⟩

namespace NeverLost

variable {α : Type}

theorem lift (e : Eval α) : Solver.Ends neverLost (liftM e) fun _ => True := by
  refine .lift ?_
  rcases e with (_ | _) | _ <;> exact True.intro

theorem reading (g : Solution → Eval α) : Solver.Ends neverLost (Solver.reading g) fun _ => True :=
  .bind .get fun s _ => lift (g s)

theorem witness (ctx : Context) (x : Name) (a : Value) :
    Solver.Ends neverLost (Solver.witness ctx x a) fun _ => True :=
  .bind .get fun _ _ => .pure True.intro

theorem create (ctx : Context) (x : Name) (a : Value) :
    Solver.Ends neverLost (Solver.create ctx x a) fun _ => True :=
  fun _ _ => ⟨True.intro, True.intro⟩

/-- What is refused within a property has that property in its trace. -/
theorem within (label : Name) (x : Solver α) :
    Solver.Ends neverLost (Solver.within (.property label) x) fun _ => True := by
  intro s _
  change Eval.Ends (fun _ => True)
    ((Except.mapError (Failure.within (.property label)) <$> x.run).run s) _
  rw [StateT.run_map]
  rcases x.run.run s with (_ | _) | r
  · exact True.intro
  · exact True.intro
  · obtain ⟨r, s'⟩ := r
    cases r with
    | error f =>
      refine ⟨True.intro, fun htrace => ?_⟩
      simp [Failure.within] at htrace
    | ok a => exact ⟨True.intro, True.intro⟩

theorem includeInStepOr {lost : Name → Solver Unit}
    (hlost : ∀ label, (lost label).Ends neverLost fun _ => True) (n : Nat) (ctx : Context)
    (sub super : Chain) : (includeInStepOr lost n ctx sub super).Ends neverLost fun _ => True := by
  induction n generalizing ctx sub super with
  | zero => exact .outOfFuel
  | succ n ih =>
    cases super with
    | nil => exact .pure True.intro
    | declared label a rest =>
      refine .bind (reading _) fun r _ => ?_
      obtain ⟨inner, found⟩ := r
      cases found with
      | nil => exact hlost label
      | declared _ b subRest =>
        refine .bind (within label _) fun _ _ => .bind (witness inner _ b) fun w _ => ?_
        exact .bind (lift _) fun c _ => .bind (lift _) fun d _ => ih w.1 c d
      | fulfilled _ b v sub =>
        refine .bind (within label _) fun _ _ => .bind (.freshName label) fun x _ =>
          .bind (create inner x b) fun var _ => ?_
        exact .bind (within label _) fun _ _ => .bind (lift _) fun d _ => ih inner sub d
    | fulfilled label a w rest =>
      refine .bind (reading _) fun r _ => ?_
      obtain ⟨inner, found⟩ := r
      cases found with
      | nil => exact hlost label
      | declared => exact .refuse fun _ _ => Cause.noConfusion
      | fulfilled _ b v sub => exact .bind (within label _) fun _ _ => ih inner sub rest

theorem includeOrderedOr {lost : Name → Solver Unit}
    (hlost : ∀ label, (lost label).Ends neverLost fun _ => True) (n : Nat) (ctx : Context)
    (sub super : Chain) : (includeOrderedOr lost n ctx sub super).Ends neverLost fun _ => True := by
  cases n with
  | zero => exact .outOfFuel
  | succ n =>
    refine .bind (lift _) fun among _ => .bind (lift _) fun labels _ => ?_
    dsimp only
    split
    · exact includeInStepOr hlost n ctx sub super
    · exact .refuse fun _ _ => Cause.noConfusion

end NeverLost

namespace Chain

variable {sub super : Chain}

/-- Whether two classes are in the same order can be told from the labels that are written. -/
theorem isOrdered_eq {n : Nat} {ordered : Bool} (h : sub.isOrdered n super = .ok ordered)
    (hsub : sub.WrittenOut) (hsuper : super.WrittenOut) :
    ordered = ascending (places sub.classLabels super.classLabels) := by
  simp only [isOrdered, Eval.bind_eq_ok, Eval.pure_eq_ok] at h
  obtain ⟨among, hamong, labels, hlabels, rfl⟩ := h
  rw [labels_eq_classLabels hamong hsub, labels_eq_classLabels hlabels hsuper]

theorem exists_isOrdered {i j : Nat} {among labels : List Name} (hamong : sub.labels i = .ok among)
    (hlabels : super.labels j = .ok labels) :
    ∃ n, sub.isOrdered n super = .ok (ascending (places among labels)) := by
  obtain ⟨n, hamong, hlabels⟩ := ((Eval.eventually_ok (fun n => sub.labels_grows n) hamong).and
    (Eval.eventually_ok (fun n => super.labels_grows n) hlabels)).exists
  exact ⟨n, Eval.bind_eq_ok.2 ⟨_, hamong, Eval.bind_eq_ok.2 ⟨_, hlabels, rfl⟩⟩⟩

end Chain

/-- In classes in the same order the walk meets no property that it cannot find. -/
theorem includeOrderedOr_eq (lost : Name → Solver Unit) (n : Nat) (ctx : Context)
    {sub super : Chain} (hsub : sub.WrittenOut) (hsuper : super.WrittenOut)
    (hordered : (super.classLabels.filter (· ∈ sub.classLabels)).Sublist sub.classLabels) :
    includeOrderedOr lost n ctx sub super = includeOrdered n ctx sub super := by
  rw [← includeOrderedOr_refuse]
  cases n with
  | zero => rfl
  | succ n =>
    refine Solver.lift_bind_congr fun among hamong =>
      Solver.lift_bind_congr fun labels hlabels => ?_
    cases Chain.labels_eq_classLabels hamong hsub
    cases Chain.labels_eq_classLabels hlabels hsuper
    dsimp only
    split
    · next hmissing =>
      have hall : super.classLabels.filter (· ∈ sub.classLabels) = super.classLabels := by
        simpa [List.filter_eq_self] using hmissing
      exact includeInStepOr_eq _ _ n ctx hsub hsuper (hall ▸ hordered)
    · rfl

/-- Classes are compared in step exactly if their common labels stand in the same order in both.
Then the walk finds every property that it looks for: what it would do without one makes no
difference, and no refusal of its own says that a property was not found. -/
theorem ordered_walk_finds_every_property {sub super : Chain} (hsub : sub.WrittenOut)
    (hsuper : super.WrittenOut) {i j : Nat} {among labels : List Name}
    (hamong : sub.labels i = .ok among) (hlabels : super.labels j = .ok labels)
    (hdistinct : among.Nodup) :
    (∀ ordered, (∃ n, sub.isOrdered n super = .ok ordered) ↔
      ordered = decide ((labels.filter (· ∈ among)).Sublist among)) ∧
    ((∃ n, sub.isOrdered n super = .ok true) → ∀ n ctx,
      (∀ lost, includeOrderedOr lost n ctx sub super = includeOrdered n ctx sub super) ∧
      ∀ s f s', (includeOrdered n ctx sub super).run.run s = .ok (.error f, s') → f.trace = [] →
        ∀ label, f.cause ≠ .propertyNotFound label) := by
  have hexists := Chain.exists_isOrdered hamong hlabels
  cases Chain.labels_eq_classLabels hamong hsub
  cases Chain.labels_eq_classLabels hlabels hsuper
  have hiff := Chain.ascending_places_iff super.classLabels hdistinct
  refine ⟨fun ordered => ⟨?_, ?_⟩, ?_⟩
  · rintro ⟨n, h⟩
    rw [Chain.isOrdered_eq h hsub hsuper, Bool.eq_iff_iff, decide_eq_true_iff]
    exact hiff
  · rintro rfl
    obtain ⟨n, h⟩ := hexists
    exact ⟨n, h.trans (congrArg _ (by rw [Bool.eq_iff_iff, decide_eq_true_iff]; exact hiff))⟩
  · rintro ⟨m, hm⟩ n ctx
    have hordered := hiff.1 (Chain.isOrdered_eq hm hsub hsuper).symm
    refine ⟨fun lost => includeOrderedOr_eq lost n ctx hsub hsuper hordered, fun s f s' hf => ?_⟩
    rw [← includeOrderedOr_eq (fun _ => pure ()) n ctx hsub hsuper hordered] at hf
    exact ((NeverLost.includeOrderedOr (fun _ => .pure True.intro) n ctx sub super) s
      True.intro).of_refused hf |>.2

namespace SharedOrder

def A : Name := ⟨"A", 0⟩
def b : Name := ⟨"b", 0⟩
def x : Name := ⟨"x", 0⟩

def narrow : Chain :=
  .declared b .string ⟨[], b, .fulfilled A A .type .string (.declared x x (.var A) .emptyClass)⟩

def wide : Chain := .declared A .type ⟨[], A, .declared x x (.var A) .emptyClass⟩

end SharedOrder

open SharedOrder in
theorem ordered_walk_takes_values :
    narrow.labels 9 = .ok [b, A, x] ∧ wide.labels 9 = .ok [A, x] ∧
      (∃ n, narrow.isOrdered n wide = .ok true) ∧
      (includeOrdered 20 [] narrow wide).succeeds {} ∧
      includeOrderedOr (fun _ => pure ()) 20 [] narrow wide = includeOrdered 20 [] narrow wide := by
  have hwritten : narrow.WrittenOut ∧ wide.WrittenOut := ⟨True.intro, True.intro⟩
  have hnarrow : narrow.labels 9 = .ok [b, A, x] := rfl
  have hwide : wide.labels 9 = .ok [A, x] := rfl
  obtain ⟨hordered, hwalk⟩ :=
    ordered_walk_finds_every_property hwritten.1 hwritten.2 hnarrow hwide (by decide)
  have hshared : ∃ n, narrow.isOrdered n wide = .ok true := (hordered true).2 (by decide)
  exact ⟨hnarrow, hwide, hshared, by decide +kernel, (hwalk hshared 20 []).1 _⟩

end DependentClasses
