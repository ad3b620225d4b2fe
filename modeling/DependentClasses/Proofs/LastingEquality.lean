import DependentClasses.Proofs.CodedReadings
import DependentClasses.Proofs.Persistence

/-! Equality of types while pattern variables go on being solved. Two types are compared by their
normal forms, but a normal form does not show the types that a stuck computation records, and a
class that fulfils a property decides what a selection of this property is. If no property that is
fulfilled is ever selected, then types that are equal stay equal. -/
namespace DependentClasses

open Code

/-- Only properties with a label in `F` are fulfilled, and none of these is selected. -/
structure Term.Separates (F : Name → Prop) (t : Term) : Prop where
  fulfilled : t.All (Part.FulfilledIn F)
  selected : (t.code free).Avoids F

structure Value.Separates (F : Name → Prop) (v : Value) : Prop where
  fulfilled : v.All (Part.FulfilledIn F)
  selected : (v.code free).Avoids F

/-- Nothing is selected by the type of an entry, which is only recorded. -/
def Context.Separates (F : Name → Prop) (ctx : Context) : Prop :=
  ctx.All (Part.FulfilledIn F) ∧ ∀ e ∈ ctx, ∀ v, e.value = some v → (v.code free).Avoids F

section

variable {F : Name → Prop} {s s' : Solution} {ctx : Context}

theorem Coding.avoids_under {η : Coding} (h : ∀ y, (η y).Avoids F) (x y : Name) :
    (η.under x y).Avoids F := by
  by_cases hx : y = x
  · rw [hx, under_self]
    trivial
  · rw [under_of_ne hx]
    exact (h y).rename _

theorem Coding.avoids_update {η : Coding} {c : Code} (h : ∀ y, (η y).Avoids F) (hc : c.Avoids F)
    (x y : Name) : (Function.update η x c y).Avoids F := by
  rw [Function.update_apply]
  split
  · exact hc
  · exact h y

mutual

/-- What a term selects does not depend on what names stand for. -/
theorem Term.avoids_code : (t : Term) → {η η' : Coding} → (t.code η).Avoids F →
    (∀ y, (η' y).Avoids F) → (t.code η').Avoids F
  | .var x, _, _, _, hη => hη x
  | .type, _, _, _, _ | .string, _, _, _, _ | .quote _, _, _, _, _ | .trivial, _, _, _, _
  | .sole, _, _, _, _ | .emptyClass, _, _, _, _ => True.intro
  | .pi _ x a b, _, _, h, hη | .fn _ x a b, _, _, h, hη | .sigma x a b, _, _, h, hη
  | .declared _ x a b, _, _, h, hη =>
    ⟨avoids_code a h.1 hη, avoids_code b (show (b.code _).Avoids F from h.2)
      (Coding.avoids_under hη x)⟩
  | .app _ a b, _, _, h, hη | .cons a b, _, _, h, hη => ⟨avoids_code a h.1 hη, avoids_code b h.2 hη⟩
  | .car a, _, _, h, hη | .cdr a, _, _, h, hη | .same a, _, _, h, hη =>
    avoids_code a (show (a.code _).Avoids F from h) hη
  | .dot a _, _, _, h, hη => ⟨h.1, avoids_code a h.2 hη⟩
  | .equal a l r, _, _, h, hη =>
    ⟨avoids_code a h.1 hη, avoids_code l h.2.1 hη, avoids_code r h.2.2 hη⟩
  | .fulfilled _ x a v b, _, _, h, hη =>
    have hvalue := avoids_code v h.2.1 hη
    ⟨avoids_code a h.1 hη, hvalue, avoids_code b h.2.2 (Coding.avoids_update hη hvalue x)⟩
  | .object fields, _, _, h, hη =>
    avoids_codeOfFields fields (show (codeOfFields fields _).Avoids F from h) hη
  | .letIn x _ v b, _, _, h, hη =>
    ⟨⟨True.intro, avoids_code b (show (b.code _).Avoids F from h.1.2) (Coding.avoids_under hη x)⟩,
      avoids_code v h.2 hη⟩

theorem Term.avoids_codeOfFields : (fields : List (Name × Term)) → {η η' : Coding} →
    (codeOfFields fields η).Avoids F → (∀ y, (η' y).Avoids F) → (codeOfFields fields η').Avoids F
  | [], _, _, _, _ => True.intro
  | (_, a) :: fields, _, _, h, hη =>
    ⟨avoids_code a (show (a.code _).Avoids F from h.1) hη, avoids_codeOfFields fields h.2 hη⟩

end

theorem Solution.avoids_environment (hs : s.Separates F) (hctx : ctx.Separates F) (y : Name) :
    (codeOfEntries (s.environment ctx) free y).Avoids F := by
  rw [codeOfEntries_eq, lookup_environment]
  cases hfind : s.find y with
  | some p =>
    cases p with
    | unsolved a scope => trivial
    | solved a v => exact hs.selected y a v hfind
  | none =>
    simp only [Context.lookup_environment]
    cases he : ctx.find? fun e => e.name = y with
    | none => trivial
    | some e =>
      simp only [Option.map_some, Option.getD_some, Context.Entry.reading]
      cases hvalue : e.value with
      | none => trivial
      | some v => exact hctx.2 e (List.mem_of_find?_eq_some he) v hvalue

/-- What is computed from terms that separate separates. -/
theorem Term.Separates.eval {t : Term} {n : Nat} {v : Value} (ht : t.Separates F)
    (hs : s.Separates F) (hctx : ctx.Separates F) (h : eval n (s.environment ctx) t = .ok v) :
    v.Separates F := by
  have hall : Environment.All (Part.FulfilledIn F) (s.environment ctx) t :=
    ⟨ht.fulfilled, fun _ _ _ hw => Solution.environment_all hs.fulfilled hctx.1
      (fun _ _ => True.intro) (fun _ _ _ => True.intro) hw, fun _ _ _ => True.intro⟩
  have hcode := t.avoids_code ht.selected (Solution.avoids_environment hs hctx)
  exact ⟨(AddsNoParts.all _ n).eval h hall,
    ((ComputesCodes.all hs.avoid n).eval h hall hcode).avoids hs.avoid hcode⟩

theorem Coding.Fits.of_free {X : Name → Prop} {used : List Name} (hkeeps : s.Keeps (Part.Named X))
    (hnamed : s.NamedIn used) (hused : ∀ y, X y → y ∈ used) : Coding.Fits free s X used :=
  ⟨hkeeps, hnamed, hused, fun _ _ _ _ _ => ⟨rfl, rfl⟩⟩

/-- The code of a normal form is what is left to compute of the code of the value. -/
theorem Value.Separates.readsAs {X : Name → Prop} {v : Value} {t : Term} (hv : v.Separates F)
    (hs : s.Separates F) (hfits : Coding.Fits free s X (s.usedNames ctx)) (hX : v.Over X)
    (h : v.ReadsAs s ctx t) : Reduces s.meanings (v.code free) (t.code free) ∧ t.Normal ∧
      Coding.Plain s.meanings free t := by
  obtain ⟨n, h⟩ := h
  have hnormal := (ReadsNormal.all s n).value hfits.keeps hfits.named h hX
  refine ⟨(ReadsCodes.all hs n).value hfits ⟨hX, hv.fulfilled, hv.selected⟩ h,
    hnormal.normal hfits.used, fun y hy => ?_⟩
  exact Solution.meanings_of_unsolved (hnormal.free y hy).2

theorem Solution.SolvedIn.meanings (h : s.SolvedIn s') (x : Name) (c : Code)
    (hc : s.meanings.of x = some c) : s'.meanings.of x = some c := by
  simp only [Solution.meanings] at hc
  split at hc
  · next a v hv =>
    cases hc
    exact meanings_of_solved (h x a v hv)
  · cases hc

end

/-- Types that have been found to be equal stay equal, whatever is solved, as long as no property
that is fulfilled is selected. -/
theorem equal_types_stay_equal {F : Name → Prop} {ctx : Context} {s s' : Solution}
    (hs : Built ctx s) (hs' : Built ctx s') (h : s.LeadsTo s') (hctx : ctx.Separates F)
    (hsep : s.Separates F) (hsep' : s'.Separates F) {n m : Nat} {c d : Term} {a b : Value}
    (hc : c.Separates F) (hd : d.Separates F) (ha : eval n (s.environment ctx) c = .ok a)
    (hb : eval m (s.environment ctx) d = .ok b) (hab : a.EqualAsTypes s ctx b)
    (hreads : (∃ t, a.ReadsAs s' ctx t) ∧ ∃ u, b.ReadsAs s' ctx u) : a.EqualAsTypes s' ctx b := by
  have hbuilt := hs.wellBuilt
  have hbuilt' := hs'.wellBuilt
  obtain ⟨t, u, ht, hu, htu⟩ := Value.equalAsTypes_iff.1 hab
  obtain ⟨⟨t', ht'⟩, u', hu'⟩ := hreads
  have hasep := hc.eval hsep hctx ha
  have hbsep := hd.eval hsep hctx hb
  -- before and after, the values are over what was visible before
  let X : Name → Prop := fun y => s.Visible ctx y ∨ s'.Visible ctx y
  have hfits : Coding.Fits free s (s.Visible ctx) (s.usedNames ctx) :=
    .of_free hbuilt.solution.keeps (hbuilt.named.usedNames ctx) fun _ => hbuilt.mem_usedNames
  have hfits' : Coding.Fits free s' X (s'.usedNames ctx) := by
    refine .of_free (fun x _ v hx _ => ?_) (hbuilt'.named.usedNames ctx) ?_
    · exact ((hbuilt'.solution x _ hx).2).mono (Part.Named.mono fun _ => .inr)
    · rintro y (hy | hy)
      · exact Solution.usedNames_subset (fun _ => id) h.names (hbuilt.mem_usedNames hy)
      · exact hbuilt'.mem_usedNames hy
  have haover := hbuilt.eval_over ha
  have hbover := hbuilt.eval_over hb
  obtain ⟨hat, -, -⟩ := hasep.readsAs hsep hfits haover ht
  obtain ⟨hbu, -, -⟩ := hbsep.readsAs hsep hfits hbover hu
  obtain ⟨hat', hnormal, hfree⟩ := hasep.readsAs hsep' hfits' (haover.mono fun _ => .inl) ht'
  obtain ⟨hbu', hnormal', hfree'⟩ := hbsep.readsAs hsep' hfits' (hbover.mono fun _ => .inl) hu'
  -- the common normal form has both of the later ones
  have hmono := h.solvedIn.meanings
  have hsame : t.code free = u.code free :=
    (Term.alphaEquivalent_iff.1 htu).code_eq fun _ _ => congrArg free
  have hsettled := t'.code_settled hnormal hfree
  have hsettled' := u'.code_settled hnormal' hfree'
  have htt' := (hat.mono hmono).to_settled hat' hsettled
  have huu' := (hbu.mono hmono).to_settled hbu' hsettled'
  rw [← hsame] at huu'
  have halike :=
    t'.alike_of_code u' hnormal hnormal' hfree hfree' (htt'.settled_unique huu' hsettled hsettled')
  refine Value.equalAsTypes_iff.2 ⟨t', u', ht', hu', Term.alphaEquivalent_iff.2 ?_⟩
  exact halike.mono fun _ _ _ _ => free.inj

/-! Contexts and solutions in which every term separates, as they are built up. -/

section

variable {F : Name → Prop} {s : Solution} {ctx : Context} {n : Nat} {t : Term} {a v : Value}

theorem Solution.separates_empty : Solution.Separates F {} :=
  ⟨fun m p hm => by simp at hm, fun x a v hx => by simp at hx⟩

theorem Context.separates_empty : Context.Separates F [] :=
  ⟨fun e he => by simp at he, fun e he => by simp at he⟩

theorem Context.Separates.bind (hctx : ctx.Separates F) (hs : s.Separates F) (ht : t.Separates F)
    (label x : Name) (ha : eval n (s.environment ctx) t = .ok a) :
    (ctx.bind label x a).Separates F := by
  refine ⟨hctx.1.cons ⟨(ht.eval hs hctx ha).fulfilled, fun v hv => by cases hv⟩,
    fun e he v hv => ?_⟩
  rcases List.mem_cons.1 he with rfl | he
  · cases hv
  · exact hctx.2 e he v hv

theorem Solution.Separates.create (hs : s.Separates F) (hctx : ctx.Separates F) (ht : t.Separates F)
    (x : Name) (scope : List Name) (ha : eval n (s.environment ctx) t = .ok a) :
    (s.create x a scope).Separates F := by
  constructor
  · intro m p hm
    rw [find_create] at hm
    split at hm
    · cases hm
      exact (ht.eval hs hctx ha).fulfilled
    · exact hs.fulfilled m p hm
  · intro y b w hy
    rw [find_create] at hy
    split at hy
    · cases hy
    · exact hs.selected y b w hy

theorem Solution.Separates.bind (hs : s.Separates F) (hctx : ctx.Separates F) (ht : t.Separates F)
    (x : Name) (hv : eval n (s.environment ctx) t = .ok v) : (s.bind x v).Separates F := by
  have hv := ht.eval hs hctx hv
  constructor
  · intro m p hm
    rw [find_bind, Option.map_eq_some_iff] at hm
    obtain ⟨old, hold, rfl⟩ := hm
    have hold := hs.fulfilled m old hold
    split
    · exact ⟨hold.type, hv.fulfilled⟩
    · exact hold
  · intro m b w hm
    rw [find_bind, Option.map_eq_some_iff] at hm
    obtain ⟨old, hold, heq⟩ := hm
    split at heq
    · cases heq
      exact hv.selected
    · exact hs.selected m b w (heq ▸ hold)

end

def Solution.valueOf (s : Solution) (ctx : Context) (t : Term) : Value :=
  (eval 20 (s.environment ctx) t).result .type

def Solution.termOf (s : Solution) (ctx : Context) (v : Value) : Term :=
  (s.reify 20 ctx v).result .type

theorem Solution.eval_valueOf {s : Solution} {ctx : Context} {t : Term}
    (h : (eval 20 (s.environment ctx) t).toBool) :
    eval 20 (s.environment ctx) t = .ok (s.valueOf ctx t) :=
  Eval.eq_ok_result Value.type h

theorem Solution.readsAs_termOf {s : Solution} {ctx : Context} {v : Value}
    (h : (s.reify 20 ctx v).toBool) : v.ReadsAs s ctx (s.termOf ctx v) :=
  ⟨20, Eval.eq_ok_result Term.type h⟩

namespace SeparateLabels

open Solution

def f : Name := ⟨"f", 0⟩
def h : Name := ⟨"h", 0⟩
def k : Name := ⟨"k", 0⟩
def q : Name := ⟨"q", 0⟩
def r : Name := ⟨"r", 0⟩
def y : Name := ⟨"y", 0⟩
def z : Name := ⟨"z", 0⟩

def openClass : Term := .declared q q .type .emptyClass

def richer : Term := .declared q q .type (.fulfilled r r .type .string .emptyClass)

def family : Term := .pi .explicit z richer openClass
def predicate : Term := .pi .explicit z openClass .type

/-- The solution of `h`: the property `q` of its argument. -/
def selecting : Term := .fn .explicit z openClass (.dot (.var z) q)

/-- `h(f(k))` -/
def left : Term := .app .explicit (.var h) (.app .explicit (.var f) (.var k))

/-- `h(f(y))` -/
def right : Term := .app .explicit (.var h) (.app .explicit (.var f) (.var y))

def ctx₁ : Context := Context.bind [] f f (valueOf {} [] family)
def ctx : Context := ctx₁.bind y y (valueOf {} ctx₁ richer)
def s₁ : Solution := Solution.create {} k (valueOf {} ctx richer) []
def s₂ : Solution := s₁.create h (s₁.valueOf ctx predicate) []
def s : Solution := s₂.bind k (s₂.valueOf ctx (.var y))
def s' : Solution := s.bind h (s.valueOf ctx selecting)

theorem built : Built ctx s := by
  have h₁ : Built ctx₁ {} := .bind f f .empty (by decide) (eval_valueOf rfl)
  have h₂ : Built ctx {} := .bind y y h₁ (by decide) (eval_valueOf rfl)
  have h₃ : Built ctx s₁ := .create k [] h₂ (eval_valueOf rfl)
  have h₄ : Built ctx s₂ := .create h [] h₃ (eval_valueOf rfl)
  exact .solve k h₄ (eval_valueOf rfl)

theorem built' : Built ctx s' := .solve h built (eval_valueOf rfl)

theorem leadsTo : s.LeadsTo s' := by
  have hsolve : (unify 20 ctx (s.valueOf ctx predicate) (s.valueOf ctx (.var h))
      (s.valueOf ctx selecting)).Yields s () s' := rfl
  exact .solve .refl hsolve

/-- The label of the property that is fulfilled. -/
def Fulfilled (label : Name) : Prop := label = r

theorem richer_separates : richer.Separates Fulfilled :=
  ⟨by simp [richer, Part.FulfilledIn, Fulfilled], by simp [richer, Term.code, Avoids]⟩

theorem family_separates : family.Separates Fulfilled :=
  ⟨by simp [family, richer, openClass, Part.FulfilledIn, Fulfilled], by
    simp [family, richer, openClass, Term.code, Avoids]⟩

theorem predicate_separates : predicate.Separates Fulfilled :=
  ⟨by simp [predicate, openClass, Part.FulfilledIn], by
    simp [predicate, openClass, Term.code, Avoids]⟩

theorem selecting_separates : selecting.Separates Fulfilled :=
  ⟨by simp [selecting, openClass, Part.FulfilledIn], by
    simp [selecting, openClass, Term.code, Avoids, Coding.under, Fulfilled, q, r]⟩

theorem left_separates : left.Separates Fulfilled :=
  ⟨by simp [left], by simp [left, Term.code, Avoids]⟩

theorem right_separates : right.Separates Fulfilled :=
  ⟨by simp [right], by simp [right, Term.code, Avoids]⟩

theorem ctx_separates : ctx.Separates Fulfilled := by
  have h₁ : ctx₁.Separates Fulfilled := Context.separates_empty.bind Solution.separates_empty
    family_separates f f (eval_valueOf rfl)
  exact h₁.bind Solution.separates_empty richer_separates y y (eval_valueOf rfl)

theorem solution_separates : s.Separates Fulfilled := by
  have h₁ : s₁.Separates Fulfilled := Solution.separates_empty.create ctx_separates richer_separates
    k [] (eval_valueOf rfl)
  have h₂ : s₂.Separates Fulfilled := h₁.create ctx_separates predicate_separates h []
    (eval_valueOf rfl)
  exact h₂.bind ctx_separates ⟨by simp, by simp [Term.code, Avoids]⟩ k (eval_valueOf rfl)

theorem later_separates : s'.Separates Fulfilled :=
  solution_separates.bind ctx_separates selecting_separates h (eval_valueOf rfl)

end SeparateLabels

namespace RecordedClass

open Solution

def c : Name := ⟨"c", 0⟩
def f : Name := ⟨"f", 0⟩
def h : Name := ⟨"h", 0⟩
def k : Name := ⟨"k", 0⟩
def q : Name := ⟨"q", 0⟩
def t : Name := ⟨"t", 0⟩
def w : Name := ⟨"w", 0⟩
def y : Name := ⟨"y", 0⟩
def z : Name := ⟨"z", 0⟩

def openClass : Term := .declared q q .type .emptyClass

/-- A class that fulfils `c` by a class that leaves `q` open. -/
def leaving : Term := .fulfilled c c .type openClass .emptyClass

/-- An object whose `c` fulfils `q`. -/
def fulfilling : Term := .object [(c, .fulfilled q q .type .string .emptyClass)]

/-- A class with the property `h(f(k))`. -/
def holding : Term :=
  .fulfilled t t .type (.app .explicit (.var h) (.app .explicit (.var f) (.var k))) .emptyClass

def selecting : Term := .fn .explicit z openClass (.dot (.var z) q)

def ctx₁ : Context :=
  Context.bind [] f f (valueOf {} [] (.pi .explicit z leaving (.dot (.var z) c)))
def s₁ : Solution := Solution.create {} k (valueOf {} ctx₁ leaving) []
def s₂ : Solution := s₁.create h (s₁.valueOf ctx₁ (.pi .explicit z openClass .type)) []
/-- In `y` the argument of `h` is of the class that `k` has by its type. -/
def ctx₂ : Context := ctx₁.bind y y (s₂.valueOf ctx₁ holding)
def s : Solution := s₂.bind k (s₂.valueOf ctx₂ fulfilling)
/-- In `w` it is of the class that the solution of `k` gives. -/
def ctx : Context := ctx₂.bind w w (s.valueOf ctx₂ holding)
def s' : Solution := s.bind h (s.valueOf ctx selecting)

theorem built : Built ctx s := by
  have h₁ : Built ctx₁ {} := .bind f f .empty (by decide) (eval_valueOf rfl)
  have h₂ : Built ctx₁ s₁ := .create k [] h₁ (eval_valueOf rfl)
  have h₃ : Built ctx₁ s₂ := .create h [] h₂ (eval_valueOf rfl)
  have h₄ : Built ctx₂ s₂ := .bind y y h₃ (by decide) (eval_valueOf rfl)
  have h₅ : Built ctx₂ s := .solve k h₄ (eval_valueOf rfl)
  exact .bind w w h₅ (by decide) (eval_valueOf rfl)

theorem built' : Built ctx s' := .solve h built (eval_valueOf rfl)

theorem leadsTo : s.LeadsTo s' := by
  have hsolve :
      (unify 20 ctx (s.valueOf ctx (.pi .explicit z openClass .type)) (s.valueOf ctx (.var h))
      (s.valueOf ctx selecting)).Yields s () s' := rfl
  exact .solve .refl hsolve

def later : Value := s.valueOf ctx (.dot (.var w) t)

def earlier : Value := s.valueOf ctx (.dot (.var y) t)

theorem equal_before : later.EqualAsTypes s ctx earlier :=
  Value.equalAsTypes_iff.2 ⟨_, _, readsAs_termOf rfl, readsAs_termOf rfl,
    rfl⟩

theorem unequal_after : ¬ later.EqualAsTypes s' ctx earlier := by
  intro h
  obtain ⟨t, u, ht, hu, htu⟩ := Value.equalAsTypes_iff.1 h
  cases ht.unique (readsAs_termOf rfl)
  cases hu.unique (readsAs_termOf rfl)
  have hne : (s'.termOf ctx later).alphaEquivalent (s'.termOf ctx earlier) = false := rfl
  rw [hne] at htu
  cases htu

/-- The solution of `k` fulfils `q` and that of `h` selects it. -/
theorem not_separates (F : Name → Prop) : ¬ s'.Separates F := by
  intro hs
  have hk : s'.find k = some (.solved (valueOf {} ctx₁ leaving)
      (.object [(c, .classOf (.fulfilled q .type .string .nil))])) := rfl
  have hh : s'.find h = some (.solved (s₁.valueOf ctx₁ (.pi .explicit z openClass .type))
      (s.valueOf ctx selecting)) := rfl
  have hfulfilled : F q := by
    have hclass := (Value.all_object.1 (hs.fulfilled k _ hk).2).2 _ List.mem_cons_self
    exact (Chain.all_fulfilled.1 (Value.all_classOf.1 hclass)).1
  have hcode : ((s.valueOf ctx selecting).code free).Avoids F := hs.selected h _ _ hh
  have hselected : ¬ F q := hcode.2.1
  exact hselected hfulfilled

end RecordedClass

/-- Two types that differ in a solved variable stay equal when the head of both is solved by a
selection of a property that their class leaves open. If the property is fulfilled in a class that
only one of them records, they become different. -/
theorem equality_lost_only_to_recorded_class :
    (open SeparateLabels in
      (s.valueOf ctx left).EqualAsTypes s ctx (s.valueOf ctx right) ∧
      (s.valueOf ctx left).EqualAsTypes s' ctx (s.valueOf ctx right)) ∧
    (open RecordedClass in
      Built ctx s ∧ Built ctx s' ∧ s.LeadsTo s' ∧ later.EqualAsTypes s ctx earlier ∧
      (∃ u, later.ReadsAs s' ctx u) ∧ (∃ u, earlier.ReadsAs s' ctx u) ∧
      ¬ later.EqualAsTypes s' ctx earlier ∧ ∀ F, ¬ s'.Separates F) := by
  have hequal : (SeparateLabels.s.valueOf SeparateLabels.ctx SeparateLabels.left).EqualAsTypes
      SeparateLabels.s
      SeparateLabels.ctx (SeparateLabels.s.valueOf SeparateLabels.ctx SeparateLabels.right) :=
    Value.equalAsTypes_iff.2 ⟨_, _, Solution.readsAs_termOf rfl,
      Solution.readsAs_termOf rfl, rfl⟩
  constructor
  · refine ⟨hequal, ?_⟩
    exact equal_types_stay_equal SeparateLabels.built SeparateLabels.built' SeparateLabels.leadsTo
      SeparateLabels.ctx_separates SeparateLabels.solution_separates SeparateLabels.later_separates
      SeparateLabels.left_separates SeparateLabels.right_separates
      (Solution.eval_valueOf rfl) (Solution.eval_valueOf rfl) hequal
      ⟨⟨_, Solution.readsAs_termOf rfl⟩, _, Solution.readsAs_termOf rfl⟩
  · exact ⟨RecordedClass.built, RecordedClass.built', RecordedClass.leadsTo,
      RecordedClass.equal_before,
      ⟨_, Solution.readsAs_termOf rfl⟩, ⟨_, Solution.readsAs_termOf rfl⟩,
      RecordedClass.unequal_after, RecordedClass.not_separates⟩

end DependentClasses
