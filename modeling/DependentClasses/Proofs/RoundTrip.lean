import DependentClasses.Proofs.Contexts
import DependentClasses.Proofs.Stability

/-! The round trip through values. In a context and a solution that are built up from terms,
a term is evaluated and read back, and its normal form is evaluated and read back once more. -/
namespace DependentClasses

/-- A variable that a value may be stuck on: a pattern variable, or a parameter of the context. -/
def Solution.Visible (s : Solution) (ctx : Context) (y : Name) : Prop :=
  s.isPatternVariable y ∨ ctx.isAbstract y

/-- Contexts and solutions whose types and values all come from terms, each evaluated with the
entries there were at its time, and mention only what is still there. -/
inductive Built : Context → Solution → Prop
  | empty : Built [] {}
  | bind {ctx s n t a} (label x : Name) : Built ctx s → x ∉ ctx.names →
      eval n (s.environment ctx) t = .ok a →
      Built (ctx.bind label x a) s
  | define {ctx s n t a u v} (label x : Name) : Built ctx s → x ∉ ctx.names →
      eval n (s.environment ctx) t = .ok a → eval n (s.environment ctx) u = .ok v →
      Built (ctx.define label x a v) s
  | create {ctx s n t a} (x : Name) (scope : List Name) : Built ctx s →
      eval n (s.environment ctx) t = .ok a →
      Built ctx (s.create x a scope)
  | solve {ctx s n t v} (x : Name) : Built ctx s → eval n (s.environment ctx) t = .ok v →
      Built ctx (s.bind x v)
  | reserve {ctx s} (xs : List Name) : Built ctx s → Built ctx (s.reserve xs)
  | leave {e ctx s} : Built (e :: ctx) s → s.Over (s.Visible ctx) → Built ctx s

def Context.Sound (s : Solution) : Context → Prop
  | [] => True
  | e :: ctx => e.name ∉ Context.names ctx ∧ e.Over (s.Visible ctx) ∧ Context.Sound s ctx

namespace Context.Sound

variable {s s' : Solution} {ctx : Context}

theorem mono (h : ∀ y, s.isPatternVariable y → s'.isPatternVariable y)
    (hctx : Context.Sound s ctx) :
    Context.Sound s' ctx := by
  induction ctx with
  | nil => trivial
  | cons e ctx ih =>
    obtain ⟨hname, he, hctx⟩ := hctx
    have hmono : ∀ y, s.Visible ctx y → s'.Visible ctx y := fun y hy => hy.imp_left (h y)
    exact ⟨hname, he.mono (Part.Named.mono hmono), ih hctx⟩

theorem entries_over (hctx : Context.Sound s ctx) : Context.Over (s.Visible ctx) ctx := by
  induction ctx with
  | nil => exact fun e he => by simp at he
  | cons e ctx ih =>
    obtain ⟨hname, hover, hctx⟩ := hctx
    have hmono : ∀ y, s.Visible ctx y → s.Visible (e :: ctx) y :=
      fun y hy => hy.imp_right (Context.isAbstract_cons hname)
    exact Context.All.mono (Part.Named.mono hmono) (ih hctx) |>.cons
      (hover.mono (Part.Named.mono hmono))

end Context.Sound

/-- What holds of all that is built up from terms. -/
structure WellBuilt (ctx : Context) (s : Solution) : Prop where
  named : s.NamedIn s.names
  context : Context.Sound s ctx
  solution : s.Over (s.Visible ctx)

theorem WellBuilt.eval_over {ctx : Context} {s : Solution} (h : WellBuilt ctx s) {n : Nat}
    {t : Term} {v : Value} (hv : eval n (s.environment ctx) t = .ok v) : v.Over (s.Visible ctx) :=
  Solution.eval_all h.solution h.context.entries_over (fun _ hy => .inl hy) (fun _ _ hy => .inr hy)
    (fun _ => trivial) t.all_named hv

/-- A new entry with a new name, whose type and value come from what is there. -/
theorem WellBuilt.cons {ctx : Context} {s : Solution} (h : WellBuilt ctx s) {e : Context.Entry}
    (hname : e.name ∉ ctx.names) (he : e.Over (s.Visible ctx)) : WellBuilt (e :: ctx) s := by
  refine ⟨h.named, ⟨hname, he, h.context⟩, fun m p hm => ?_⟩
  have hmono : ∀ y, s.Visible ctx y → s.Visible (e :: ctx) y :=
    fun y hy => hy.imp_right (Context.isAbstract_cons hname)
  exact (h.solution m p hm).mono (Part.Named.mono hmono)

theorem Built.wellBuilt {ctx : Context} {s : Solution} (h : Built ctx s) : WellBuilt ctx s := by
  induction h with
  | empty => exact ⟨fun y p hy => by simp at hy, trivial, fun m p hm => by simp at hm⟩
  | bind label x _ hx ha ih => exact ih.cons hx ⟨ih.eval_over ha, fun v hv => by cases hv⟩
  | define label x _ hx ha hv ih =>
    refine ih.cons hx ⟨ih.eval_over ha, fun w hw => ?_⟩
    cases hw
    exact ih.eval_over hv
  | @create ctx s n t a x scope _ ha ih =>
    have hgrow : ∀ y, s.isPatternVariable y → (s.create x a scope).isPatternVariable y :=
      fun _ => Solution.isPatternVariable_create
    have hmono : ∀ y, s.Visible ctx y → (s.create x a scope).Visible ctx y :=
      fun y hy => hy.imp_left (hgrow y)
    refine ⟨ih.named.create, ih.context.mono hgrow, fun m p hm => ?_⟩
    rw [Solution.find_create] at hm
    split at hm
    · cases hm
      exact (ih.eval_over ha).mono hmono
    · exact (ih.solution m p hm).mono (Part.Named.mono hmono)
  | @solve ctx s n t v x _ hv ih =>
    have hgrow : ∀ y, s.isPatternVariable y → (s.bind x v).isPatternVariable y :=
      fun _ hy => Solution.isPatternVariable_bind.trans hy
    have hmono : ∀ y, s.Visible ctx y → (s.bind x v).Visible ctx y :=
      fun y hy => hy.imp_left (hgrow y)
    refine ⟨ih.named.bind, ih.context.mono hgrow, fun m p hm => ?_⟩
    rw [Solution.find_bind, Option.map_eq_some_iff] at hm
    obtain ⟨old, hold, rfl⟩ := hm
    have hover := (ih.solution m old hold).mono (Part.Named.mono hmono)
    split
    · exact ⟨hover.type, (ih.eval_over hv).mono hmono⟩
    · exact hover
  | @reserve ctx s xs _ ih =>
    have hsame : ∀ y, s.isPatternVariable y → (s.reserve xs).isPatternVariable y := fun _ hy => hy
    exact ⟨ih.named.reserve xs, ih.context.mono hsame, ih.solution⟩
  | leave _ hover ih => exact ⟨ih.named, ih.context.2.2, hover⟩

def Place.top (s : Solution) (ctx : Context) : Place := ⟨s.environment ctx, [], [], s.usedNames ctx⟩

/-- What is visible is in the environment as a variable, unless it is solved. -/
theorem Solution.Visible.lookup {s : Solution} {ctx : Context} {y : Name} (h : s.Visible ctx y)
    (hsolved : ¬ s.IsSolved y) : ∃ a, (s.environment ctx).lookup y = some (.variable a y) := by
  rw [Solution.lookup_environment]
  cases hfind : s.find y with
  | some p =>
    cases p with
    | unsolved a scope => exact ⟨a, rfl⟩
    | solved a v => exact absurd ⟨a, v, hfind⟩ hsolved
  | none =>
    have habstract : ctx.isAbstract y :=
      h.resolve_left (by simp [Solution.isPatternVariable, hfind])
    obtain ⟨e, he, hvalue⟩ := Context.isAbstract_iff.1 habstract
    refine ⟨e.type, ?_⟩
    simp [Context.lookup_environment, he, Context.Entry.reading, hvalue, Context.name_of_find he]

/-- A normal form is stable exactly if each stuck part of it in which a selection comes open, when
it is evaluated again, is read back as it stands. -/
theorem normal_form_stable_iff {ctx : Context} {s : Solution} (h : Built ctx s)
    {n₁ n₂ n₃ n₄ : Nat} {c t t' : Term} {v v' : Value} (hv : eval n₁ (s.environment ctx) c = .ok v)
    (ht : s.reify n₂ ctx v = .ok t) (hv' : eval n₃ (s.environment ctx) t = .ok v')
    (ht' : s.reify n₄ ctx v' = .ok t') :
    t.alphaEquivalent t' ↔ t.Steady s (.top s ctx) := by
  have hbuilt := h.wellBuilt
  have hnamed := hbuilt.named.usedNames ctx
  have hused : ∀ y, s.Visible ctx y → y ∈ s.usedNames ctx := by
    rintro y (hy | hy)
    · obtain ⟨p, hp⟩ := Option.isSome_iff_exists.1 hy
      exact hnamed y p hp
    · exact List.mem_append_left _ (Context.mem_names_of_isAbstract hy)
  have hnormal := (ReadsNormal.all s n₂).value hbuilt.solution.keeps hnamed ht (hbuilt.eval_over hv)
  refine (decided s t).value (p := .top s ctx) (hnormal.normal hused)
    ⟨hnamed, fun y hy => ?_⟩ hv' ht'
  obtain ⟨hvisible, hsolved⟩ := hnormal.free y hy
  obtain ⟨a, hlookup⟩ := hvisible.lookup hsolved
  exact ⟨a, y, hlookup, by simp [Place.top, Term.sameVariable], hused y hvisible, hsolved⟩

namespace OpenedSelection

def q : Name := ⟨"q", 0⟩
def r : Name := ⟨"r", 0⟩
def x : Name := ⟨"x", 0⟩
def z : Name := ⟨"z", 0⟩

/-- A class that fulfils `q` by a class that fulfils `r`. -/
def fulfilling : Term :=
  .fulfilled q q .type (.fulfilled r r .string (.quote "a") .emptyClass) .emptyClass

/-- An object whose `q` leaves `r` open. -/
def leavingOpen : Term := .object [(q, .declared r r .string .emptyClass)]

/-- The type of `x` at that object is the `q` of the object, until it is read back as the `q` of the
class. -/
def selecting : Term :=
  .fn .explicit x (.pi .explicit z fulfilling (.dot (.var z) q))
    (.dot (.app .explicit (.var x) leavingOpen) r)

theorem trip_unequal : ∃ v t v' t', eval 20 (Solution.environment {} []) selecting = .ok v ∧
    Solution.reify 20 {} [] v = .ok t ∧ eval 20 (Solution.environment {} []) t = .ok v' ∧
    Solution.reify 20 {} [] v' = .ok t' ∧ t.alphaEquivalent t' = false := by
  have h : gives (eval 20 (Solution.environment {} []) selecting) fun v =>
      gives (Solution.reify 20 {} [] v) fun t =>
          gives (eval 20 (Solution.environment {} []) t) fun v' =>
        gives (Solution.reify 20 {} [] v') fun t' => !t.alphaEquivalent t' := by decide +kernel
  obtain ⟨v, hv, h⟩ := exists_of_gives h
  obtain ⟨t, ht, h⟩ := exists_of_gives h
  obtain ⟨v', hv', h⟩ := exists_of_gives h
  obtain ⟨t', ht', h⟩ := exists_of_gives h
  exact ⟨v, t, v', t', hv, ht, hv', ht', by simpa using h⟩

end OpenedSelection

/-- A closed function whose normal form is not stable, since the class of a selection comes to
fulfil it. -/
theorem opened_selection_not_steady :
    Built [] {} ∧
      ∃ v t v' t', eval 20 (Solution.environment {} []) OpenedSelection.selecting = .ok v ∧
      Solution.reify 20 {} [] v = .ok t ∧ eval 20 (Solution.environment {} []) t = .ok v' ∧
      Solution.reify 20 {} [] v' = .ok t' ∧ ¬ t.alphaEquivalent t' ∧
      ¬ t.Steady {} (.top {} []) := by
  obtain ⟨v, t, v', t', hv, ht, hv', ht', hunequal⟩ := OpenedSelection.trip_unequal
  have hne : ¬ t.alphaEquivalent t' := by simp [hunequal]
  refine ⟨.empty, v, t, v', t', hv, ht, hv', ht', hne, fun hsteady => hne ?_⟩
  exact (normal_form_stable_iff .empty hv ht hv' ht').2 hsteady

end DependentClasses
