import DependentClasses.Proofs.InclusionGrowth

/-! What a context and a solution know: the parameters of the context, the pattern variables,
and the names that types and solutions of these mention, beside names that are given beforehand.
Whatever is computed from the two is over names that are known, and a solution that grows
forgets none. -/
namespace DependentClasses

variable {strict : Prop}

def PatternVariable.Mentions (y : Name) : PatternVariable → Prop
  | .unsolved a _ => a.Has (.name y)
  | .solved a v => a.Has (.name y) ∨ v.Has (.name y)

def Solution.Mentions (s : Solution) (y : Name) : Prop := ∃ x p, s.find x = some p ∧ p.Mentions y

def Context.HasParameter (ctx : Context) (y : Name) : Prop := ∃ e ∈ ctx, e.name = y ∧ e.value = none

/-- `y` is one of the names that are known beforehand, or the context or the solution has it. -/
def Solution.Knows (given : Name → Prop) (s : Solution) (ctx : Context) (y : Name) : Prop :=
  given y ∨ ctx.HasParameter y ∨ s.isPatternVariable y ∨ s.Mentions y

/-- A well-formed value over names that are known. -/
def Value.Fits (strict : Prop) (given : Name → Prop) (s : Solution) (ctx : Context)
    (v : Value) : Prop :=
  v.All (Part.Within strict (s.Knows given ctx))

def Closure.Fits (strict : Prop) (given : Name → Prop) (s : Solution) (ctx : Context)
    (c : Closure) : Prop :=
  c.All (Part.Within strict (s.Knows given ctx))

def Chain.Fits (strict : Prop) (given : Name → Prop) (s : Solution) (ctx : Context)
    (c : Chain) : Prop :=
  c.All (Part.Within strict (s.Knows given ctx))

/-- A sound solution, and a context whose types and values are over names that are known. -/
structure Coherent (strict : Prop) (given : Name → Prop) (ctx : Context) (s : Solution) : Prop where
  sound : s.Sound strict
  context : ctx.All (Part.Within strict (s.Knows given ctx))

section

variable {given : Name → Prop} {s s' : Solution} {ctx : Context} {avoid : List Name} {a v w : Value}
  {c : Closure} {d : Chain} {x y : Name} {n : Nat}

theorem PatternVariable.Becomes.mentions {p q : PatternVariable} (h : p.Becomes q)
    (hp : p.Mentions y) :
    q.Mentions y := by
  cases h with
  | same => exact hp
  | solved a scope v => exact .inl hp

/-- What a pattern variable of a well-formed solution is made of. -/
theorem PatternVariable.all_mentions {p : PatternVariable} {X : Name → Prop}
    (hp : p.All (Part.WellFormed strict)) (hX : ∀ y, p.Mentions y → X y) :
    p.All (Part.Within strict X) := by
  have hpart {u : Value} (hu : u.WellFormed strict) (hm : ∀ y, u.Has (.name y) → X y) :
      u.All (Part.Within strict X) := by
    intro q hq
    cases q with
    | name y => exact hm y hq
    | missing | labels | fulfilled | fields | rest => exact hu _ hq
  cases p with
  | unsolved a scope => exact hpart hp hX
  | solved a v =>
    exact ⟨hpart hp.1 fun y hy => hX y (.inl hy), hpart hp.2 fun y hy => hX y (.inr hy)⟩

/-- A solution that grows forgets no name. -/
theorem Solution.GrowsTo.knows (h : s.GrowsTo strict avoid s') (hy : s.Knows given ctx y) :
    s'.Knows given ctx y := by
  rcases hy with hy | hy | hy | ⟨x, p, hx, hp⟩
  · exact .inl hy
  · exact .inr (.inl hy)
  · exact .inr (.inr (.inl (h.isPatternVariable hy)))
  · obtain ⟨q, hq, hpq⟩ := h.kept x p hx
    exact .inr (.inr (.inr ⟨x, q, hq, hpq.mentions hp⟩))

theorem Solution.Knows.cons {e : Context.Entry} (h : s.Knows given ctx y) :
    s.Knows given (e :: ctx) y := by
  refine h.imp_right (Or.imp_left ?_)
  rintro ⟨e', he', h'⟩
  exact ⟨e', List.mem_cons_of_mem e he', h'⟩

/-- A definition is no parameter. -/
theorem Solution.Knows.of_define {label : Name} (h : s.Knows given (ctx.define label x a v) y) :
    s.Knows given ctx y := by
  refine h.imp_right (Or.imp_left ?_)
  rintro ⟨e, he, hname, hvalue⟩
  rcases List.mem_cons.1 he with rfl | he
  · cases hvalue
  · exact ⟨e, he, hname, hvalue⟩

theorem Solution.GrowsTo.within (h : s.GrowsTo strict avoid s') (q : Part) :
    Part.Within strict (s.Knows given ctx) q → Part.Within strict (s'.Knows given ctx) q :=
  Part.Within.mono (fun _ => h.knows) q

theorem Part.Within.cons {e : Context.Entry} (q : Part) :
    Part.Within strict (s.Knows given ctx) q → Part.Within strict (s.Knows given (e :: ctx)) q :=
  Part.Within.mono (fun _ hy => hy.cons) q

namespace Value.Fits

theorem wellFormed (h : v.Fits strict given s ctx) : v.WellFormed strict :=
  h.mono Part.Within.wellFormed

theorem grow (h : v.Fits strict given s ctx) (hg : s.GrowsTo strict avoid s') :
    v.Fits strict given s' ctx :=
  h.mono hg.within

theorem cons (h : v.Fits strict given s ctx) (e : Context.Entry) :
    v.Fits strict given s (e :: ctx) :=
  h.mono Part.Within.cons

/-- A parameter of a context that goes on with it. -/
theorem parameter (h : a.Fits strict given s ctx) (label x : Name) :
    (Value.variable a x).Fits strict given s (ctx.bind label x a) :=
  Value.all_variable.2 ⟨h.cons _, .inr (.inl ⟨_, List.mem_cons_self, rfl, rfl⟩)⟩

end Value.Fits

namespace Closure.Fits

theorem grow (h : c.Fits strict given s ctx) (hg : s.GrowsTo strict avoid s') :
    c.Fits strict given s' ctx :=
  fun q hq => hg.within q (h q hq)

theorem cons (h : c.Fits strict given s ctx) (e : Context.Entry) :
    c.Fits strict given s (e :: ctx) :=
  fun q hq => (h q hq).cons

theorem apply (h : c.Fits strict given s ctx) (hv : v.Fits strict given s ctx)
    (hw : c.apply n v = .ok w) :
    w.Fits strict given s ctx :=
  Closure.apply_all hw h hv

end Closure.Fits

namespace Chain.Fits

theorem wellFormed (h : d.Fits strict given s ctx) : d.WellFormed strict :=
  fun q hq => (h q hq).wellFormed

theorem grow (h : d.Fits strict given s ctx) (hg : s.GrowsTo strict avoid s') :
    d.Fits strict given s' ctx :=
  fun q hq => hg.within q (h q hq)

end Chain.Fits

namespace Coherent

theorem wellFormed (h : Coherent strict given ctx s) : ctx.WellFormed strict :=
  h.context.mono Part.Within.wellFormed

theorem solution (h : Coherent strict given ctx s) :
    s.All (Part.Within strict (s.Knows given ctx)) :=
  fun m p hm => PatternVariable.all_mentions (h.sound.wellFormed m p hm) fun _ hy =>
    .inr (.inr (.inr ⟨m, p, hm, hy⟩))

theorem grow (h : Coherent strict given ctx s) (hg : s.GrowsTo strict avoid s') :
    Coherent strict given ctx s' :=
  ⟨hg.sound, h.context.mono hg.within⟩

theorem cons (h : Coherent strict given ctx s) {e : Context.Entry}
    (he : e.All (Part.Within strict (s.Knows given ctx))) :
    Coherent strict given (e :: ctx) s :=
  ⟨h.sound, (h.context.mono Part.Within.cons).cons (he.mono Part.Within.cons)⟩

theorem bind (h : Coherent strict given ctx s) (ha : a.Fits strict given s ctx) (label x : Name) :
    Coherent strict given (ctx.bind label x a) s :=
  h.cons ⟨ha, fun _ hv => by cases hv⟩

theorem define (h : Coherent strict given ctx s) (ha : a.Fits strict given s ctx)
    (hv : v.Fits strict given s ctx) (label x : Name) :
    Coherent strict given (ctx.define label x a v) s :=
  h.cons ⟨ha, fun _ hw => by cases hw; exact hv⟩

/-- The value of a well-formed term is over what is known. -/
theorem eval (h : Coherent strict given ctx s) {t : Term} (ht : t.WellFormed strict)
    (hv : DependentClasses.eval n (s.environment ctx) t = .ok v) : v.Fits strict given s ctx := by
  refine Solution.eval_all h.solution h.context (fun y hy => .inr (.inr (.inl hy)))
    (fun y _ hy => .inr (.inl ?_)) (fun _ => trivial) ht.within hv
  obtain ⟨e, he, hvalue⟩ := Context.isAbstract_iff.1 hy
  exact ⟨e, List.mem_of_find?_eq_some he, Context.name_of_find he, hvalue⟩

theorem force (h : Coherent strict given ctx s) (hv : v.Fits strict given s ctx)
    (hw : v.force n s = .ok w) :
    w.Fits strict given s ctx :=
  Value.force_all h.solution.keeps hw hv

theorem reify (h : Coherent strict given ctx s) {ctx' : Context} {t : Term}
    (hv : v.Fits strict given s ctx) (ht : s.reify n ctx' v = .ok t) : t.WellFormed strict :=
  h.sound.wellFormed.reify ht hv.wellFormed

/-- The free names of a normal form are known, and none of them is solved. -/
theorem mem_freeNames (h : Coherent strict given ctx s) {ctx' : Context} {t : Term}
    (hv : v.Fits strict given s ctx) (ht : s.reify n ctx' v = .ok t) (hy : y ∈ t.freeNames) :
    s.Knows given ctx y ∧ ¬ s.IsSolved y := by
  have hkeeps : s.Keeps (Part.Named (s.Knows given ctx)) :=
    fun m a w hm _ => (h.solution m _ hm).2.mono Part.Within.named
  exact ((ReadsNormal.all s n).value hkeeps (h.sound.named.usedNames ctx') ht
    (hv.mono Part.Within.named)).free y hy

end Coherent

end

end DependentClasses
