import DependentClasses.Proofs.ReadBack

/-! What contexts and solutions hold. The environment that terms are evaluated in is known
from the entries of the two, and its values have only parts that these have. -/
namespace DependentClasses

namespace Solution

variable {s : Solution} {x y : Name} {a v : Value} {scope : List Name}

@[simp] theorem find_empty : ({} : Solution).find x = none := rfl

@[simp] theorem find_reserve {xs : List Name} : (s.reserve xs).find x = s.find x := rfl

theorem find_create :
    (s.create x a scope).find y = if y = x then some (.unsolved a scope) else s.find y := by
  unfold find create
  rw [lookup_cons_ite]
  split
  · rfl
  · next h =>
    induction s.entries with
    | nil => rfl
    | cons e entries ih =>
      obtain ⟨z, p⟩ := e
      by_cases hz : z = x
      · have hy : y ≠ z := fun hyz => h (hyz.trans hz)
        simpa [hz, lookup_cons_ite, hz ▸ hy] using ih
      · simp only [List.filter_cons, hz, ne_eq, not_false_eq_true, decide_true, if_true,
          lookup_cons_ite]
        split
        · rfl
        · simpa using ih

theorem find_bind :
    (s.bind x v).find y = (s.find y).map fun old => if y = x then .solved old.type v else old := by
  unfold find bind
  induction s.entries with
  | nil => rfl
  | cons e entries ih =>
    obtain ⟨z, p⟩ := e
    simp only [List.map_cons, lookup_cons_ite]
    split
    · next h => rw [h]; rfl
    · exact ih

/-- The pattern variable that is bound has its solution; the others are as they were. -/
theorem find_bind_self {p : PatternVariable} (h : s.find x = some p) :
    (s.bind x v).find x = some (.solved p.type v) := by
  rw [find_bind, h, Option.map_some, if_pos rfl]

theorem find_bind_of_ne (h : y ≠ x) : (s.bind x v).find y = s.find y := by
  rw [find_bind]
  simp [h]

theorem mem_names_create : y ∈ (s.create x a scope).names ↔ y = x ∨ y ∈ s.names := by
  simp only [create, reserve, List.mem_append, List.mem_filter, List.mem_singleton, decide_not,
    Bool.not_eq_eq_eq_not, Bool.not_true, decide_eq_false_iff_not]
  grind

theorem mem_names_reserve {xs : List Name} : y ∈ (s.reserve xs).names ↔ y ∈ xs ∨ y ∈ s.names := by
  simp only [reserve, List.mem_append, List.mem_filter, decide_not,
    Bool.not_eq_eq_eq_not, Bool.not_true, decide_eq_false_iff_not]
  grind

theorem isPatternVariable_create (h : s.isPatternVariable y) :
    (s.create x a scope).isPatternVariable y := by
  unfold isPatternVariable at h ⊢
  rw [find_create]
  split
  · rfl
  · exact h

theorem isPatternVariable_bind : (s.bind x v).isPatternVariable y = s.isPatternVariable y := by
  rw [isPatternVariable, find_bind, Option.isSome_map, isPatternVariable]

namespace NamedIn

theorem create (h : s.NamedIn s.names) :
    (s.create x a scope).NamedIn (s.create x a scope).names := by
  intro y p hy
  rw [find_create] at hy
  rw [mem_names_create]
  split at hy
  · exact .inl ‹_›
  · exact .inr (h y p hy)

theorem reserve (h : s.NamedIn s.names) (xs : List Name) :
    (s.reserve xs).NamedIn (s.reserve xs).names :=
  fun y p hy => mem_names_reserve.2 (.inr (h y p hy))

theorem bind (h : s.NamedIn s.names) : (s.bind x v).NamedIn (s.bind x v).names := by
  intro y p hy
  rw [find_bind, Option.map_eq_some_iff] at hy
  obtain ⟨old, hold, -⟩ := hy
  exact h y old hold

theorem usedNames (h : s.NamedIn s.names) (ctx : Context) : s.NamedIn (s.usedNames ctx) :=
  fun y p hy => List.mem_append_right _ (h y p hy)

end NamedIn

end Solution

namespace Context

def Entry.All (P : Part → Prop) (e : Entry) : Prop := e.type.All P ∧ ∀ v ∈ e.value, v.All P

def All (P : Part → Prop) (ctx : Context) : Prop := ∀ e ∈ ctx, e.All P

theorem Entry.All.mono {P Q : Part → Prop} (h : ∀ q, P q → Q q) {e : Entry}
    (he : e.All P) : e.All Q :=
  ⟨he.1.mono h, fun v hv => (he.2 v hv).mono h⟩

theorem All.mono {P Q : Part → Prop} (h : ∀ q, P q → Q q) {ctx : Context}
    (hctx : ctx.All P) : ctx.All Q :=
  fun e he => (hctx e he).mono h

theorem All.cons {P : Part → Prop} {ctx : Context} {e : Entry} (hctx : ctx.All P) (he : e.All P) :
    Context.All P (e :: ctx) := by
  intro e' he'
  rcases List.mem_cons.1 he' with rfl | he'
  · exact he
  · exact hctx e' he'

def Entry.Over (X : Name → Prop) (e : Entry) : Prop := e.All (Part.Named X)

def Over (X : Name → Prop) (ctx : Context) : Prop := ctx.All (Part.Named X)

theorem lookup_environment (ctx : Context) (y : Name) :
    ctx.environment.lookup y = (ctx.find? fun e => e.name = y).map Entry.reading := by
  induction ctx with
  | nil => rfl
  | cons e ctx ih =>
    rw [environment, List.map_cons, lookup_cons_ite, List.find?_cons]
    by_cases h : y = e.name
    · simp [h]
    · have h' : decide (e.name = y) = false := by simpa using Ne.symm h
      rw [if_neg h, h']
      exact ih

theorem name_of_find {ctx : Context} {e : Entry} {y : Name}
    (h : (ctx.find? fun e => e.name = y) = some e) :
    e.name = y := by
  simpa using List.find?_some h

theorem isAbstract_iff {ctx : Context} {y : Name} :
    ctx.isAbstract y ↔ ∃ e, (ctx.find? fun e => e.name = y) = some e ∧ e.value = none := by
  unfold isAbstract
  cases ctx.find? fun e => e.name = y with
  | none => simp
  | some e => simp

theorem mem_names_of_isAbstract {ctx : Context} {y : Name} (h : ctx.isAbstract y) :
    y ∈ ctx.names := by
  obtain ⟨e, hfind, -⟩ := isAbstract_iff.1 h
  exact List.mem_map.2 ⟨e, List.mem_of_find?_eq_some hfind, name_of_find hfind⟩

/-- A new name hides no parameter. -/
theorem isAbstract_cons {ctx : Context} {e : Entry} {y : Name} (he : e.name ∉ ctx.names)
    (h : ctx.isAbstract y) :
    isAbstract (e :: ctx) y := by
  have hne : decide (e.name = y) = false := by
    simpa using fun heq : e.name = y => he (heq ▸ mem_names_of_isAbstract h)
  unfold isAbstract at h ⊢
  rw [List.find?_cons, hne]
  exact h

end Context

def PatternVariable.All (P : Part → Prop) : PatternVariable → Prop
  | .unsolved a _ => a.All P
  | .solved a v => a.All P ∧ v.All P

namespace PatternVariable.All

variable {P Q : Part → Prop} {p : PatternVariable}

theorem type (h : p.All P) : p.type.All P := by
  cases p with
  | unsolved a scope => exact h
  | solved a v => exact h.1

theorem mono (hPQ : ∀ q, P q → Q q) (h : p.All P) : p.All Q := by
  cases p with
  | unsolved a scope => exact Value.All.mono hPQ h
  | solved a v => exact ⟨h.1.mono hPQ, h.2.mono hPQ⟩

end PatternVariable.All

namespace Solution

variable {s : Solution} {ctx : Context} {P : Part → Prop} {X : Name → Prop}

def All (P : Part → Prop) (s : Solution) : Prop := ∀ m p, s.find m = some p → p.All P

theorem All.keeps (h : s.All P) : s.Keeps P := fun m _ _ hm _ => (h m _ hm).2

def Over (X : Name → Prop) (s : Solution) : Prop := s.All (Part.Named X)

theorem Over.keeps (h : s.Over X) : s.Keeps (Part.Named X) := All.keeps h

theorem lookup_environment (s : Solution) (ctx : Context) (y : Name) :
    (s.environment ctx).lookup y =
      match s.find y with
      | some p => some (p.reading y)
      | none => ctx.environment.lookup y := by
  unfold environment find
  induction s.entries with
  | nil => rfl
  | cons e entries ih =>
    obtain ⟨x, p⟩ := e
    rw [List.map_cons, List.cons_append, lookup_cons_ite, lookup_cons_ite]
    split
    · next h => rw [h]
    · exact ih

/-- The values of the environment have only parts that the solution and the context have, their
variables included. -/
theorem environment_all (hs : s.All P) (hctx : ctx.All P)
    (hpattern : ∀ y, s.isPatternVariable y → P (.name y))
    (hparameter : ∀ y, s.isPatternVariable y = false → ctx.isAbstract y → P (.name y)) {y : Name}
    {w : Value} (h : (s.environment ctx).lookup y = some w) : w.All P := by
  rw [lookup_environment] at h
  cases hfind : s.find y with
  | some p =>
    rw [hfind] at h
    cases h
    have hp := hs y p hfind
    cases p with
    | unsolved a scope =>
      exact Value.all_variable.2 ⟨hp, hpattern y (by simp [isPatternVariable, hfind])⟩
    | solved a v => exact hp.2
  | none =>
    rw [hfind] at h
    simp only [Context.lookup_environment, Option.map_eq_some_iff] at h
    obtain ⟨e, he, rfl⟩ := h
    have hentry := hctx e (List.mem_of_find?_eq_some he)
    unfold Context.Entry.reading
    cases hvalue : e.value with
    | some v => exact hentry.2 v hvalue
    | none =>
      have habstract : ctx.isAbstract y := Context.isAbstract_iff.2 ⟨e, he, hvalue⟩
      rw [Context.name_of_find he]
      exact Value.all_variable.2
        ⟨hentry.1, hparameter y (by simp [isPatternVariable, hfind]) habstract⟩

theorem eval_all (hs : s.All P) (hctx : ctx.All P)
    (hpattern : ∀ y, s.isPatternVariable y → P (.name y))
    (hparameter : ∀ y, s.isPatternVariable y = false → ctx.isAbstract y → P (.name y))
    (hmissing : ∀ y, P (.missing y)) {n : Nat} {t : Term} {v : Value} (ht : t.All P)
    (h : eval n (s.environment ctx) t = .ok v) : v.All P :=
  (AddsNoParts.all P n).eval h
    ⟨ht, fun _ _ _ hw => environment_all hs hctx hpattern hparameter hw, fun y _ _ => hmissing y⟩

end Solution

end DependentClasses
