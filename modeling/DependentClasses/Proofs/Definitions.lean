import DependentClasses.Proofs.Answers

/-! Definitions stay in sight. A label may be defined again and again, but each definition gets a
name of its own, which no pattern variable has or will have. So whatever is run later, the name
stands for the value that it was given. -/
namespace DependentClasses

namespace Context

/-- Where the names are distinct, each of them stands for its own entry. -/
theorem find_of_mem {ctx : Context} (h : ctx.names.Nodup) {e : Entry} (he : e ∈ ctx) :
    (ctx.find? fun d => d.name = e.name) = some e := by
  induction ctx with
  | nil => cases he
  | cons d ctx ih =>
    obtain ⟨hd, hnodup⟩ := List.nodup_cons.1 h
    rw [List.find?_cons]
    rcases List.mem_cons.1 he with rfl | he
    · simp
    · have hne : decide (d.name = e.name) = false := by
        simpa using fun heq : d.name = e.name => hd (List.mem_map.2 ⟨e, he, heq.symm⟩)
      rw [hne]
      exact ih hnodup he

end Context

/-- A statement leaves the context as it is, or it puts a definition in front of it. -/
theorem Statement.run_context {n : Nat} {lexicon : Lexicon} {ctx : Context} {st : Statement}
    {s s' : Solution} {r : Context × Option Answer} (h : (st.run n lexicon ctx).Yields s r s') :
    r.1 = ctx ∧ (∀ label type value, st ≠ .define label type value) ∨
      ∃ label type value a v, st = .define label type value ∧
      r.1 = ctx.define label (s'.freshName ctx label) a v := by
  unfold Statement.run at h
  cases st with
  | define label type value =>
    right
    cases type with
    | some type =>
      simp only [Solver.yields_bind, Solver.yields_freshName, Solver.yields_pure] at h
      obtain ⟨_, _, -, _, _, -, _, _, -, v, _, -, _, _, -, _, _, -, _, _, -, _, _, -, a, _, -, _, _,
        ⟨rfl, rfl⟩, rfl, rfl⟩ := h
      exact ⟨label, some type, value, a, v, rfl, rfl⟩
    | none =>
      simp only [Solver.yields_bind, Solver.yields_freshName, Solver.yields_pure] at h
      obtain ⟨_, _, -, _, _, -, v, _, -, _, _, -, _, _, -, _, _, -, _, _, -, a, _, -, _, _,
        ⟨rfl, rfl⟩, rfl, rfl⟩ := h
      exact ⟨label, none, value, a, v, rfl, rfl⟩
  | check value type =>
    simp only [Solver.yields_bind, Solver.yields_pure] at h
    obtain ⟨_, _, -, _, _, -, _, _, -, _, _, -, _, _, -, rfl, -⟩ := h
    exact .inl ⟨rfl, by simp⟩
  | compute value =>
    simp only [Solver.yields_bind, Solver.yields_pure] at h
    obtain ⟨_, _, -, _, _, -, _, _, -, _, _, -, _, _, -, _, _, -, rfl, -⟩ := h
    exact .inl ⟨rfl, by simp⟩
  | solve unknowns equations =>
    simp only [Solver.yields_bind, Solver.yields_pure] at h
    obtain ⟨_, _, -, _, _, -, _, _, -, rfl, -⟩ := h
    exact .inl ⟨rfl, by simp⟩

namespace Toplevel

variable {m m₁ m' : Toplevel} {n : Nat}

/-- Scopes that come after `m`. Programs are read, and statements are run that succeed; one that
fails leaves the scope as it was. -/
inductive Later (m : Toplevel) : Toplevel → Prop
  | refl : Later m m
  | note {m₁ : Toplevel} (symbols : List String) : Later m m₁ →
      Later m { m₁ with lexicon := m₁.lexicon.noteAll symbols }
  | relist {m₁ : Toplevel} (l : Listing) : Later m m₁ →
      Later m { m₁ with solution := m₁.solution.relist l }
  | answer {m₁ m₂ : Toplevel} {n : Nat} {st : Statement} {a : Option Answer} : Later m m₁ →
      m₁.answer n st = .ok (a, m₂) → Later m m₂

namespace Later

theorem trans (h : m.Later m₁) (h' : m₁.Later m') : m.Later m' := by
  induction h' with
  | refl => exact h
  | note symbols _ ih => exact .note symbols ih
  | relist l _ ih => exact .relist l ih
  | answer _ ha ih => exact .answer ih ha

theorem runAll (m : Toplevel) (n : Nat) (sts : List Statement) : m.Later (m.runAll n sts).2 := by
  induction sts generalizing m with
  | nil => exact .refl
  | cons st sts ih =>
    unfold Toplevel.runAll step
    cases ha : m.answer n st with
    | error t => exact .refl
    | ok r =>
      obtain ⟨a, m₁⟩ := r
      have hlater := (Later.refl.answer ha).trans (ih m₁)
      dsimp only [bind, Except.bind, pure, Except.pure]
      split
      · next hrun => rwa [hrun] at hlater
      · next hrun => rwa [hrun] at hlater

/-- Running a program leads to a later scope, whether it succeeds or not. -/
theorem execute (m : Toplevel) (n : Nat) (source : String) : m.Later (m.execute n source).2 := by
  unfold Toplevel.execute
  dsimp only
  split
  · exact .note _ .refl
  · exact (Later.note _ .refl).trans (runAll _ n _)

theorem reachable (h : m.Later m') (hm : m.Reachable) : m'.Reachable := by
  induction h with
  | refl => exact hm
  | note symbols _ ih => exact ih.note symbols
  | relist l _ ih => exact ih.relist l
  | answer _ ha ih => exact ih.answer ha

end Later

/-- Every entry is a definition with a name of its own, which is not that of a pattern variable. -/
structure Separate (m : Toplevel) : Prop where
  nodup : m.context.names.Nodup
  notPattern : ∀ x ∈ m.context.names, m.solution.find x = none
  defined : ∀ e ∈ m.context, ∃ v, e.value = some v

namespace Separate

/-- A statement that succeeds picks names that are not in use, for its pattern variables and for
what it defines. -/
theorem answer (h : m.Separate) (hm : m.Reachable) {st : Statement} {a : Option Answer}
    (ha : m.answer n st = .ok (a, m')) : m'.Separate := by
  obtain ⟨hrun, -⟩ := answer_eq_ok ha
  obtain ⟨hgrows, -⟩ := Statement.run_coherent hrun hm.coherent
  have hold : ∀ x ∈ m.context.names, m'.solution.find x = none := fun x hx =>
    Option.eq_none_iff_forall_ne_some.2 fun q hq =>
      hgrows.fresh x q hq (h.notPattern x hx) (List.mem_append_left _ hx)
  rcases Statement.run_context hrun with ⟨hctx, -⟩ | ⟨label, type, value, b, v, -, hctx⟩
  · dsimp only at hctx
    exact ⟨hctx ▸ h.nodup, hctx ▸ hold, hctx ▸ h.defined⟩
  · dsimp only at hctx
    have hfresh := m'.solution.freshName_not_mem m.context label
    have hnew : m'.solution.find (m'.solution.freshName m.context label) = none :=
      hgrows.sound.find_eq_none fun hmem => hfresh (List.mem_append_right _ hmem)
    constructor
    · rw [hctx]
      exact List.nodup_cons.2 ⟨fun hmem => hfresh (List.mem_append_left _ hmem), h.nodup⟩
    · rw [hctx]
      exact List.forall_mem_cons.2 ⟨hnew, hold⟩
    · rw [hctx]
      exact List.forall_mem_cons.2 ⟨⟨v, rfl⟩, h.defined⟩

/-- The name of a definition stands for its value. -/
theorem lookup (h : m.Separate) {e : Context.Entry} (he : e ∈ m.context) {v : Value}
    (hv : e.value = some v) :
    (m.solution.environment m.context).lookup e.name = some v := by
  rw [Solution.lookup_environment, h.notPattern e.name (List.mem_map.2 ⟨e, he, rfl⟩)]
  simp [Context.lookup_environment, Context.find_of_mem h.nodup he, Context.Entry.reading, hv]

end Separate

theorem Reachable.separate (h : m.Reachable) : m.Separate := by
  induction h with
  | start => exact ⟨.nil, by simp [Context.names], by simp⟩
  | note symbols _ ih => exact ⟨ih.nodup, ih.notPattern, ih.defined⟩
  | relist l _ ih => exact ⟨ih.nodup, ih.notPattern, ih.defined⟩
  | answer hm ha ih => exact ih.answer hm ha

/-- No definition is ever taken back. -/
theorem Later.mem_context (h : m.Later m') {e : Context.Entry} (he : e ∈ m.context) :
    e ∈ m'.context := by
  induction h with
  | refl => exact he
  | note symbols _ ih => exact ih
  | relist l _ ih => exact ih
  | answer _ ha ih =>
    rcases Statement.run_context (answer_eq_ok ha).1 with ⟨hctx, -⟩ | ⟨label, type,
      value, b, v, -, hctx⟩
    · dsimp only at hctx
      rwa [hctx]
    · dsimp only at hctx
      rw [hctx]
      exact List.mem_cons_of_mem _ ih

/-- What a definition was given, its name stands for in every later scope. -/
theorem Later.lookup (h : m.Later m') (hm : m.Reachable) {e : Context.Entry}
    (he : e ∈ m.context) {v : Value} (hv : e.value = some v) :
    (m'.solution.environment m'.context).lookup e.name = some v :=
  (h.reachable hm).separate.lookup (h.mem_context he) hv

/-- A definition that succeeds is found under its label, and nothing else is added to the scope. -/
theorem exists_entry_of_define {label : Name} {type : Option Expr} {value : Expr}
    {a : Option Answer} (h : m.answer n (.define label type value) = .ok (a, m₁)) :
    ∃ e v, m₁.context = e :: m.context ∧ e.label = label ∧ e.value = some v ∧
      m₁.lookup label = some v := by
  rcases Statement.run_context (answer_eq_ok h).1 with ⟨-, hother⟩ | ⟨label', type', value',
    b, v, heq, hctx⟩
  · exact absurd rfl (hother label type value)
  · cases heq
    dsimp only at hctx
    refine ⟨_, v, hctx, rfl, rfl, ?_⟩
    simp [Toplevel.lookup, Context.find, hctx, Context.define]

end Toplevel

/-- Definitions are never shadowed. In every scope that programs lead to, the names of the entries
are distinct and none of them is a pattern variable; and the name of every definition, be it one of
the scope or one that is made there, stands for the value it was given in that scope and in every
later one. -/
theorem definitions_never_shadowed {m : Toplevel} (h : m.Reachable) :
    m.context.names.Nodup ∧ (∀ x ∈ m.context.names, m.solution.isPatternVariable x = false) ∧
    (∀ e ∈ m.context, ∃ v, e.value = some v ∧
      ∀ m', m.Later m' → (m'.solution.environment m'.context).lookup e.name = some v) ∧
    ∀ n label type value a m₁, m.answer n (.define label type value) = .ok (a, m₁) →
      ∃ e v, m₁.context = e :: m.context ∧ e.label = label ∧ e.value = some v ∧
        m₁.lookup label = some v ∧
        ∀ m', m₁.Later m' → (m'.solution.environment m'.context).lookup e.name = some v := by
  have hseparate := h.separate
  refine ⟨hseparate.nodup, fun x hx => ?_, fun e he => ?_, fun n label type value a m₁ ha => ?_⟩
  · simp [Solution.isPatternVariable, hseparate.notPattern x hx]
  · obtain ⟨v, hv⟩ := hseparate.defined e he
    exact ⟨v, hv, fun m' hlater => hlater.lookup h he hv⟩
  · obtain ⟨e, v, hctx, hlabel, hv, hlookup⟩ := Toplevel.exists_entry_of_define ha
    have hmem : e ∈ m₁.context := hctx ▸ List.mem_cons_self
    exact ⟨e, v, hctx, hlabel, hv, hlookup, fun m' hlater => hlater.lookup (h.answer ha) hmem hv⟩

namespace Redefined

def x : Name := ⟨"x", 0⟩

def program : String := "let x = \"a\"\nsolve (x: String) \x7bx = \"b\"\x7d\nlet x = \"c\""

def scope : Toplevel := (Toplevel.execute 30 {} program).2

def found : List (Name × Option String) :=
  (scope.context.names ++ scope.solution.names).map fun y =>
    (y, match (scope.solution.environment scope.context).lookup y with
      | some (.quote text) => some text
      | _ => none)

end Redefined

open Redefined in
/-- Two definitions and a pattern variable under one label: each has its own name, and all names
stand for what they were given. Whatever program is run next, the first definition does so still. -/
theorem redefined_label_kept :
    found = [(⟨"x", 2⟩, some "c"), (x, some "a"), (⟨"x", 1⟩, some "b")] ∧ scope.Reachable ∧
      scope.context.names.Nodup ∧ ∃ e ∈ scope.context, ∃ v, e.name = x ∧ e.value = some v ∧
        ∀ n source m', m' = (scope.execute n source).2 →
        (m'.solution.environment m'.context).lookup x = some v := by
  have hfound : found = [(⟨"x", 2⟩, some "c"), (x, some "a"), (⟨"x", 1⟩, some "b")] := by
    decide +kernel
  have hreachable : scope.Reachable := Toplevel.Reachable.start.execute 30 program
  have hnames : x ∈ scope.context.names := by decide +kernel
  obtain ⟨hnodup, -, hkept, -⟩ := definitions_never_shadowed hreachable
  obtain ⟨e, he, hname⟩ := List.mem_map.1 hnames
  obtain ⟨v, hv, hlater⟩ := hkept e he
  refine ⟨hfound, hreachable, hnodup, e, he, v, hname, hv, fun n source m' hm' => ?_⟩
  rw [hm', ← hname]
  exact hlater _ (.execute scope n source)

end DependentClasses
