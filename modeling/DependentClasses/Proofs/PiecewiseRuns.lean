import DependentClasses.Proofs.JoinedSources
import DependentClasses.Proofs.PlaceIndependence
import DependentClasses.Proofs.TidyPrograms

/-! A program may be run in pieces. Its statements do the same wherever they stand in their sources
and whatever symbols were read before, so two sources that are run one after the other do what they
do when they are joined. -/
namespace DependentClasses

open Solver (Agrees)

section
variable (f : Nat → Nat) (n : Nat)

/-- The lexicon tells which pattern variable is named, not whether there is one. -/
theorem ensureResolved_agrees (l l' : Lexicon) (t : Term) :
    (ensureResolved l' t).Agrees (ensureResolved l t) := by
  refine .bind (.refl _) fun s => ?_
  cases h : s.unsolvedIn t with
  | nil =>
    simp only [Solution.unsolvedNames, h]
    exact .refl _
  | cons x xs =>
    have hne (l : Lexicon) : ∃ y ys, s.unsolvedNames l t = y :: ys := by
      refine List.exists_cons_of_ne_nil fun hnil => ?_
      cases h.symm.trans (Lexicon.sort_eq_nil_iff.1 hnil)
    obtain ⟨y, ys, hl⟩ := hne l
    obtain ⟨y', ys', hl'⟩ := hne l'
    rw [hl, hl']
    exact .refuse _ _

namespace Equation

theorem solve_agrees (ctx : Context) (e : Equation) :
    ((moved f e).solve n ctx).Agrees (e.solve n ctx) := by
  have h := ElaboratesAlike.all f n
  obtain ⟨_ | type, left, right⟩ := e
  · refine .bind (h.infer ctx left) fun _ => .bind (h.infer ctx right) fun _ => .refl _
  · refine .bind (h.checkType ctx type) fun _ => .bind (h.check ctx left _) fun _ => ?_
    exact .bind (h.check ctx right _) fun _ => .refl _

theorem solveAll_agrees (ctx : Context) (index : Nat) (es : List Equation) :
    (solveAll n ctx index (moved f es)).Agrees (solveAll n ctx index es) := by
  induction es generalizing index with
  | nil => exact .refl _
  | cons e es ih => exact .bind (.within (solve_agrees f n ctx e) _) fun _ => ih (index + 1)

end Equation

theorem bindUnknowns_agrees (ctx : Context) (unknowns : List (Name × Expr)) :
    (bindUnknowns n ctx (moved f unknowns)).Agrees (bindUnknowns n ctx unknowns) := by
  induction unknowns generalizing ctx with
  | nil => exact .refl _
  | cons p unknowns ih =>
    refine .bind ((ElaboratesAlike.all f n).checkType ctx p.2) fun _ => .bind (.refl _) fun _ =>
      .bind (.refl _) fun _ => ?_
    exact .bind (ih _) fun _ => .refl _

/-- A statement does the same at another place and with another lexicon. -/
theorem Statement.run_agrees (l l' : Lexicon) (ctx : Context) (st : Statement) :
    ((moved f st).run n l' ctx).Agrees (st.run n l ctx) := by
  have h := ElaboratesAlike.all f n
  have hresolved := ensureResolved_agrees l l'
  cases st with
  | define label type value =>
    cases type with
    | some type =>
      exact .bind (h.checkType ctx type) fun _ => .bind (h.check ctx value _) fun _ =>
          .bind (.refl _) fun _ =>
        .bind (.refl _) fun _ => .bind (.refl _) fun u => .bind (hresolved u) fun _ =>
        .bind (.refl _) fun w => .bind (hresolved w) fun _ => .refl _
    | none =>
      exact .bind (h.infer ctx value) fun _ => .bind (.refl _) fun _ =>
        .bind (.refl _) fun _ => .bind (.refl _) fun u => .bind (hresolved u) fun _ =>
        .bind (.refl _) fun w => .bind (hresolved w) fun _ => .refl _
  | check value type =>
    exact .bind (h.checkType ctx type) fun _ => .bind (h.check ctx value _) fun _ =>
        .bind (.refl _) fun _ =>
      .bind (.refl _) fun w => .bind (hresolved w) fun _ => .refl _
  | compute value =>
    exact .bind (h.infer ctx value) fun _ => .bind (.refl _) fun _ => .bind (.refl _) fun t =>
      .bind (.refl _) fun u => .bind (hresolved t) fun _ => .bind (hresolved u) fun _ => .refl _
  | solve unknowns equations =>
    refine .bind (bindUnknowns_agrees f n ctx unknowns) fun r =>
      .bind (Equation.solveAll_agrees f n r.1 0 equations) fun _ => ?_
    have hread {g g' : Name × Value → Solver (Name × Term)} (hg : ∀ p, (g' p).Agrees (g p)) :
        (r.2.mapM g').Agrees (r.2.mapM g) := by
      simpa only [List.map_id] using Agrees.mapM (m := id) hg r.2
    exact .bind (hread fun _ => .bind (.refl _) fun t => .bind (hresolved t) fun _ =>
      .refl _) fun _ => .refl _

end

namespace Toplevel

variable {m m₁ m' : Toplevel} {n : Nat}

def withLexicon (m : Toplevel) (l : Lexicon) : Toplevel := { m with lexicon := l }

theorem solve_withLexicon {α : Type} {x y : Solver α} (h : x.Agrees y)
    (m : Toplevel) (l : Lexicon) :
    ((m.withLexicon l).solve x).toOption = (m.solve y).toOption.map fun r =>
      (r.1, r.2.withLexicon l) := by
  have hs := h m.solution
  unfold Solver.outline at hs
  have hsolution : (m.withLexicon l).solution = m.solution := rfl
  unfold solve
  rw [hsolution]
  generalize x.run.run m.solution = r at hs ⊢
  generalize y.run.run m.solution = r' at hs ⊢
  obtain _ | ⟨_ | a, s⟩ := r <;> obtain _ | ⟨_ | a', s'⟩ := r' <;> cases hs <;> rfl

theorem step_withLexicon (f : Nat → Nat) (n : Nat) (m : Toplevel) (l : Lexicon) (st : Statement) :
    ((m.withLexicon l).step n (moved f st)).toOption = (m.step n st).toOption.map fun r =>
      (r.1, r.2.withLexicon l) := by
  have h := solve_withLexicon (Statement.run_agrees f n m.lexicon l m.context st) m l
  have hlexicon : (m.withLexicon l).lexicon = l := rfl
  have hcontext : (m.withLexicon l).context = m.context := rfl
  unfold step answer
  rw [hlexicon, hcontext]
  generalize (m.withLexicon l).solve _ = r at h ⊢
  generalize m.solve _ = r' at h ⊢
  obtain _ | r := r <;> obtain _ | r' := r' <;> cases h <;> rfl

theorem toOption_map {α β ε : Type} (g : α → β) (x : Except ε α) :
    (x.map g).toOption = x.toOption.map g := by
  cases x <;> rfl

theorem runAll_cons (n : Nat) (m : Toplevel) (st : Statement) (sts : List Statement) :
    m.runAll n (st :: sts) =
      match m.step n st with
      | .error t => (.error t, m)
      | .ok (o, m₁) => ((m₁.runAll n sts).1.map (o.toList ++ ·), (m₁.runAll n sts).2) := by
  rw [runAll]
  cases m.step n st with
  | error t => rfl
  | ok r =>
    dsimp only
    generalize r.2.runAll n sts = r'
    obtain ⟨_ | os, m₂⟩ := r' <;> rfl

/-- Statements that stand at other places and are run with another lexicon lead to the same scope.
They print the same, unless one of them fails. -/
theorem runAll_withLexicon (f : Nat → Nat) (n : Nat) (m : Toplevel) (l : Lexicon)
    (sts : List Statement) :
    ((m.withLexicon l).runAll n (moved f sts)).1.toOption = (m.runAll n sts).1.toOption ∧
      ((m.withLexicon l).runAll n (moved f sts)).2 = (m.runAll n sts).2.withLexicon l := by
  induction sts generalizing m with
  | nil => exact ⟨rfl, rfl⟩
  | cons st sts ih =>
    have hstep := step_withLexicon f n m l st
    rw [moved_cons, runAll_cons, runAll_cons]
    generalize (m.withLexicon l).step n (moved f st) = r at hstep ⊢
    generalize m.step n st = r' at hstep ⊢
    obtain _ | ⟨o, m₁⟩ := r <;> obtain _ | ⟨o', m₁'⟩ := r' <;> cases hstep
    · exact ⟨rfl, rfl⟩
    · obtain ⟨houtputs, hscope⟩ := ih m₁'
      exact ⟨(toOption_map _ _).trans ((congrArg _ houtputs).trans (toOption_map _ _).symm), hscope⟩

theorem lexicon_step {st : Statement} {o : Option String} (h : m.step n st = .ok (o, m')) :
    m'.lexicon = m.lexicon := by
  rw [step_eq] at h
  cases ha : m.answer n st with
  | error t => rw [ha] at h; cases h
  | ok r =>
    rw [ha] at h
    cases h
    exact (answer_eq_ok ha).2

theorem lexicon_runAll (n : Nat) (m : Toplevel) (sts : List Statement) :
    (m.runAll n sts).2.lexicon = m.lexicon := by
  induction sts generalizing m with
  | nil => rfl
  | cons st sts ih =>
    rw [runAll_cons]
    cases hstep : m.step n st with
    | error t => rfl
    | ok r => exact (ih r.2).trans (lexicon_step hstep)

theorem withLexicon_lexicon (m : Toplevel) : m.withLexicon m.lexicon = m := rfl

theorem runAll_moved (f : Nat → Nat) (n : Nat) (m : Toplevel) (sts : List Statement) :
    (m.runAll n (moved f sts)).1.toOption = (m.runAll n sts).1.toOption ∧
      (m.runAll n (moved f sts)).2 = (m.runAll n sts).2 := by
  have h := runAll_withLexicon f n m m.lexicon sts
  rwa [← lexicon_runAll n m sts, withLexicon_lexicon, lexicon_runAll, withLexicon_lexicon] at h

/-- Statements run one after another: first some, and then the others in the scope that these lead
to. -/
theorem runAll_append (n : Nat) (m : Toplevel) (sts sts' : List Statement) :
    m.runAll n (sts ++ sts') =
      match m.runAll n sts with
      | (.ok os, m₁) => ((m₁.runAll n sts').1.map (os ++ ·), (m₁.runAll n sts').2)
      | (.error t, m₁) => (.error t, m₁) := by
  induction sts generalizing m with
  | nil =>
    rw [List.nil_append, runAll]
    simp only [List.nil_append]
    exact Prod.ext (congrFun Except.map_id _).symm rfl
  | cons st sts ih =>
    rw [List.cons_append, runAll_cons, runAll_cons]
    cases m.step n st with
    | error t => rfl
    | ok r =>
      dsimp only
      rw [ih]
      generalize r.2.runAll n sts = r₁
      obtain ⟨_ | os, m₁⟩ := r₁
      · rfl
      · dsimp only [Except.map]
        generalize m₁.runAll n sts' = r₂
        obtain ⟨_ | os', m₂⟩ := r₂
        · rfl
        · simp

/-- A run fails if one of the statements does. The scope is then that after the statements before
it. -/
theorem runAll_eq_error_iff {sts : List Statement} {t : Trouble} :
    m.runAll n sts = (.error t, m') ↔
      ∃ before st after os, sts = before ++ st :: after ∧ m.runAll n before = (.ok os, m') ∧
      m'.step n st = .error t := by
  constructor
  · intro h
    induction sts generalizing m with
    | nil => cases h
    | cons st sts ih =>
      rw [runAll_cons] at h
      cases hstep : m.step n st with
      | error t' =>
        rw [hstep] at h
        cases h
        exact ⟨[], st, sts, [], rfl, rfl, hstep⟩
      | ok r =>
        rw [hstep] at h
        have hrest : r.2.runAll n sts = (.error t, m') := by
          dsimp only at h
          generalize r.2.runAll n sts = r' at h
          obtain ⟨_ | os, m₂⟩ := r' <;> cases h
          rfl
        obtain ⟨before, st', after, os, rfl, hbefore, hst'⟩ := ih hrest
        refine ⟨st :: before, st', after, r.1.toList ++ os, rfl, ?_, hst'⟩
        rw [runAll_cons, hstep]
        dsimp only
        rw [hbefore]
        rfl
  · rintro ⟨before, st, after, os, rfl, hbefore, hst⟩
    rw [runAll_append, hbefore]
    dsimp only
    rw [runAll_cons, hst]
    rfl

theorem execute_eq {source : String} {sts : List Statement}
    (h : (Statement.listOfSource source).outcome = .ok sts) (n : Nat) (m : Toplevel) :
    m.execute n source = (m.note (Statement.listOfSource source)).runAll n sts := by
  unfold execute
  simp only [h]

theorem note_eq_note_note {α : Type} {m : Toplevel} {r r₁ r₂ : Reading α}
    (h : m.lexicon.noteAll r.symbols = (m.lexicon.noteAll r₁.symbols).noteAll r₂.symbols) :
    m.note r = (m.note r₁).note r₂ := by
  unfold note
  rw [h]

/-- Statements do the same if the symbols of another source are noted before they are run. -/
theorem runAll_note {α : Type} (r : Reading α) (n : Nat) (m : Toplevel) (sts : List Statement) :
    ((m.note r).runAll n sts).1.toOption = (m.runAll n sts).1.toOption ∧
      ((m.note r).runAll n sts).2 = (m.runAll n sts).2.note r := by
  obtain ⟨houtputs, hscope⟩ := runAll_withLexicon id n m (m.note r).lexicon sts
  rw [moved_id, show m.withLexicon (m.note r).lexicon = m.note r from rfl] at houtputs hscope
  refine ⟨houtputs, hscope.trans ?_⟩
  unfold note withLexicon
  rw [lexicon_runAll n m sts]

section
variable {s₁ s₂ : String} {sts₁ sts₂ : List Statement}

theorem note_join (h₁ : (Statement.listOfSource s₁).outcome = .ok sts₁)
    (h₂ : (Statement.listOfSource s₂).outcome = .ok sts₂) (m : Toplevel) :
      m.note (Statement.listOfSource (s₁ ++ "\n" ++ s₂)) =
      (m.note (Statement.listOfSource s₁)).note (Statement.listOfSource s₂) :=
  note_eq_note_note (Statement.listOfSource_join h₁ h₂ m.lexicon).2

/-- The statements of the joined source do what those of its parts do. -/
theorem execute_join (h₁ : (Statement.listOfSource s₁).outcome = .ok sts₁)
    (h₂ : (Statement.listOfSource s₂).outcome = .ok sts₂) (n : Nat) (m : Toplevel) :
    match m.execute n s₁ with
    | (.ok o₁, m₁) =>
      (m.execute n (s₁ ++ "\n" ++ s₂)).1.toOption = (m₁.execute n s₂).1.toOption.map (o₁ ++ ·) ∧
        (m.execute n (s₁ ++ "\n" ++ s₂)).2 = (m₁.execute n s₂).2
    | (.error _, m₁) =>
      (m.execute n (s₁ ++ "\n" ++ s₂)).1.toOption = none ∧
        (m.execute n (s₁ ++ "\n" ++ s₂)).2 = m₁.note (Statement.listOfSource s₂) := by
  rw [execute_eq (Statement.listOfSource_join h₁ h₂ m.lexicon).1, note_join h₁ h₂,
    runAll_append, execute_eq h₁]
  generalize m.note (Statement.listOfSource s₁) = m₀
  obtain ⟨houtputs, hscope⟩ := runAll_note (Statement.listOfSource s₂) n m₀ sts₁
  generalize (m₀.note (Statement.listOfSource s₂)).runAll n sts₁ = r at houtputs hscope ⊢
  generalize m₀.runAll n sts₁ = r' at houtputs hscope ⊢
  obtain ⟨outputs, m₁⟩ := r
  obtain ⟨outputs', m₁'⟩ := r'
  subst hscope
  cases outputs <;> cases outputs' <;> cases houtputs
  · exact ⟨rfl, rfl⟩
  · dsimp only
    rw [execute_eq h₂, toOption_map]
    obtain ⟨houtputs, hscope⟩ :=
      runAll_moved (· + (s₁.utf8ByteSize + 1)) n (m₁'.note (Statement.listOfSource s₂)) sts₂
    exact ⟨congrArg _ houtputs, hscope⟩

end

end Toplevel

/-- A source may be cut into pieces. The two pieces, one below the other, have the statements of
both, the second ones moved behind the first ones, and the same symbols are noted in the same order.
What the pieces print when they are run one after the other is what both print together, and they
lead to the same scope. If a statement fails, in one of the pieces and so in the whole, the
definitions and the solution are those after the statements before it. -/
theorem pieces_run_as_whole {s₁ s₂ : String} {sts₁ sts₂ : List Statement}
    (h₁ : (Statement.listOfSource s₁).outcome = .ok sts₁)
    (h₂ : (Statement.listOfSource s₂).outcome = .ok sts₂) (n : Nat) (m : Toplevel) :
    (Statement.listOfSource (s₁ ++ "\n" ++ s₂)).outcome =
      .ok (sts₁ ++ sts₂.map (moved (· + (s₁.utf8ByteSize + 1)))) ∧
    m.note (Statement.listOfSource (s₁ ++ "\n" ++ s₂)) =
      (m.note (Statement.listOfSource s₁)).note (Statement.listOfSource s₂) ∧
    (∀ o₁ o₂ m₁ m₂, m.execute n s₁ = (.ok o₁, m₁) → m₁.execute n s₂ = (.ok o₂, m₂) →
      m.execute n (s₁ ++ "\n" ++ s₂) = (.ok (o₁ ++ o₂), m₂)) ∧
    (∀ o₁ t m₁ m₂, m.execute n s₁ = (.ok o₁, m₁) → m₁.execute n s₂ = (.error t, m₂) →
      ∃ t', m.execute n (s₁ ++ "\n" ++ s₂) = (.error t', m₂)) ∧
    (∀ t m₁, m.execute n s₁ = (.error t, m₁) →
      ∃ t' m', m.execute n (s₁ ++ "\n" ++ s₂) = (.error t', m') ∧ m'.context = m₁.context ∧
      m'.solution = m₁.solution) ∧
    ∀ t m', m.execute n (s₁ ++ "\n" ++ s₂) = (.error t, m') ↔
      ∃ before st after os, sts₁ ++ sts₂.map (moved (· + (s₁.utf8ByteSize + 1))) =
        before ++ st :: after ∧
        (m.note (Statement.listOfSource (s₁ ++ "\n" ++ s₂))).runAll n before = (.ok os, m') ∧
        m'.step n st = .error t := by
  have hread := (Statement.listOfSource_join h₁ h₂ m.lexicon).1
  have hjoin := Toplevel.execute_join h₁ h₂ n m
  refine ⟨hread, Toplevel.note_join h₁ h₂ m, ?_, ?_, ?_, fun t m' => ?_⟩
  · intro o₁ o₂ m₁ m₂ hfirst hsecond
    rw [hfirst] at hjoin
    dsimp only at hjoin
    rw [hsecond] at hjoin
    generalize m.execute n (s₁ ++ "\n" ++ s₂) = r at hjoin ⊢
    obtain ⟨_ | o, m'⟩ := r <;> obtain ⟨houtputs, rfl⟩ := hjoin <;> cases houtputs
    rfl
  · intro o₁ t m₁ m₂ hfirst hsecond
    rw [hfirst] at hjoin
    dsimp only at hjoin
    rw [hsecond] at hjoin
    generalize m.execute n (s₁ ++ "\n" ++ s₂) = r at hjoin ⊢
    obtain ⟨t' | o, m'⟩ := r <;> obtain ⟨houtputs, rfl⟩ := hjoin <;> cases houtputs
    exact ⟨t', rfl⟩
  · intro t m₁ hfirst
    rw [hfirst] at hjoin
    generalize m.execute n (s₁ ++ "\n" ++ s₂) = r at hjoin ⊢
    obtain ⟨t' | o, m'⟩ := r <;> obtain ⟨houtputs, rfl⟩ := hjoin <;> cases houtputs
    exact ⟨t', _, rfl, rfl, rfl⟩
  · rw [Toplevel.execute_eq hread]
    exact Toplevel.runAll_eq_error_iff

namespace CommentedPiece

/-- A piece that ends within a comment, and so has to be followed by a line break. -/
def definition : String := "let f: String -> String = (x) => x // and so on"

/-- The application would be read as a part of the definition, had it no keyword in front. -/
def application : String := "compute (f)(\"a\")"

theorem exists_statements (source : String)
    (h : (Statement.listOfSource source).outcome.toOption.isSome) :
    ∃ sts, (Statement.listOfSource source).outcome = .ok sts := by
  cases hr : (Statement.listOfSource source).outcome with
  | error e => rw [hr] at h; cases h
  | ok sts => exact ⟨sts, rfl⟩

theorem exists_scope (m : Toplevel) (source : String) (os : List String)
    (h : (m.execute 40 source).1.toOption = some os) :
    ∃ m', m.execute 40 source = (.ok os, m') := by
  generalize m.execute 40 source = r at h ⊢
  obtain ⟨_ | os', m'⟩ := r <;> cases h
  exact ⟨m', rfl⟩

end CommentedPiece

open CommentedPiece in
/-- A definition with a comment, and below it an application. -/
theorem commented_piece_runs_as_whole : ∃ sts₁ sts₂ m₁ m₂,
    (Statement.listOfSource definition).outcome = .ok sts₁ ∧
    (Statement.listOfSource application).outcome = .ok sts₂ ∧
    ({} : Toplevel).execute 40 definition = (.ok [], m₁) ∧
    m₁.execute 40 application = (.ok ["\"a\": String"], m₂) ∧
    ({} : Toplevel).execute 40 (definition ++ "\n" ++ application) =
    (.ok ["\"a\": String"], m₂) := by
  obtain ⟨sts₁, h₁⟩ := exists_statements definition (by decide +kernel)
  obtain ⟨sts₂, h₂⟩ := exists_statements application (by decide +kernel)
  obtain ⟨m₁, hm₁⟩ := exists_scope {} definition [] (by decide +kernel)
  have hm₁' : (({} : Toplevel).execute 40 definition).2 = m₁ := by rw [hm₁]
  obtain ⟨m₂, hm₂⟩ := exists_scope m₁ application ["\"a\": String"] (by rw [← hm₁']; decide +kernel)
  exact ⟨sts₁, sts₂, m₁, m₂, h₁, h₂, hm₁, hm₂,
    (pieces_run_as_whole h₁ h₂ 40 {}).2.2.1 _ _ _ _ hm₁ hm₂⟩

end DependentClasses
