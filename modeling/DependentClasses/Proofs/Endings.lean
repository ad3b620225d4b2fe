import DependentClasses.Elaboration
import Mathlib.Tactic.Common

/-! How computations end. A computation finds something, ends in a fault or uses up its fuel; a
check may be refused as well, and leaves a solution behind. What is said about all of this at once
is put together along the text of a computation, by one rule for each way to combine two of them. -/
namespace DependentClasses

namespace Eval

variable {F : Fault → Prop} {α β : Type} {x : Eval α} {Q R : α → Prop}

/-- The computation finds something as `Q` says, ends in a fault as `F` says, or uses up its
fuel. -/
def Ends (F : Fault → Prop) (x : Eval α) (Q : α → Prop) : Prop :=
  match x with
  | .ok a => Q a
  | .error (.fault cause) => F cause
  | .error .outOfFuel => True

namespace Ends

theorem pure {a : α} (h : Q a) : Ends F (Pure.pure a) Q := h

theorem outOfFuel : Ends F (Eval.outOfFuel : Eval α) Q := True.intro

theorem fault {cause : Fault} (h : F cause) : Ends F (Eval.fault cause : Eval α) Q := h

theorem bind {f : α → Eval β} {S : β → Prop} (h : Ends F x Q) (hf : ∀ a, Q a → Ends F (f a) S) :
    Ends F (x >>= f) S := by
  match x, h with
  | .ok a, h => exact hf a h
  | .error (.fault _), h => exact h
  | .error .outOfFuel, _ => exact True.intro

theorem imp {G : Fault → Prop} (h : Ends F x Q) (hFG : ∀ cause, F cause → G cause)
    (hQR : ∀ a, Q a → R a) :
    Ends G x R := by
  match x, h with
  | .ok a, h => exact hQR a h
  | .error (.fault cause), h => exact hFG cause h
  | .error .outOfFuel, _ => exact True.intro

theorem mono (h : Ends F x Q) (hQR : ∀ a, Q a → R a) : Ends F x R := h.imp (fun _ => id) hQR

theorem map {f : α → β} {S : β → Prop} (h : Ends F x Q) (hf : ∀ a, Q a → S (f a)) :
    Ends F (f <$> x) S := by
  match x, h with
  | .ok a, h => exact hf a h
  | .error (.fault _), h => exact h
  | .error .outOfFuel, _ => exact True.intro

/-- What is known of a result for another reason is known of it here. -/
theorem and_of_ok (h : Ends F x Q) (hR : ∀ a, x = .ok a → R a) : Ends F x fun a => Q a ∧ R a := by
  match x, h with
  | .ok a, h => exact ⟨h, hR a rfl⟩
  | .error (.fault _), h => exact h
  | .error .outOfFuel, _ => exact True.intro

theorem mapM {f : α → Eval β} {S : β → Prop} {xs : List α} (h : ∀ a ∈ xs, Ends F (f a) S) :
    Ends F (xs.mapM f) fun bs => ∀ b ∈ bs, S b := by
  induction xs with
  | nil =>
    rw [List.mapM_nil]
    exact .pure (by simp)
  | cons a xs ih =>
    rw [List.mapM_cons]
    refine bind (h a List.mem_cons_self) fun b hb => ?_
    refine bind (ih fun a ha => h a (List.mem_cons_of_mem _ ha)) fun bs hbs => ?_
    exact .pure (List.forall_mem_cons.2 ⟨hb, hbs⟩)

end Ends

end Eval

/-- What computations are held to: the solutions that they start from and leave behind, the faults
that they may end in, and the failures that they may be refused with. -/
structure Discipline where
  solution : Solution → Prop
  fault : Fault → Prop
  failure : Failure → Prop

section

variable {D : Discipline} {α β : Type}

/-- The check was passed and found something as `Q` says, or it was refused with a failure that may
be. -/
def Discipline.Allows (D : Discipline) (Q : α → Prop) : Except Failure α → Prop
  | .ok a => Q a
  | .error f => D.failure f

namespace Verdict

def Ends (D : Discipline) (x : Verdict α) (Q : α → Prop) : Prop :=
  Eval.Ends D.fault x.run (D.Allows Q)

namespace Ends

variable {x : Verdict α} {Q : α → Prop} {S : β → Prop}

theorem pure {a : α} (h : Q a) : Ends D (Pure.pure a) Q := h

theorem lift {e : Eval α} (h : e.Ends D.fault Q) : Ends D (liftM e) Q := by
  match e, h with
  | .ok _, h => exact h
  | .error (.fault _), h => exact h
  | .error .outOfFuel, _ => exact True.intro

theorem refuse {cause : Cause} (h : D.failure ⟨cause, none, []⟩) :
    Ends D (DependentClasses.refuse cause) Q := h

theorem bind {f : α → Verdict β} (h : x.Ends D Q) (hf : ∀ a, Q a → (f a).Ends D S) :
    Ends D (x >>= f) S := by
  refine Eval.Ends.bind h fun r hr => ?_
  cases r with
  | error f => exact hr
  | ok a => exact hf a hr

theorem forM {γ : Type} {g : γ → Verdict PUnit} {xs : List γ}
    (h : ∀ c ∈ xs, (g c).Ends D fun _ => True) :
    Ends D (xs.forM g) fun _ => True := by
  induction xs with
  | nil => exact pure True.intro
  | cons c xs ih =>
    exact bind (h c List.mem_cons_self) fun _ _ => ih fun d hd => h d (List.mem_cons_of_mem c hd)

end Ends

end Verdict

namespace Solver

def EndsFrom (D : Discipline) (s : Solution) (x : Solver α) (Q : α → Prop) : Prop :=
  Eval.Ends D.fault (x.run.run s) fun r => D.solution r.2 ∧ D.Allows Q r.1

/-- From every solution that it may start from, the check ends as it is held to. -/
def Ends (D : Discipline) (x : Solver α) (Q : α → Prop) : Prop :=
  ∀ s, D.solution s → x.EndsFrom D s Q

variable {x : Solver α} {Q R : α → Prop} {S : β → Prop}

namespace EndsFrom

variable {s : Solution}

theorem of_ok (h : x.EndsFrom D s Q) {a : α} {s' : Solution} (hx : x.run.run s = .ok (.ok a, s')) :
    D.solution s' ∧ Q a := by
  rw [EndsFrom, hx] at h
  exact h

theorem of_refused (h : x.EndsFrom D s Q) {f : Failure} {s' : Solution}
    (hx : x.run.run s = .ok (.error f, s')) :
    D.solution s' ∧ D.failure f := by
  rw [EndsFrom, hx] at h
  exact h

theorem pure {a : α} (hs : D.solution s) (h : Q a) : EndsFrom D s (Pure.pure a) Q := ⟨hs, h⟩

theorem bind {f : α → Solver β} (h : x.EndsFrom D s Q) (hf : ∀ a, Q a → (f a).Ends D S) :
    EndsFrom D s (x >>= f) S := by
  rw [EndsFrom, ExceptT.run_bind, StateT.run_bind]
  refine Eval.Ends.bind h ?_
  rintro ⟨r, s'⟩ ⟨hs', hr⟩
  cases r with
  | error f => exact ⟨hs', hr⟩
  | ok a => exact hf a hr s' hs'

/-- A computation that does not look at the solution leaves it as it is. -/
theorem lift_bind {e : Eval α} {f : α → Solver β} (h : e.Ends D.fault Q)
    (hf : ∀ a, Q a → (f a).EndsFrom D s S) :
    EndsFrom D s (liftM e >>= f) S := by
  match e, h with
  | .ok a, h => exact hf a h
  | .error (.fault _), h => exact h
  | .error .outOfFuel, _ => exact True.intro

/-- What follows may use the solution that it is started from. -/
theorem get_bind {f : Solution → Solver β} (h : (f s).EndsFrom D s S) :
    EndsFrom D s (MonadState.get >>= f) S := h

theorem judging {g : Solution → Verdict α} (hs : D.solution s) (h : (g s).Ends D Q) :
    EndsFrom D s (Solver.judging g) Q := by
  refine get_bind (lift_bind h fun r hr => ?_)
  cases r with
  | error f => exact ⟨hs, hr⟩
  | ok a => exact ⟨hs, hr⟩

end EndsFrom

namespace Ends

theorem pure {a : α} (h : Q a) : Ends D (Pure.pure a) Q := fun _ hs => ⟨hs, h⟩

theorem throw {f : Failure} (h : D.failure f) : Ends D (MonadExcept.throw f) Q :=
  fun _ hs => ⟨hs, h⟩

theorem refuse {cause : Cause} (h : D.failure ⟨cause, none, []⟩) :
    Ends D (DependentClasses.refuse cause) Q := throw h

theorem outOfFuel : Ends D Solver.outOfFuel Q := fun _ _ => True.intro

theorem mono (h : x.Ends D Q) (hQR : ∀ a, Q a → R a) : x.Ends D R := by
  refine fun s hs => (h s hs).mono ?_
  rintro ⟨r, s'⟩ ⟨hs', hr⟩
  cases r with
  | error f => exact ⟨hs', hr⟩
  | ok a => exact ⟨hs', hQR a hr⟩

theorem bind {f : α → Solver β} (h : x.Ends D Q) (hf : ∀ a, Q a → (f a).Ends D S) :
    Ends D (x >>= f) S :=
  fun s hs => (h s hs).bind hf

theorem lift {e : Eval α} (h : e.Ends D.fault Q) : Ends D (liftM e) Q := by
  intro s hs
  match e, h with
  | .ok a, h => exact ⟨hs, h⟩
  | .error (.fault _), h => exact h
  | .error .outOfFuel, _ => exact True.intro

theorem get_bind {f : Solution → Solver β} (h : ∀ s, D.solution s → (f s).EndsFrom D s S) :
    Ends D (MonadState.get >>= f) S := fun s hs => .get_bind (h s hs)

theorem get : Ends D MonadState.get D.solution := fun _ hs => ⟨hs, hs⟩

theorem set {s : Solution} (h : D.solution s) : Ends D (MonadStateOf.set s) fun _ => True :=
  fun _ _ => ⟨h, True.intro⟩

theorem reading {g : Solution → Eval α} (h : ∀ s, D.solution s → (g s).Ends D.fault Q) :
    Ends D (Solver.reading g) Q :=
  bind get fun s hs => lift (h s hs)

theorem judging {g : Solution → Verdict α} (h : ∀ s, D.solution s → (g s).Ends D Q) :
    Ends D (Solver.judging g) Q :=
  fun s hs => .judging hs (h s hs)

theorem adapt {g : Failure → Failure} (hg : ∀ f, D.failure f → D.failure (g f)) (h : x.Ends D Q) :
    Ends D (ExceptT.adapt g x) Q := by
  intro s hs
  change Eval.Ends D.fault ((Except.mapError g <$> x.run).run s) _
  rw [StateT.run_map]
  refine (h s hs).map ?_
  rintro ⟨r, s'⟩ ⟨hs', hr⟩
  cases r with
  | error f => exact ⟨hs', hg f hr⟩
  | ok a => exact ⟨hs', hr⟩

theorem tryCatch {handler : Failure → Solver α} (h : x.Ends D Q)
    (hh : ∀ f, D.failure f → (handler f).Ends D Q) :
    Ends D (MonadExcept.tryCatch x handler) Q := by
  intro s hs
  refine Eval.Ends.bind (h s hs) ?_
  rintro ⟨r, s'⟩ ⟨hs', hr⟩
  cases r with
  -- What was solved before the refusal stays solved for the handler.
  | error f => exact hh f hr s' hs'
  | ok a => exact pure hr s' hs'

theorem forM {γ : Type} {g : γ → Solver PUnit} {xs : List γ}
    (h : ∀ c ∈ xs, (g c).Ends D fun _ => True) :
    Ends D (xs.forM g) fun _ => True := by
  induction xs with
  | nil => exact pure True.intro
  | cons c xs ih =>
    exact bind (h c List.mem_cons_self) fun _ _ => ih fun d hd => h d (List.mem_cons_of_mem c hd)

/-- Fields are treated one by one, and keep their labels. -/
theorem mapM_fields {γ : Type} {g : Name × γ → Solver (Name × β)} {fields : List (Name × γ)}
    (h : ∀ f ∈ fields, (g f).Ends D fun r => r.1 = f.1 ∧ S r.2) :
    Ends D (fields.mapM g) fun rs => rs.map Prod.fst = fields.map Prod.fst ∧ ∀ r ∈ rs, S r.2 := by
  induction fields with
  | nil =>
    rw [List.mapM_nil]
    exact pure ⟨rfl, by simp⟩
  | cons f fields ih =>
    rw [List.mapM_cons]
    refine bind (h f List.mem_cons_self) fun r hr => ?_
    refine bind (ih fun f hf => h f (List.mem_cons_of_mem _ hf)) fun rs hrs => pure ⟨?_, ?_⟩
    · rw [List.map_cons, List.map_cons, hr.1, hrs.1]
    · exact List.forall_mem_cons.2 ⟨hr.2, hrs.2⟩

theorem freshName {ctx : Context} (x : Name) : Ends D (Solver.freshName ctx x) fun _ => True :=
  bind get fun _ _ => pure True.intro

end Ends

end Solver

end

end DependentClasses
