import DependentClasses.Proofs.WellFormed
import DependentClasses.Proofs.Inversion

/-! Classes whose properties are all written down. Which properties such a class has, in which order
and which of them it leaves open can be seen without a value for any of them, so that neither taking
values for properties nor reading the class back changes it. -/
namespace DependentClasses

namespace Term

/-- A class that is written down to its end. -/
def WrittenOut : Term → Prop
  | .emptyClass => True
  | .declared _ _ _ rest => rest.WrittenOut
  | .fulfilled _ _ _ _ rest => rest.WrittenOut
  | _ => False

def openLabels : Term → List Name
  | .declared k _ _ rest => k :: rest.openLabels
  | .fulfilled _ _ _ _ rest => rest.openLabels
  | _ => []

/-- The open properties are properties, in the same order. -/
theorem openLabels_sublist : (t : Term) → t.openLabels.Sublist t.classLabels
  | .declared k _ _ rest => rest.openLabels_sublist.cons_cons k
  | .fulfilled k _ _ _ rest => rest.openLabels_sublist.cons k
  | .var .. | .type | .pi .. | .fn .. | .app .. | .sigma .. | .cons .. | .car .. | .cdr
      .. | .string | .quote .. | .trivial
  | .sole | .equal .. | .same .. | .emptyClass | .object .. | .dot .. | .letIn .. =>
    List.nil_sublist _

/-- A class whose rests are classes is written down to its end. -/
theorem writtenOut {strict : Prop} {X : Name → Prop} :
    (t : Term) → t.IsClass → t.All (Part.Within strict X) → t.WrittenOut
  | .emptyClass, _, _ => True.intro
  | .declared _ _ _ rest, _, h => by
    obtain ⟨-, hclass, -, hrest⟩ := all_declared.1 h
    exact writtenOut rest hclass hrest
  | .fulfilled _ _ _ _ rest, _, h => by
    obtain ⟨-, hclass, -, -, hrest⟩ := all_fulfilled.1 h
    exact writtenOut rest hclass hrest

end Term

namespace Chain

def WrittenOut : Chain → Prop
  | .nil => True
  | .declared _ _ rest => rest.body.WrittenOut
  | .fulfilled _ _ _ rest => rest.WrittenOut

def openLabels : Chain → List Name
  | .nil => []
  | .declared k _ rest => k :: rest.body.openLabels
  | .fulfilled _ _ _ rest => rest.openLabels

end Chain

/-- The open properties are properties, in the same order. -/
theorem Chain.openLabels_sublist : (c : Chain) → c.openLabels.Sublist c.classLabels
  | .nil => List.nil_sublist _
  | .declared k _ rest => rest.body.openLabels_sublist.cons_cons k
  | .fulfilled k _ _ rest => rest.openLabels_sublist.cons k

/-- A written class and a term for it: they have the same properties, and leave the same ones
open. -/
structure Chain.Outlines (c : Chain) (t : Term) : Prop where
  chain : c.WrittenOut
  term : t.WrittenOut
  labels : c.classLabels = t.classLabels
  openLabels : c.openLabels = t.openLabels

section

variable {n : Nat} {env : Environment} {t : Term} {c d : Chain} {rest : Closure} {v : Value}

theorem evalChain_outlines (h : evalChain n env t = .ok c) (ht : t.WrittenOut) : c.Outlines t := by
  induction n generalizing env t c with
  | zero => simp [evalChain] at h
  | succ n ih =>
    cases t with
    | emptyClass =>
      simp only [evalChain, Eval.pure_eq_ok] at h
      subst h
      exact ⟨trivial, ht, rfl, rfl⟩
    | declared k x a rest =>
      simp only [evalChain, Eval.bind_eq_ok, Eval.pure_eq_ok] at h
      obtain ⟨a, -, rfl⟩ := h
      exact ⟨ht, ht, rfl, rfl⟩
    | fulfilled k x a v rest =>
      simp only [evalChain, Eval.bind_eq_ok, Eval.pure_eq_ok] at h
      obtain ⟨v, -, a, -, d, hd, rfl⟩ := h
      obtain ⟨hchain, hterm, hlabels, hopen⟩ := ih hd ht
      exact ⟨hchain, hterm, congrArg (k :: ·) hlabels, hopen⟩
    | _ => exact ht.elim

/-- The value of a written class is a class with the same properties. -/
theorem eval_outlines (h : eval n env t = .ok v) (ht : t.WrittenOut) :
    ∃ c, v = .classOf c ∧ c.Outlines t := by
  cases n with
  | zero => simp [eval] at h
  | succ n =>
    cases t with
    | emptyClass | declared | fulfilled =>
      simp only [eval, Eval.bind_eq_ok, Eval.pure_eq_ok] at h
      obtain ⟨c, hc, rfl⟩ := h
      exact ⟨c, rfl, evalChain_outlines hc ht⟩
    | _ => exact ht.elim

/-- Whatever value a property takes, the rest of the class has the properties that are written
there. -/
theorem Closure.applyChain_outlines (h : rest.applyChain n v = .ok d)
    (hrest : rest.body.WrittenOut) :
    d.Outlines rest.body := by
  simp only [applyChain, apply, Eval.bind_eq_ok] at h
  obtain ⟨r, hr, hd⟩ := h
  obtain ⟨c, rfl, hc⟩ := eval_outlines hr hrest
  rw [Value.chain, Eval.pure_eq_ok] at hd
  exact hd ▸ hc

namespace Chain

theorem writtenOut {strict : Prop} {X : Name → Prop} :
    (c : Chain) → c.All (Part.Within strict X) → c.WrittenOut
  | .nil, _ => trivial
  | .declared _ _ ⟨_, _, body⟩, h => by
    obtain ⟨-, hclass, -, hrest⟩ := all_declared.1 h
    exact body.writtenOut hclass (Closure.all_iff.1 hrest).1
  | .fulfilled _ _ _ rest, h => writtenOut rest (all_fulfilled.1 h).2.2.2

/-- A class is read back with the properties that it has. -/
theorem reify_outlines {s : Solution} {used : List Name} (h : c.reify n s used = .ok t)
    (hc : c.WrittenOut) :
    c.Outlines t := by
  induction n generalizing c t used with
  | zero => simp [reify] at h
  | succ n ih =>
    cases c with
    | nil =>
      simp only [reify, Eval.pure_eq_ok] at h
      subst h
      exact ⟨trivial, trivial, rfl, rfl⟩
    | declared k a rest =>
      simp only [reify, Eval.bind_eq_ok, Eval.pure_eq_ok] at h
      obtain ⟨_, -, d, hd, u, hu, rfl⟩ := h
      obtain ⟨hchain, -, hlabels, hopen⟩ := rest.applyChain_outlines hd hc
      obtain ⟨-, hterm, hlabels', hopen'⟩ := ih hu hchain
      exact ⟨hc, hterm, congrArg (k :: ·) (hlabels.symm.trans hlabels'),
        congrArg (k :: ·) (hopen.symm.trans hopen')⟩
    | fulfilled k a v rest =>
      simp only [reify, Eval.bind_eq_ok, Eval.pure_eq_ok] at h
      obtain ⟨_, -, _, -, u, hu, rfl⟩ := h
      obtain ⟨-, hterm, hlabels, hopen⟩ := ih hu hc
      exact ⟨hc, hterm, congrArg (k :: ·) hlabels, hopen⟩

/-- The labels that are found one by one are those that are written. -/
theorem labels_eq_classLabels {ks : List Name} (h : c.labels n = .ok ks) (hc : c.WrittenOut) :
    ks = c.classLabels := by
  induction n generalizing c ks with
  | zero => simp [labels] at h
  | succ n ih =>
    cases c with
    | nil =>
      simp only [labels, Eval.pure_eq_ok] at h
      rw [h, classLabels]
    | declared k a rest =>
      simp only [labels, Eval.bind_eq_ok, Eval.pure_eq_ok] at h
      obtain ⟨d, hd, more, hmore, rfl⟩ := h
      have hwritten := rest.applyChain_outlines hd hc
      rw [ih hmore hwritten.chain, hwritten.labels, classLabels]
    | fulfilled k a v rest =>
      simp only [labels, Eval.bind_eq_ok, Eval.pure_eq_ok] at h
      obtain ⟨more, hmore, rfl⟩ := h
      rw [ih hmore hc, classLabels]

end Chain

end

end DependentClasses
