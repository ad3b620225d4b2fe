import DependentClasses.Term.FreeNames

/-! The free names of a term, former by former. What follows speaks of free names through
the equivalences of this module and never of the lists they are computed with. -/
namespace DependentClasses

namespace Term

mutual

/-- Bound names are left out, and nothing else is. -/
theorem mem_freeIn {y : Name} (bound : List Name) :
    ∀ t : Term, y ∈ t.freeIn bound ↔ y ∈ t.freeIn [] ∧ y ∉ bound
  | .var x => by by_cases hx : x ∈ bound <;> grind [freeIn]
  | .pi _ x a b | .fn _ x a b | .sigma x a b | .declared _ x a b => by
    simp only [freeIn, List.mem_append]
    rw [mem_freeIn bound a, mem_freeIn (x :: bound) b, mem_freeIn [x] b]
    grind
  | .fulfilled _ x a v b | .letIn x a v b => by
    simp only [freeIn, List.mem_append]
    rw [mem_freeIn bound a, mem_freeIn bound v, mem_freeIn (x :: bound) b, mem_freeIn [x] b]
    grind
  | .app _ a b | .cons a b => by
    simp only [freeIn, List.mem_append]
    rw [mem_freeIn bound a, mem_freeIn bound b]
    grind
  | .equal a b c => by
    simp only [freeIn, List.mem_append]
    rw [mem_freeIn bound a, mem_freeIn bound b, mem_freeIn bound c]
    grind
  | .car a | .cdr a | .same a | .dot a _ => by rw [freeIn, freeIn, mem_freeIn bound a]
  | .object fields => by rw [freeIn, freeIn, mem_fieldsFreeIn bound fields]
  | .type | .string | .quote _ | .trivial | .sole | .emptyClass => by simp [freeIn]

theorem mem_fieldsFreeIn {y : Name} (bound : List Name) :
    ∀ fields : List (Name × Term), y ∈ fieldsFreeIn bound fields ↔
      y ∈ fieldsFreeIn [] fields ∧ y ∉ bound
  | [] => by simp [fieldsFreeIn]
  | (_, a) :: fields => by
    rw [fieldsFreeIn, fieldsFreeIn, List.mem_append, List.mem_append, mem_freeIn bound a,
      mem_fieldsFreeIn bound fields]
    grind

end

theorem mem_freeNames {y : Name} {t : Term} : y ∈ t.freeNames ↔ y ∈ t.freeIn [] :=
  List.mem_eraseDups

theorem mem_fieldsFreeIn_nil {y : Name} (fields : List (Name × Term)) :
    y ∈ fieldsFreeIn [] fields ↔ ∃ f ∈ fields, y ∈ f.2.freeNames := by
  induction fields with
  | nil => simp [fieldsFreeIn]
  | cons f fields ih => simp [fieldsFreeIn, ih, mem_freeNames]

/-- The names that a binder leaves free. -/
theorem mem_freeIn_singleton {x y : Name} {t : Term} :
    y ∈ t.freeIn [x] ↔ y ∈ t.freeIn [] ∧ y ≠ x := by
  rw [mem_freeIn, List.mem_singleton]

variable {y x k : Name} {p : Plicity} {a b c : Term}

@[simp] theorem mem_freeNames_var : y ∈ (var x).freeNames ↔ y = x := by simp [mem_freeNames, freeIn]

@[simp] theorem freeNames_type : type.freeNames = [] := rfl

@[simp] theorem mem_freeNames_pi :
    y ∈ (pi p x a b).freeNames ↔ y ∈ a.freeNames ∨ y ∈ b.freeNames ∧ y ≠ x := by
  simp only [mem_freeNames, freeIn, List.mem_append, mem_freeIn_singleton]

@[simp] theorem mem_freeNames_fn :
    y ∈ (fn p x a b).freeNames ↔ y ∈ a.freeNames ∨ y ∈ b.freeNames ∧ y ≠ x := by
  simp only [mem_freeNames, freeIn, List.mem_append, mem_freeIn_singleton]

@[simp] theorem mem_freeNames_app :
    y ∈ (app p a b).freeNames ↔ y ∈ a.freeNames ∨ y ∈ b.freeNames := by
  simp only [mem_freeNames, freeIn, List.mem_append]

@[simp] theorem mem_freeNames_sigma :
    y ∈ (sigma x a b).freeNames ↔ y ∈ a.freeNames ∨ y ∈ b.freeNames ∧ y ≠ x := by
  simp only [mem_freeNames, freeIn, List.mem_append, mem_freeIn_singleton]

@[simp] theorem mem_freeNames_cons :
    y ∈ (cons a b).freeNames ↔ y ∈ a.freeNames ∨ y ∈ b.freeNames := by
  simp only [mem_freeNames, freeIn, List.mem_append]

@[simp] theorem freeNames_car : (car a).freeNames = a.freeNames := rfl

@[simp] theorem freeNames_cdr : (cdr a).freeNames = a.freeNames := rfl

@[simp] theorem freeNames_string : string.freeNames = [] := rfl

@[simp] theorem freeNames_quote (s : String) : (quote s).freeNames = [] := rfl

@[simp] theorem freeNames_trivial : trivial.freeNames = [] := rfl

@[simp] theorem freeNames_sole : sole.freeNames = [] := rfl

@[simp] theorem mem_freeNames_equal :
    y ∈ (equal a b c).freeNames ↔ y ∈ a.freeNames ∨ y ∈ b.freeNames ∨ y ∈ c.freeNames := by
  simp only [mem_freeNames, freeIn, List.mem_append, or_assoc]

@[simp] theorem freeNames_same : (same a).freeNames = a.freeNames := rfl

@[simp] theorem freeNames_emptyClass : emptyClass.freeNames = [] := rfl

@[simp] theorem mem_freeNames_declared :
    y ∈ (declared k x a b).freeNames ↔ y ∈ a.freeNames ∨ y ∈ b.freeNames ∧ y ≠ x := by
  simp only [mem_freeNames, freeIn, List.mem_append, mem_freeIn_singleton]

@[simp] theorem mem_freeNames_fulfilled :
    y ∈ (fulfilled k x a b c).freeNames ↔
      y ∈ a.freeNames ∨ y ∈ b.freeNames ∨ y ∈ c.freeNames ∧ y ≠ x := by
  simp only [mem_freeNames, freeIn, List.mem_append, mem_freeIn_singleton, or_assoc]

@[simp] theorem mem_freeNames_object {fields : List (Name × Term)} :
    y ∈ (object fields).freeNames ↔ ∃ f ∈ fields, y ∈ f.2.freeNames := by
  rw [mem_freeNames, freeIn, mem_fieldsFreeIn_nil]

@[simp] theorem freeNames_dot : (dot a k).freeNames = a.freeNames := rfl

@[simp] theorem mem_freeNames_letIn :
    y ∈ (letIn x a b c).freeNames ↔
      y ∈ a.freeNames ∨ y ∈ b.freeNames ∨ y ∈ c.freeNames ∧ y ≠ x := by
  simp only [mem_freeNames, freeIn, List.mem_append, mem_freeIn_singleton, or_assoc]

end Term

end DependentClasses
