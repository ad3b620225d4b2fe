import DependentClasses.Proofs.FreeNames
import DependentClasses.Proofs.Success

/-! What terms and values are made of. A value has parts of its own, and those of everything
it records: the types of stuck computations, and what its closures keep for the free names
of their bodies. -/
namespace DependentClasses

theorem lookup_cons_ite {α : Type} (x y : Name) (a : α) (l : List (Name × α)) :
    List.lookup y ((x, a) :: l) = if y = x then some a else l.lookup y := by
  by_cases h : y = x
  · simp [h]
  · have hb : (y == x) = false := by simpa using h
    rw [List.lookup_cons, hb, if_neg h]

theorem mem_of_lookup {α : Type} {x : Name} {a : α} {l : List (Name × α)}
    (h : l.lookup x = some a) :
    (x, a) ∈ l := by
  obtain ⟨l₁, l₂, rfl, -⟩ := List.lookup_eq_some_iff.1 h
  simp

theorem lookup_of_mem {α : Type} {x : Name} {a : α} {l : List (Name × α)}
    (hl : (l.map Prod.fst).Nodup) (h : (x, a) ∈ l) :
    l.lookup x = some a := by
  induction l with
  | nil => cases h
  | cons f l ih =>
    obtain ⟨y, b⟩ := f
    obtain ⟨hy, hl⟩ := List.nodup_cons.1 hl
    rw [lookup_cons_ite]
    rcases List.mem_cons.1 h with heq | h
    · cases heq
      exact if_pos rfl
    · have hne : x ≠ y := fun heq => hy (List.mem_map.2 ⟨(x, a), h, heq⟩)
      rw [if_neg hne]
      exact ih hl h

inductive Part
  /-- A variable that a computation is stuck on. -/
  | name (y : Name)
  /-- A free name of a closure's body that the closure keeps no value for. -/
  | missing (y : Name)
  /-- The labels of a class, in order, of which the first is of an unfulfilled property. -/
  | labels (ks : List Name)
  /-- The labels of a class, in order, of which the first is of a fulfilled property. -/
  | fulfilled (k : Name) (ks : List Name)
  /-- The labels of an object, in order. -/
  | fields (ks : List Name)
  /-- What a class is written to have after one of its properties. -/
  | rest (t : Term)

namespace Term

def IsClass : Term → Prop
  | .emptyClass => True
  | .declared .. => True
  | .fulfilled .. => True
  | _ => False

/-- The labels of a class, as far as it is written out. -/
def classLabels : Term → List Name
  | .declared k _ _ rest => k :: rest.classLabels
  | .fulfilled k _ _ _ rest => k :: rest.classLabels
  | _ => []

mutual

def Has (q : Part) : Term → Prop
  | .pi _ _ a b => a.Has q ∨ b.Has q
  | .fn _ _ a b => a.Has q ∨ b.Has q
  | .app _ a b => a.Has q ∨ b.Has q
  | .sigma _ a b => a.Has q ∨ b.Has q
  | .cons a b => a.Has q ∨ b.Has q
  | .car a => a.Has q
  | .cdr a => a.Has q
  | .equal a l r => a.Has q ∨ l.Has q ∨ r.Has q
  | .same a => a.Has q
  | .declared k _ a rest =>
    q = .labels (k :: rest.classLabels) ∨ q = .rest rest ∨ a.Has q ∨ rest.Has q
  | .fulfilled k _ a v rest =>
    q = .fulfilled k rest.classLabels ∨ q = .rest rest ∨ a.Has q ∨ v.Has q ∨ rest.Has q
  | .object fields => q = .fields (fields.map Prod.fst) ∨ FieldsHave q fields
  | .dot a _ => a.Has q
  | .letIn _ a v b => a.Has q ∨ v.Has q ∨ b.Has q
  | _ => False

def FieldsHave (q : Part) : List (Name × Term) → Prop
  | [] => False
  | (_, a) :: fields => a.Has q ∨ FieldsHave q fields

end

end Term

def Chain.classLabels : Chain → List Name
  | .nil => []
  | .declared k _ rest => k :: rest.body.classLabels
  | .fulfilled k _ _ rest => k :: rest.classLabels

mutual

inductive Value.Has : Value → Part → Prop
  | neutralType {a s q} : a.Has q → Value.Has (.neutral a s) q
  | neutralSpine {a s q} : s.Has q → Value.Has (.neutral a s) q
  | piDomain {p a b q} : a.Has q → Value.Has (.pi p a b) q
  | piCodomain {p a b q} : b.Has q → Value.Has (.pi p a b) q
  | fnDomain {p a b q} : a.Has q → Value.Has (.fn p a b) q
  | fnBody {p a b q} : b.Has q → Value.Has (.fn p a b) q
  | sigmaCar {a b q} : a.Has q → Value.Has (.sigma a b) q
  | sigmaCdr {a b q} : b.Has q → Value.Has (.sigma a b) q
  | consCar {a b q} : a.Has q → Value.Has (.cons a b) q
  | consCdr {a b q} : b.Has q → Value.Has (.cons a b) q
  | equalType {a l r q} : a.Has q → Value.Has (.equal a l r) q
  | equalLeft {a l r q} : l.Has q → Value.Has (.equal a l r) q
  | equalRight {a l r q} : r.Has q → Value.Has (.equal a l r) q
  | same {a q} : a.Has q → Value.Has (.same a) q
  | classOf {c q} : c.Has q → Value.Has (.classOf c) q
  | object {fields} : Value.Has (.object fields) (.fields (fields.map Prod.fst))
  | objectField {fields f q} : f ∈ fields → f.2.Has q → Value.Has (.object fields) q

inductive Neutral.Has : Neutral → Part → Prop
  | var {x} : Neutral.Has (.var x) (.name x)
  | appTarget {p f a v q} : f.Has q → Neutral.Has (.app p f a v) q
  | appType {p f a v q} : a.Has q → Neutral.Has (.app p f a v) q
  | appArg {p f a v q} : v.Has q → Neutral.Has (.app p f a v) q
  | car {s q} : s.Has q → Neutral.Has (.car s) q
  | cdr {s q} : s.Has q → Neutral.Has (.cdr s) q
  | dot {s k q} : s.Has q → Neutral.Has (.dot s k) q

inductive Chain.Has : Chain → Part → Prop
  | declaredLabels {k a c} : Chain.Has (.declared k a c) (.labels (k :: c.body.classLabels))
  | declaredRest {k a c} : Chain.Has (.declared k a c) (.rest c.body)
  | declaredType {k a c q} : a.Has q → Chain.Has (.declared k a c) q
  | declaredClosure {k a c q} : c.Has q → Chain.Has (.declared k a c) q
  | fulfilledLabels {k a v c} : Chain.Has (.fulfilled k a v c) (.fulfilled k c.classLabels)
  | fulfilledType {k a v c q} : a.Has q → Chain.Has (.fulfilled k a v c) q
  | fulfilledValue {k a v c q} : v.Has q → Chain.Has (.fulfilled k a v c) q
  | fulfilledRest {k a v c q} : c.Has q → Chain.Has (.fulfilled k a v c) q

inductive Closure.Has : Closure → Part → Prop
  | body {env x body q} : body.Has q → Closure.Has ⟨env, x, body⟩ q
  | missing {env x body y} : y ∈ body.freeNames → y ≠ x → env.lookup y = none →
      Closure.Has ⟨env, x, body⟩ (.missing y)
  | kept {env x body y w q} : y ∈ body.freeNames → y ≠ x → env.lookup y = some w → w.Has q →
      Closure.Has ⟨env, x, body⟩ q

end

section

variable {P Q : Part → Prop}

def Term.All (P : Part → Prop) (t : Term) : Prop := ∀ q, t.Has q → P q

def Value.All (P : Part → Prop) (v : Value) : Prop := ∀ q, v.Has q → P q

def Neutral.All (P : Part → Prop) (s : Neutral) : Prop := ∀ q, s.Has q → P q

def Chain.All (P : Part → Prop) (c : Chain) : Prop := ∀ q, c.Has q → P q

def Closure.All (P : Part → Prop) (c : Closure) : Prop := ∀ q, c.Has q → P q

/-- `t` and what `env` holds for its free names are as `P` says. -/
structure Environment.All (P : Part → Prop) (env : Environment) (t : Term) : Prop where
  term : t.All P
  kept : ∀ y ∈ t.freeNames, ∀ w, env.lookup y = some w → w.All P
  missing : ∀ y ∈ t.freeNames, env.lookup y = none → P (.missing y)

theorem Value.All.mono (h : ∀ q, P q → Q q) {v : Value} (hv : v.All P) : v.All Q :=
  fun q hq => h q (hv q hq)

namespace Term

variable {x k : Name} {p : Plicity} {a b c : Term}

theorem all_or {H H' : Part → Prop} :
    (∀ q, H q ∨ H' q → P q) ↔ (∀ q, H q → P q) ∧ ∀ q, H' q → P q :=
  ⟨fun h => ⟨fun q hq => h q (.inl hq), fun q hq => h q (.inr hq)⟩,
    fun h q hq => hq.elim (h.1 q) (h.2 q)⟩

@[simp] theorem all_var : (var x).All P := fun _ h => h.elim

@[simp] theorem all_type : type.All P := fun _ h => h.elim

@[simp] theorem all_pi : (pi p x a b).All P ↔ a.All P ∧ b.All P := all_or

@[simp] theorem all_fn : (fn p x a b).All P ↔ a.All P ∧ b.All P := all_or

@[simp] theorem all_app : (app p a b).All P ↔ a.All P ∧ b.All P := all_or

@[simp] theorem all_sigma : (sigma x a b).All P ↔ a.All P ∧ b.All P := all_or

@[simp] theorem all_cons : (cons a b).All P ↔ a.All P ∧ b.All P := all_or

@[simp] theorem all_car : (car a).All P ↔ a.All P := Iff.rfl

@[simp] theorem all_cdr : (cdr a).All P ↔ a.All P := Iff.rfl

@[simp] theorem all_string : string.All P := fun _ h => h.elim

@[simp] theorem all_quote (s : String) : (quote s).All P := fun _ h => h.elim

@[simp] theorem all_trivial : trivial.All P := fun _ h => h.elim

@[simp] theorem all_sole : sole.All P := fun _ h => h.elim

@[simp] theorem all_equal : (equal a b c).All P ↔ a.All P ∧ b.All P ∧ c.All P :=
  all_or.trans (and_congr_right fun _ => all_or)

@[simp] theorem all_same : (same a).All P ↔ a.All P := Iff.rfl

@[simp] theorem all_emptyClass : emptyClass.All P := fun _ h => h.elim

@[simp] theorem all_declared :
    (declared k x a b).All P ↔ P (.labels (k :: b.classLabels)) ∧ P (.rest b) ∧ a.All P ∧ b.All P :=
  all_or.trans (and_congr forall_eq (all_or.trans (and_congr forall_eq all_or)))

@[simp] theorem all_fulfilled :
    (fulfilled k x a b c).All P ↔
      P (.fulfilled k c.classLabels) ∧ P (.rest c) ∧ a.All P ∧ b.All P ∧ c.All P :=
  all_or.trans (and_congr forall_eq (all_or.trans (and_congr forall_eq
    (all_or.trans (and_congr_right fun _ => all_or)))))

theorem fieldsHave_iff {q : Part} (fields : List (Name × Term)) :
    FieldsHave q fields ↔ ∃ f ∈ fields, f.2.Has q := by
  induction fields with
  | nil => simp [FieldsHave]
  | cons f fields ih => simp [FieldsHave, ih]

@[simp] theorem all_object {fields : List (Name × Term)} :
    (object fields).All P ↔ P (.fields (fields.map Prod.fst)) ∧ ∀ f ∈ fields, f.2.All P := by
  refine all_or.trans (and_congr forall_eq ⟨fun h f hf q hq => ?_, fun h q hq => ?_⟩)
  · exact h q ((fieldsHave_iff fields).2 ⟨f, hf, hq⟩)
  · obtain ⟨f, hf, hq⟩ := (fieldsHave_iff fields).1 hq
    exact h f hf q hq

@[simp] theorem all_dot : (dot a k).All P ↔ a.All P := Iff.rfl

@[simp] theorem all_letIn : (letIn x a b c).All P ↔ a.All P ∧ b.All P ∧ c.All P :=
  all_or.trans (and_congr_right fun _ => all_or)

end Term

namespace Value

variable {x : Name} {p : Plicity} {a b c : Value} {s : Neutral} {d : Closure} {e : Chain}

@[simp] theorem all_neutral : (neutral a s).All P ↔ a.All P ∧ s.All P := by
  constructor
  · exact fun h => ⟨fun q hq => h q (.neutralType hq), fun q hq => h q (.neutralSpine hq)⟩
  · exact fun ⟨ha, hs⟩ q hq => match hq with
      | .neutralType hq => ha q hq
      | .neutralSpine hq => hs q hq

@[simp] theorem all_type : type.All P := by rintro q ⟨⟩

@[simp] theorem all_pi : (pi p a d).All P ↔ a.All P ∧ d.All P := by
  constructor
  · exact fun h => ⟨fun q hq => h q (.piDomain hq), fun q hq => h q (.piCodomain hq)⟩
  · exact fun ⟨ha, hd⟩ q hq => match hq with
      | .piDomain hq => ha q hq
      | .piCodomain hq => hd q hq

@[simp] theorem all_fn : (fn p a d).All P ↔ a.All P ∧ d.All P := by
  constructor
  · exact fun h => ⟨fun q hq => h q (.fnDomain hq), fun q hq => h q (.fnBody hq)⟩
  · exact fun ⟨ha, hd⟩ q hq => match hq with
      | .fnDomain hq => ha q hq
      | .fnBody hq => hd q hq

@[simp] theorem all_sigma : (sigma a d).All P ↔ a.All P ∧ d.All P := by
  constructor
  · exact fun h => ⟨fun q hq => h q (.sigmaCar hq), fun q hq => h q (.sigmaCdr hq)⟩
  · exact fun ⟨ha, hd⟩ q hq => match hq with
      | .sigmaCar hq => ha q hq
      | .sigmaCdr hq => hd q hq

@[simp] theorem all_cons : (cons a b).All P ↔ a.All P ∧ b.All P := by
  constructor
  · exact fun h => ⟨fun q hq => h q (.consCar hq), fun q hq => h q (.consCdr hq)⟩
  · exact fun ⟨ha, hb⟩ q hq => match hq with
      | .consCar hq => ha q hq
      | .consCdr hq => hb q hq

@[simp] theorem all_string : string.All P := by rintro q ⟨⟩

@[simp] theorem all_quote (t : String) : (quote t).All P := by rintro q ⟨⟩

@[simp] theorem all_trivial : trivial.All P := by rintro q ⟨⟩

@[simp] theorem all_sole : sole.All P := by rintro q ⟨⟩

@[simp] theorem all_equal : (equal a b c).All P ↔ a.All P ∧ b.All P ∧ c.All P := by
  constructor
  · exact fun h => ⟨fun q hq => h q (.equalType hq), fun q hq => h q (.equalLeft hq),
      fun q hq => h q (.equalRight hq)⟩
  · exact fun ⟨ha, hb, hc⟩ q hq => match hq with
      | .equalType hq => ha q hq
      | .equalLeft hq => hb q hq
      | .equalRight hq => hc q hq

@[simp] theorem all_same : (same a).All P ↔ a.All P := by
  constructor
  · exact fun h q hq => h q (.same hq)
  · exact fun ha q hq => match hq with
      | .same hq => ha q hq

@[simp] theorem all_classOf : (classOf e).All P ↔ e.All P := by
  constructor
  · exact fun h q hq => h q (.classOf hq)
  · exact fun he q hq => match hq with
      | .classOf hq => he q hq

@[simp] theorem all_object {fields : List (Name × Value)} :
    (object fields).All P ↔ P (.fields (fields.map Prod.fst)) ∧ ∀ f ∈ fields, f.2.All P := by
  constructor
  · exact fun h => ⟨h _ .object, fun f hf q hq => h q (.objectField hf hq)⟩
  · exact fun ⟨hl, hf⟩ q hq => match hq with
      | .object => hl
      | .objectField hm hq => hf _ hm q hq

@[simp] theorem all_variable : (Value.variable a x).All P ↔ a.All P ∧ P (.name x) := by
  unfold Value.variable
  rw [all_neutral]
  refine and_congr_right fun _ => ⟨fun h => h _ .var, ?_⟩
  rintro h q ⟨⟩
  exact h

end Value

namespace Neutral

variable {x k : Name} {p : Plicity} {a v : Value} {s : Neutral}

@[simp] theorem all_var : (var x).All P ↔ P (.name x) := by
  refine ⟨fun h => h _ .var, ?_⟩
  rintro h q ⟨⟩
  exact h

@[simp] theorem all_app : (app p s a v).All P ↔ s.All P ∧ a.All P ∧ v.All P := by
  constructor
  · exact fun h => ⟨fun q hq => h q (.appTarget hq), fun q hq => h q (.appType hq),
      fun q hq => h q (.appArg hq)⟩
  · exact fun ⟨hs, ha, hv⟩ q hq => match hq with
      | .appTarget hq => hs q hq
      | .appType hq => ha q hq
      | .appArg hq => hv q hq

@[simp] theorem all_car : (car s).All P ↔ s.All P := by
  constructor
  · exact fun h q hq => h q (.car hq)
  · exact fun hs q hq => match hq with
      | .car hq => hs q hq

@[simp] theorem all_cdr : (cdr s).All P ↔ s.All P := by
  constructor
  · exact fun h q hq => h q (.cdr hq)
  · exact fun hs q hq => match hq with
      | .cdr hq => hs q hq

@[simp] theorem all_dot : (dot s k).All P ↔ s.All P := by
  constructor
  · exact fun h q hq => h q (.dot hq)
  · exact fun hs q hq => match hq with
      | .dot hq => hs q hq

theorem All.head {s : Neutral} (h : s.All P) : P (.name s.head) :=
  match s with
  | .var _ => all_var.1 h
  | .app _ f _ _ => All.head (s := f) (all_app.1 h).1
  | .car p => All.head (s := p) (all_car.1 h)
  | .cdr p => All.head (s := p) (all_cdr.1 h)
  | .dot t _ => All.head (s := t) (all_dot.1 h)

end Neutral

namespace Chain

variable {k : Name} {a v : Value} {c : Chain} {d : Closure}

@[simp] theorem all_nil : nil.All P := by rintro q ⟨⟩

@[simp] theorem all_declared :
    (declared k a d).All P ↔
      P (.labels (k :: d.body.classLabels)) ∧ P (.rest d.body) ∧ a.All P ∧ d.All P := by
  constructor
  · exact fun h => ⟨h _ .declaredLabels, h _ .declaredRest, fun q hq => h q (.declaredType hq),
      fun q hq => h q (.declaredClosure hq)⟩
  · exact fun ⟨hl, hr, ha, hd⟩ q hq => match hq with
      | .declaredLabels => hl
      | .declaredRest => hr
      | .declaredType hq => ha q hq
      | .declaredClosure hq => hd q hq

@[simp] theorem all_fulfilled :
    (fulfilled k a v c).All P ↔ P (.fulfilled k c.classLabels) ∧ a.All P ∧ v.All P ∧ c.All P := by
  constructor
  · exact fun h => ⟨h _ .fulfilledLabels, fun q hq => h q (.fulfilledType hq),
      fun q hq => h q (.fulfilledValue hq), fun q hq => h q (.fulfilledRest hq)⟩
  · exact fun ⟨hl, ha, hv, hc⟩ q hq => match hq with
      | .fulfilledLabels => hl
      | .fulfilledType hq => ha q hq
      | .fulfilledValue hq => hv q hq
      | .fulfilledRest hq => hc q hq

end Chain

namespace Closure

/-- A closure's own name is not among what it keeps. -/
theorem all_iff {env : Environment} {x : Name} {body : Term} :
    Closure.All P ⟨env, x, body⟩ ↔
      body.All P ∧ ∀ y ∈ body.freeNames, y ≠ x →
        (∀ w, env.lookup y = some w → w.All P) ∧ (env.lookup y = none → P (.missing y)) := by
  constructor
  · intro h
    refine ⟨fun q hq => h q (.body hq), fun y hy hyx => ⟨?_, ?_⟩⟩
    · exact fun w hw q hq => h q (.kept hy hyx hw hq)
    · exact fun hn => h _ (.missing hy hyx hn)
  · rintro ⟨hb, hk⟩ q (hq | ⟨hy, hyx, hn⟩ | ⟨hy, hyx, hw, hq⟩)
    · exact hb q hq
    · exact (hk _ hy hyx).2 hn
    · exact (hk _ hy hyx).1 _ hw q hq

/-- The body of a closure is computed from the closure's parts and the argument's. -/
theorem All.bind {c : Closure} {v : Value} (hc : c.All P) (hv : v.All P) :
    Environment.All P (c.bind v) c.body := by
  obtain ⟨env, x, body⟩ := c
  obtain ⟨hb, hk⟩ := all_iff.1 hc
  refine ⟨hb, fun y hy w hw => ?_, fun y hy hn => ?_⟩
  · rw [Closure.bind, lookup_cons_ite] at hw
    split at hw
    · cases hw; exact hv
    · exact (hk y hy ‹_›).1 w hw
  · rw [Closure.bind, lookup_cons_ite] at hn
    split at hn
    · cases hn
    · exact (hk y hy ‹_›).2 hn

end Closure

namespace Environment.All

variable {env : Environment} {x k : Name} {p : Plicity} {a b c t u : Term} {v : Value}

/-- A subterm that no binder stands over reads fewer names. -/
theorem sub (h : Environment.All P env t) (hu : u.All P) (hs : ∀ y ∈ u.freeNames, y ∈ t.freeNames) :
    Environment.All P env u :=
  ⟨hu, fun y hy => h.kept y (hs y hy), fun y hy => h.missing y (hs y hy)⟩

/-- The body of a binder waits in a closure. -/
theorem close (h : Environment.All P env t) (hu : u.All P)
    (hs : ∀ y ∈ u.freeNames, y ≠ x → y ∈ t.freeNames) :
    Closure.All P ⟨env, x, u⟩ :=
  Closure.all_iff.2 ⟨hu, fun y hy hyx => ⟨h.kept y (hs y hy hyx), h.missing y (hs y hy hyx)⟩⟩

theorem pi (h : Environment.All P env (.pi p x a b)) :
    Environment.All P env a ∧ Closure.All P ⟨env, x, b⟩ := by
  have ht := Term.all_pi.1 h.term
  exact ⟨h.sub ht.1 (by simp +contextual), h.close ht.2 (by simp +contextual)⟩

theorem fn (h : Environment.All P env (.fn p x a b)) :
    Environment.All P env a ∧ Closure.All P ⟨env, x, b⟩ := by
  have ht := Term.all_fn.1 h.term
  exact ⟨h.sub ht.1 (by simp +contextual), h.close ht.2 (by simp +contextual)⟩

theorem app (h : Environment.All P env (.app p a b)) :
    Environment.All P env a ∧ Environment.All P env b := by
  have ht := Term.all_app.1 h.term
  exact ⟨h.sub ht.1 (by simp +contextual), h.sub ht.2 (by simp +contextual)⟩

theorem sigma (h : Environment.All P env (.sigma x a b)) :
    Environment.All P env a ∧ Closure.All P ⟨env, x, b⟩ := by
  have ht := Term.all_sigma.1 h.term
  exact ⟨h.sub ht.1 (by simp +contextual), h.close ht.2 (by simp +contextual)⟩

theorem cons (h : Environment.All P env (.cons a b)) :
    Environment.All P env a ∧ Environment.All P env b := by
  have ht := Term.all_cons.1 h.term
  exact ⟨h.sub ht.1 (by simp +contextual), h.sub ht.2 (by simp +contextual)⟩

theorem car (h : Environment.All P env (.car a)) : Environment.All P env a :=
  h.sub (Term.all_car.1 h.term) (by simp)

theorem cdr (h : Environment.All P env (.cdr a)) : Environment.All P env a :=
  h.sub (Term.all_cdr.1 h.term) (by simp)

theorem equal (h : Environment.All P env (.equal a b c)) :
    Environment.All P env a ∧ Environment.All P env b ∧ Environment.All P env c := by
  have ht := Term.all_equal.1 h.term
  exact ⟨h.sub ht.1 (by simp +contextual), h.sub ht.2.1 (by simp +contextual),
    h.sub ht.2.2 (by simp +contextual)⟩

theorem same (h : Environment.All P env (.same a)) : Environment.All P env a :=
  h.sub (Term.all_same.1 h.term) (by simp)

theorem declared (h : Environment.All P env (.declared k x a b)) :
    P (.labels (k :: b.classLabels)) ∧ P (.rest b) ∧ Environment.All P env a ∧
      Closure.All P ⟨env, x, b⟩ := by
  obtain ⟨hl, hr, ha, hb⟩ := Term.all_declared.1 h.term
  exact ⟨hl, hr, h.sub ha (by simp +contextual), h.close hb (by simp +contextual)⟩

theorem fulfilled (h : Environment.All P env (.fulfilled k x a b c)) :
    P (.fulfilled k c.classLabels) ∧ Environment.All P env a ∧ Environment.All P env b ∧
      Closure.All P ⟨env, x, c⟩ := by
  obtain ⟨hl, -, ha, hb, hc⟩ := Term.all_fulfilled.1 h.term
  exact ⟨hl, h.sub ha (by simp +contextual), h.sub hb (by simp +contextual),
    h.close hc (by simp +contextual)⟩

theorem object {fields : List (Name × Term)} (h : Environment.All P env (.object fields)) :
    P (.fields (fields.map Prod.fst)) ∧ ∀ f ∈ fields, Environment.All P env f.2 := by
  obtain ⟨hl, hf⟩ := Term.all_object.1 h.term
  exact ⟨hl, fun f hm => h.sub (hf f hm) fun y hy => Term.mem_freeNames_object.2 ⟨f, hm, hy⟩⟩

theorem dot (h : Environment.All P env (.dot a k)) : Environment.All P env a :=
  h.sub (Term.all_dot.1 h.term) (by simp)

theorem letIn (h : Environment.All P env (.letIn x a b c)) :
    Environment.All P env b ∧ Closure.All P ⟨env, x, c⟩ := by
  obtain ⟨-, hb, hc⟩ := Term.all_letIn.1 h.term
  exact ⟨h.sub hb (by simp +contextual), h.close hc (by simp +contextual)⟩

end Environment.All

end

end DependentClasses
