import DependentClasses.Proofs.Similarity
import Mathlib.Logic.Relation

/-! What can be reached from a value: its components, the spines of stuck computations and the types
that these record, the properties of classes, and everything that the environment of a closure
holds, whether the body asks for it or not. What is asked of everything that can be reached is asked
of a value itself and of what it directly holds. -/
namespace DependentClasses

namespace Item

/-- What an item directly holds. -/
def Holds : Item → Item → Prop
  | .value (.neutral a e), j => j = .value a ∨ j = .spine e
  | .value (.pi _ a c), j => j = .value a ∨ j = .closure c
  | .value (.fn _ a c), j => j = .value a ∨ j = .closure c
  | .value (.sigma a c), j => j = .value a ∨ j = .closure c
  | .value (.cons a b), j => j = .value a ∨ j = .value b
  | .value (.equal a l r), j => j = .value a ∨ j = .value l ∨ j = .value r
  | .value (.same a), j => j = .value a
  | .value (.classOf c), j => j = .chain c
  | .value (.object fields), j => ∃ f ∈ fields, j = .value f.2
  | .value _, _ => False
  | .spine (.var _), _ => False
  | .spine (.app _ e a v), j => j = .spine e ∨ j = .value a ∨ j = .value v
  | .spine (.car e), j => j = .spine e
  | .spine (.cdr e), j => j = .spine e
  | .spine (.dot e _), j => j = .spine e
  | .chain .nil, _ => False
  | .chain (.declared _ a c), j => j = .value a ∨ j = .closure c
  | .chain (.fulfilled _ a v c), j => j = .value a ∨ j = .value v ∨ j = .chain c
  | .closure c, j => ∃ y w, c.env.lookup y = some w ∧ j = .value w

/-- Everything that an item is made of. -/
def Reaches : Item → Item → Prop := Relation.ReflTransGen Holds

/-- The parts that an item has apart from those of what it holds. -/
def Own : Item → Part → Prop
  | .value (.object fields), q => q = .fields (fields.map Prod.fst)
  | .value _, _ => False
  | .spine (.var x), q => q = .name x
  | .spine _, _ => False
  | .chain .nil, _ => False
  | .chain (.declared k _ c), q => q = .labels (k :: c.body.classLabels) ∨ q = .rest c.body
  | .chain (.fulfilled k _ _ c), q => q = .fulfilled k c.classLabels
  | .closure c, q =>
    c.body.Has q ∨ ∃ y ∈ c.body.freeNames, y ≠ c.x ∧ c.env.lookup y = none ∧ q = .missing y

/-- Whatever can be reached has only parts that `P` allows. -/
def Every (P : Part → Prop) (i : Item) : Prop := ∀ j, i.Reaches j → ∀ q, j.Own q → P q

theorem every_iff {P : Part → Prop} {i : Item} :
    i.Every P ↔ (∀ q, i.Own q → P q) ∧ ∀ j, i.Holds j → j.Every P := by
  constructor
  · intro h
    exact ⟨h i .refl, fun j hj k hk => h k (.head hj hk)⟩
  · rintro ⟨hown, hholds⟩ k hk
    rcases Relation.ReflTransGen.cases_head hk with rfl | ⟨j, hj, hk⟩
    · exact hown
    · exact hholds j hj k hk

section

variable {P : Part → Prop} {i j k l : Item}

/-- An item that holds nothing and has no parts of its own. -/
theorem every_leaf (hown : ∀ q, ¬ i.Own q) (hholds : ∀ m, ¬ i.Holds m) : i.Every P :=
  every_iff.2 ⟨fun q hq => (hown q hq).elim, fun m hm => (hholds m hm).elim⟩

theorem every_single (hown : ∀ q, ¬ i.Own q) (hholds : ∀ m, i.Holds m ↔ m = j) :
    i.Every P ↔ j.Every P := by
  simp only [every_iff (i := i), hown, hholds, false_imp_iff, implies_true, forall_eq, true_and]

theorem every_pair (hown : ∀ q, ¬ i.Own q) (hholds : ∀ m, i.Holds m ↔ m = j ∨ m = k) :
    i.Every P ↔ j.Every P ∧ k.Every P := by
  simp only [every_iff (i := i), hown, hholds, false_imp_iff, implies_true, forall_eq_or_imp,
    forall_eq, true_and]

theorem every_triple (hown : ∀ q, ¬ i.Own q) (hholds : ∀ m, i.Holds m ↔ m = j ∨ m = k ∨ m = l) :
    i.Every P ↔ j.Every P ∧ k.Every P ∧ l.Every P := by
  simp only [every_iff (i := i), hown, hholds, false_imp_iff, implies_true, forall_eq_or_imp,
    forall_eq, true_and]

end

end Item

section

variable {P : Part → Prop}

def Value.Every (P : Part → Prop) (v : Value) : Prop := Item.Every P (.value v)

def Neutral.Every (P : Part → Prop) (e : Neutral) : Prop := Item.Every P (.spine e)

def Chain.Every (P : Part → Prop) (c : Chain) : Prop := Item.Every P (.chain c)

def Closure.Every (P : Part → Prop) (c : Closure) : Prop := Item.Every P (.closure c)

namespace Value

variable {p : Plicity} {a b c : Value} {e : Neutral} {d : Closure} {chain : Chain}

theorem every_neutral : (neutral a e).Every P ↔ a.Every P ∧ e.Every P :=
  Item.every_pair (fun _ => id) fun _ => Iff.rfl

theorem every_type : type.Every P := Item.every_leaf (fun _ => id) fun _ => id

theorem every_pi : (pi p a d).Every P ↔ a.Every P ∧ d.Every P :=
  Item.every_pair (fun _ => id) fun _ => Iff.rfl

theorem every_fn : (fn p a d).Every P ↔ a.Every P ∧ d.Every P :=
  Item.every_pair (fun _ => id) fun _ => Iff.rfl

theorem every_sigma : (sigma a d).Every P ↔ a.Every P ∧ d.Every P :=
  Item.every_pair (fun _ => id) fun _ => Iff.rfl

theorem every_cons : (cons a b).Every P ↔ a.Every P ∧ b.Every P :=
  Item.every_pair (fun _ => id) fun _ => Iff.rfl

theorem every_string : string.Every P := Item.every_leaf (fun _ => id) fun _ => id

theorem every_quote (t : String) : (quote t).Every P := Item.every_leaf (fun _ => id) fun _ => id

theorem every_trivial : trivial.Every P := Item.every_leaf (fun _ => id) fun _ => id

theorem every_sole : sole.Every P := Item.every_leaf (fun _ => id) fun _ => id

theorem every_equal : (equal a b c).Every P ↔ a.Every P ∧ b.Every P ∧ c.Every P :=
  Item.every_triple (fun _ => id) fun _ => Iff.rfl

theorem every_same : (same a).Every P ↔ a.Every P :=
  Item.every_single (fun _ => id) fun _ => Iff.rfl

theorem every_classOf : (classOf chain).Every P ↔ chain.Every P :=
  Item.every_single (fun _ => id) fun _ => Iff.rfl

theorem every_object {fields : List (Name × Value)} :
    (object fields).Every P ↔ P (.fields (fields.map Prod.fst)) ∧ ∀ f ∈ fields, f.2.Every P := by
  refine Item.every_iff.trans (and_congr forall_eq ⟨fun h f hf => h _ ⟨f, hf, rfl⟩, ?_⟩)
  rintro h _ ⟨f, hf, rfl⟩
  exact h f hf

end Value

namespace Neutral

variable {x k : Name} {p : Plicity} {a v : Value} {e : Neutral}

theorem every_var : (var x).Every P ↔ P (.name x) :=
  Item.every_iff.trans ⟨fun h => h.1 _ rfl, fun h => ⟨fun _ hq => hq ▸ h, fun _ => False.elim⟩⟩

theorem every_app : (app p e a v).Every P ↔ e.Every P ∧ a.Every P ∧ v.Every P :=
  Item.every_triple (fun _ => id) fun _ => Iff.rfl

theorem every_car : (car e).Every P ↔ e.Every P := Item.every_single (fun _ => id) fun _ => Iff.rfl

theorem every_cdr : (cdr e).Every P ↔ e.Every P := Item.every_single (fun _ => id) fun _ => Iff.rfl

theorem every_dot : (dot e k).Every P ↔ e.Every P :=
  Item.every_single (fun _ => id) fun _ => Iff.rfl

end Neutral

theorem Value.every_variable {a : Value} {x : Name} :
    (Value.variable a x).Every P ↔ a.Every P ∧ P (.name x) :=
  Value.every_neutral.trans (and_congr_right fun _ => Neutral.every_var)

namespace Chain

variable {k : Name} {a v : Value} {c : Chain} {d : Closure}

theorem every_nil : nil.Every P := Item.every_leaf (fun _ => id) fun _ => id

theorem every_declared : (declared k a d).Every P ↔
    P (.labels (k :: d.body.classLabels)) ∧ P (.rest d.body) ∧ a.Every P ∧ d.Every P := by
  constructor
  · intro h
    obtain ⟨hown, hholds⟩ := Item.every_iff.1 h
    exact ⟨hown _ (.inl rfl), hown _ (.inr rfl), hholds _ (.inl rfl), hholds _ (.inr rfl)⟩
  · rintro ⟨hlabels, hrest, ha, hd⟩
    refine Item.every_iff.2 ⟨?_, ?_⟩
    · rintro _ (rfl | rfl)
      · exact hlabels
      · exact hrest
    · rintro _ (rfl | rfl)
      · exact ha
      · exact hd

theorem every_fulfilled : (fulfilled k a v c).Every P ↔
    P (.fulfilled k c.classLabels) ∧ a.Every P ∧ v.Every P ∧ c.Every P := by
  refine Item.every_iff.trans (and_congr forall_eq ⟨fun h => ?_, ?_⟩)
  · exact ⟨h _ (.inl rfl), h _ (.inr (.inl rfl)), h _ (.inr (.inr rfl))⟩
  · rintro ⟨ha, hv, hc⟩ _ (rfl | rfl | rfl)
    · exact ha
    · exact hv
    · exact hc

end Chain

def Environment.Every (P : Part → Prop) (env : Environment) : Prop :=
  ∀ y w, env.lookup y = some w → w.Every P

theorem Closure.every_iff {env : Environment} {x : Name} {body : Term} :
    Closure.Every P ⟨env, x, body⟩ ↔ env.Every P ∧ body.All P ∧
      ∀ y ∈ body.freeNames, y ≠ x → env.lookup y = none → P (.missing y) := by
  refine Item.every_iff.trans ⟨fun ⟨hown, hholds⟩ => ⟨?_, ?_, ?_⟩,
    fun ⟨henv, hbody, hmissing⟩ => ⟨?_, ?_⟩⟩
  · exact fun y w hw => hholds _ ⟨y, w, hw, rfl⟩
  · exact fun q hq => hown q (.inl hq)
  · exact fun y hy hne hnone => hown _ (.inr ⟨y, hy, hne, hnone, rfl⟩)
  · rintro q (hq | ⟨y, hy, hne, hnone, rfl⟩)
    · exact hbody q hq
    · exact hmissing y hy hne hnone
  · rintro _ ⟨y, w, hw, rfl⟩
    exact henv y w hw

mutual

/-- What a closure keeps for the free names of its body is among what can be reached. -/
theorem Value.Every.all {v : Value} (h : v.Every P) : v.All P
  | _, .neutralType hq => Value.Every.all (Value.every_neutral.1 h).1 _ hq
  | _, .neutralSpine hq => Neutral.Every.all (Value.every_neutral.1 h).2 _ hq
  | _, .piDomain hq => Value.Every.all (Value.every_pi.1 h).1 _ hq
  | _, .piCodomain hq => Closure.Every.all (Value.every_pi.1 h).2 _ hq
  | _, .fnDomain hq => Value.Every.all (Value.every_fn.1 h).1 _ hq
  | _, .fnBody hq => Closure.Every.all (Value.every_fn.1 h).2 _ hq
  | _, .sigmaCar hq => Value.Every.all (Value.every_sigma.1 h).1 _ hq
  | _, .sigmaCdr hq => Closure.Every.all (Value.every_sigma.1 h).2 _ hq
  | _, .consCar hq => Value.Every.all (Value.every_cons.1 h).1 _ hq
  | _, .consCdr hq => Value.Every.all (Value.every_cons.1 h).2 _ hq
  | _, .equalType hq => Value.Every.all (Value.every_equal.1 h).1 _ hq
  | _, .equalLeft hq => Value.Every.all (Value.every_equal.1 h).2.1 _ hq
  | _, .equalRight hq => Value.Every.all (Value.every_equal.1 h).2.2 _ hq
  | _, .same hq => Value.Every.all (Value.every_same.1 h) _ hq
  | _, .classOf hq => Chain.Every.all (Value.every_classOf.1 h) _ hq
  | _, .object => (Value.every_object.1 h).1
  | _, .objectField hf hq => Value.Every.all ((Value.every_object.1 h).2 _ hf) _ hq

theorem Neutral.Every.all {e : Neutral} (h : e.Every P) : e.All P
  | _, .var => Neutral.every_var.1 h
  | _, .appTarget hq => Neutral.Every.all (Neutral.every_app.1 h).1 _ hq
  | _, .appType hq => Value.Every.all (Neutral.every_app.1 h).2.1 _ hq
  | _, .appArg hq => Value.Every.all (Neutral.every_app.1 h).2.2 _ hq
  | _, .car hq => Neutral.Every.all (Neutral.every_car.1 h) _ hq
  | _, .cdr hq => Neutral.Every.all (Neutral.every_cdr.1 h) _ hq
  | _, .dot hq => Neutral.Every.all (Neutral.every_dot.1 h) _ hq

theorem Chain.Every.all {c : Chain} (h : c.Every P) : c.All P
  | _, .declaredLabels => (Chain.every_declared.1 h).1
  | _, .declaredRest => (Chain.every_declared.1 h).2.1
  | _, .declaredType hq => Value.Every.all (Chain.every_declared.1 h).2.2.1 _ hq
  | _, .declaredClosure hq => Closure.Every.all (Chain.every_declared.1 h).2.2.2 _ hq
  | _, .fulfilledLabels => (Chain.every_fulfilled.1 h).1
  | _, .fulfilledType hq => Value.Every.all (Chain.every_fulfilled.1 h).2.1 _ hq
  | _, .fulfilledValue hq => Value.Every.all (Chain.every_fulfilled.1 h).2.2.1 _ hq
  | _, .fulfilledRest hq => Chain.Every.all (Chain.every_fulfilled.1 h).2.2.2 _ hq

theorem Closure.Every.all {c : Closure} (h : c.Every P) : c.All P
  | _, .body hq => (Closure.every_iff.1 h).2.1 _ hq
  | _, .missing hy hne hnone => (Closure.every_iff.1 h).2.2 _ hy hne hnone
  | _, .kept _ _ hw hq => Value.Every.all ((Closure.every_iff.1 h).1 _ _ hw) _ hq

end

/-- A closure differs from its weak reading in what it keeps without need. -/
theorem Closure.every_iff_all {env : Environment} {x : Name} {body : Term} :
    Closure.Every P ⟨env, x, body⟩ ↔ env.Every P ∧ Closure.All P ⟨env, x, body⟩ := by
  constructor
  · exact fun h => ⟨(Closure.every_iff.1 h).1, h.all⟩
  · rintro ⟨henv, h⟩
    obtain ⟨hbody, hkept⟩ := Closure.all_iff.1 h
    exact Closure.every_iff.2 ⟨henv, hbody, fun y hy hne => (hkept y hy hne).2⟩

theorem Environment.Every.cons {env : Environment} (h : env.Every P) {v : Value}
    (hv : v.Every P) (x : Name) :
    Environment.Every P ((x, v) :: env) := by
  intro y w hw
  rw [lookup_cons_ite] at hw
  split at hw
  · cases hw; exact hv
  · exact h y w hw

theorem Closure.Every.bind {c : Closure} (h : c.Every P) {v : Value} (hv : v.Every P) :
    Environment.Every P (c.bind v) ∧ Environment.All P (c.bind v) c.body := by
  obtain ⟨env, x, body⟩ := c
  exact ⟨(Closure.every_iff.1 h).1.cons hv x, h.all.bind hv.all⟩

end

end DependentClasses
