import DependentClasses.Name
import DependentClasses.Plicity
import Mathlib.Logic.Relation
import Mathlib.Tactic.Common

/-! Codes: what terms and values compute, without the types that stuck computations record. Bound
variables are counted from the inside, free ones keep their names, and a free name may have a
meaning, which is a code without bound variables. A code is computed by carrying out operations and
by putting meanings for names, anywhere in it. The order in which this is done does not matter. -/
namespace DependentClasses

/-- What a former without computation is. -/
inductive Tag
  | pi (p : Plicity)
  | fn (p : Plicity)
  | sigma
  | cons
  | equal
  | same
  | declared (label : Name)
  | fulfilled (label : Name)
  | object
  | field (label : Name)

inductive Atom
  | type
  | string
  | quote (text : String)
  | trivial
  | sole
  | emptyClass
  | noFields

inductive Selector
  | car
  | cdr
  | dot (label : Name)

inductive Code
  | bound (i : Nat)
  | free (x : Name)
  | atom (a : Atom)
  | tag (t : Tag) (c : Code)
  | join (c d : Code)
  /-- A scope with one bound variable. -/
  | under (c : Code)
  | app (p : Plicity) (f a : Code)
  | take (s : Selector) (c : Code)

namespace Code

section Substitution

def liftIndex (ξ : Nat → Nat) : Nat → Nat
  | 0 => 0
  | i + 1 => ξ i + 1

def rename : (Nat → Nat) → Code → Code
  | ξ, bound i => bound (ξ i)
  | _, free x => free x
  | _, atom a => atom a
  | ξ, tag t c => tag t (c.rename ξ)
  | ξ, join c d => join (c.rename ξ) (d.rename ξ)
  | ξ, under c => under (c.rename (liftIndex ξ))
  | ξ, app p f a => app p (f.rename ξ) (a.rename ξ)
  | ξ, take s c => take s (c.rename ξ)

/-- The code, seen from below one more binder. -/
def shift (c : Code) : Code := c.rename Nat.succ

def lift (σ : Nat → Code) : Nat → Code
  | 0 => bound 0
  | i + 1 => (σ i).shift

def subst : (Nat → Code) → Code → Code
  | σ, bound i => σ i
  | _, free x => free x
  | _, atom a => atom a
  | σ, tag t c => tag t (c.subst σ)
  | σ, join c d => join (c.subst σ) (d.subst σ)
  | σ, under c => under (c.subst (lift σ))
  | σ, app p f a => app p (f.subst σ) (a.subst σ)
  | σ, take s c => take s (c.subst σ)

def single (a : Code) : Nat → Code
  | 0 => a
  | i + 1 => bound i

/-- A scope, opened by `a`. -/
def inst (c a : Code) : Code := c.subst (single a)

theorem rename_eq_subst (c : Code) (ξ : Nat → Nat) : c.rename ξ = c.subst fun i => bound (ξ i) := by
  induction c generalizing ξ with
  | bound i | free x | atom a => rfl
  | tag t c ih | take s c ih => simp only [rename, subst, ih]
  | join c d ihc ihd | app p c d ihc ihd => simp only [rename, subst, ihc, ihd]
  | under c ih =>
    have hlift : (fun i => bound (liftIndex ξ i)) = lift fun i => bound (ξ i) := by
      funext i
      cases i <;> rfl
    simp only [rename, subst, ih, hlift]

theorem subst_bound (c : Code) : c.subst bound = c := by
  induction c with
  | bound i | free x | atom a => rfl
  | tag t c ih | take s c ih => simp only [subst, ih]
  | join c d ihc ihd | app p c d ihc ihd => simp only [subst, ihc, ihd]
  | under c ih =>
    have hlift : lift bound = bound := by
      funext i
      cases i <;> rfl
    simp only [subst, hlift, ih]

theorem subst_rename (c : Code) (ξ : Nat → Nat) (σ : Nat → Code) :
    (c.rename ξ).subst σ = c.subst fun i => σ (ξ i) := by
  induction c generalizing ξ σ with
  | bound i | free x | atom a => rfl
  | tag t c ih | take s c ih => simp only [rename, subst, ih]
  | join c d ihc ihd | app p c d ihc ihd => simp only [rename, subst, ihc, ihd]
  | under c ih =>
    have hlift : (fun i => lift σ (liftIndex ξ i)) = lift fun i => σ (ξ i) := by
      funext i
      cases i <;> rfl
    simp only [rename, subst, ih, hlift]

theorem rename_rename (c : Code) (ξ ζ : Nat → Nat) :
    (c.rename ξ).rename ζ = c.rename fun i => ζ (ξ i) := by
  rw [rename_eq_subst _ ζ, subst_rename, rename_eq_subst]

theorem rename_subst (c : Code) (σ : Nat → Code) (ξ : Nat → Nat) :
    (c.subst σ).rename ξ = c.subst fun i => (σ i).rename ξ := by
  induction c generalizing ξ σ with
  | bound i | free x | atom a => rfl
  | tag t c ih | take s c ih => simp only [rename, subst, ih]
  | join c d ihc ihd | app p c d ihc ihd => simp only [rename, subst, ihc, ihd]
  | under c ih =>
    have hlift : (fun i => (lift σ i).rename (liftIndex ξ)) = lift fun i => (σ i).rename ξ := by
      funext i
      cases i with
      | zero => rfl
      | succ i =>
        simp only [lift, shift, rename_rename]
        rfl
    simp only [rename, subst, ih, hlift]

theorem shift_subst_lift (c : Code) (σ : Nat → Code) :
    c.shift.subst (lift σ) = (c.subst σ).shift := by
  rw [shift, subst_rename, shift, rename_subst]
  rfl

theorem subst_subst (c : Code) (σ τ : Nat → Code) :
    (c.subst σ).subst τ = c.subst fun i => (σ i).subst τ := by
  induction c generalizing σ τ with
  | bound i | free x | atom a => rfl
  | tag t c ih | take s c ih => simp only [subst, ih]
  | join c d ihc ihd | app p c d ihc ihd => simp only [subst, ihc, ihd]
  | under c ih =>
    have hlift : (fun i => (lift σ i).subst (lift τ)) = lift fun i => (σ i).subst τ := by
      funext i
      cases i with
      | zero => rfl
      | succ i => exact shift_subst_lift (σ i) τ
    simp only [subst, ih, hlift]

theorem shift_subst_single (c a : Code) : c.shift.subst (single a) = c := by
  rw [shift, subst_rename]
  exact subst_bound c

theorem inst_subst (c a : Code) (σ : Nat → Code) :
    (c.inst a).subst σ = (c.subst (lift σ)).inst (a.subst σ) := by
  rw [inst, inst, subst_subst, subst_subst]
  congr 1
  funext i
  cases i with
  | zero => rfl
  | succ i => exact (shift_subst_single (σ i) _).symm

theorem inst_rename (c a : Code) (ξ : Nat → Nat) :
    (c.inst a).rename ξ = (c.rename (liftIndex ξ)).inst (a.rename ξ) := by
  have hunder : under (c.rename (liftIndex ξ)) = under (c.subst (lift fun i => bound (ξ i))) :=
    rename_eq_subst (under c) ξ
  rw [rename_eq_subst, inst_subst, ← rename_eq_subst, ← (under.inj hunder)]

end Substitution

/-- No substitution changes the code. -/
def IsClosed (c : Code) : Prop := ∀ σ, c.subst σ = c

section Selection

def field (k : Name) : Code → Option Code
  | join (tag (.field j) c) rest => if k = j then some c else rest.field k
  | _ => none

/-- What a selector takes out of a pair or an object that is there. -/
def pick : Selector → Code → Option Code
  | .car, tag .cons (join c _) => some c
  | .cdr, tag .cons (join _ d) => some d
  | .dot k, tag .object fields => fields.field k
  | _, _ => none

theorem field_subst {k : Name} {c d : Code} (σ : Nat → Code) (h : c.field k = some d) :
    (c.subst σ).field k = some (d.subst σ) := by
  fun_induction field k c with
  | case1 => cases h; simp [subst, field]
  | case2 j c rest hne ih => simp [subst, field, hne, ih h]
  | case3 => cases h

theorem pick_subst {s : Selector} {c d : Code} (σ : Nat → Code) (h : c.pick s = some d) :
    (c.subst σ).pick s = some (d.subst σ) := by
  unfold pick at h
  split at h
  · cases h
    rfl
  · cases h
    rfl
  · exact field_subst σ h
  · cases h

theorem pick_rename {s : Selector} {c d : Code} (ξ : Nat → Nat) (h : c.pick s = some d) :
    (c.rename ξ).pick s = some (d.rename ξ) := by
  rw [rename_eq_subst, rename_eq_subst]
  exact pick_subst _ h

end Selection

end Code

structure Meanings where
  of : Name → Option Code
  closed {x : Name} {c : Code} : of x = some c → c.IsClosed

namespace Code

/-- Some operations that can be carried out are carried out, and some names are replaced by their
meanings. An operation may become possible by what is done below it. -/
inductive Par (D : Meanings) : Code → Code → Prop
  | bound (i : Nat) : Par D (bound i) (bound i)
  | free (x : Name) : Par D (free x) (free x)
  | meaning {x c} : D.of x = some c → Par D (free x) c
  | atom (a : Atom) : Par D (atom a) (atom a)
  | tag (t) {c c'} : Par D c c' → Par D (tag t c) (tag t c')
  | join {c c' d d'} : Par D c c' → Par D d d' → Par D (join c d) (join c' d')
  | under {c c'} : Par D c c' → Par D (under c) (under c')
  | app (p) {f f' a a'} : Par D f f' → Par D a a' → Par D (app p f a) (app p f' a')
  | beta {p f d b a a'} : Par D f (.tag (.fn p) (.join d (.under b))) → Par D a a' →
      Par D (.app p f a) (b.inst a')
  | take (s) {c c'} : Par D c c' → Par D (take s c) (take s c')
  | pick {s c c' d} : Par D c c' → c'.pick s = some d → Par D (.take s c) d

namespace Par

variable {D : Meanings} {c c' d d' : Code}

theorem refl (D : Meanings) : (c : Code) → Par D c c
  | .bound i => .bound i
  | .free x => .free x
  | .atom a => .atom a
  | .tag t c => .tag t (refl D c)
  | .join c d => .join (refl D c) (refl D d)
  | .under c => .under (refl D c)
  | .app p f a => .app p (refl D f) (refl D a)
  | .take s c => .take s (refl D c)

theorem rename (h : Par D c c') (ξ : Nat → Nat) : Par D (c.rename ξ) (c'.rename ξ) := by
  induction h generalizing ξ with
  | bound i => exact .bound _
  | free x => exact .free x
  | atom a => exact .atom a
  | @meaning x c hx =>
    rw [rename_eq_subst c, D.closed hx]
    exact .meaning hx
  | tag t _ ih => exact .tag t (ih ξ)
  | join _ _ ihc ihd => exact .join (ihc ξ) (ihd ξ)
  | under _ ih => exact .under (ih _)
  | app p _ _ ihf iha => exact .app p (ihf ξ) (iha ξ)
  | take s _ ih => exact .take s (ih ξ)
  | beta _ _ ihf iha =>
    rw [inst_rename]
    exact .beta (ihf ξ) (iha ξ)
  | pick _ hpick ih => exact .pick (ih ξ) (pick_rename ξ hpick)

theorem shift (h : Par D c c') : Par D c.shift c'.shift := h.rename Nat.succ

theorem lift {σ τ : Nat → Code} (h : ∀ i, Par D (σ i) (τ i)) :
    ∀ i, Par D (Code.lift σ i) (Code.lift τ i)
  | 0 => .bound 0
  | i + 1 => (h i).shift

theorem subst (h : Par D c c') {σ τ : Nat → Code} (hσ : ∀ i, Par D (σ i) (τ i)) :
    Par D (c.subst σ) (c'.subst τ) := by
  induction h generalizing σ τ with
  | bound i => exact hσ i
  | free x => exact .free x
  | atom a => exact .atom a
  | meaning hx =>
    rw [D.closed hx]
    exact .meaning hx
  | tag t _ ih => exact .tag t (ih hσ)
  | join _ _ ihc ihd => exact .join (ihc hσ) (ihd hσ)
  | under _ ih => exact .under (ih (lift hσ))
  | app p _ _ ihf iha => exact .app p (ihf hσ) (iha hσ)
  | take s _ ih => exact .take s (ih hσ)
  | beta _ _ ihf iha =>
    rw [inst_subst]
    exact .beta (ihf hσ) (iha hσ)
  | pick _ hpick ih => exact .pick (ih hσ) (pick_subst τ hpick)

theorem inst {b b' a a' : Code} (hb : Par D b b') (ha : Par D a a') :
    Par D (b.inst a) (b'.inst a') := by
  refine hb.subst fun i => ?_
  cases i with
  | zero => exact ha
  | succ i => exact .bound i

/-- A function stays a function. -/
theorem of_fn {p : Plicity} {b : Code} (h : Par D (.tag (.fn p) (.join d (.under b))) c) :
    ∃ d' b', c = .tag (.fn p) (.join d' (.under b')) ∧ Par D b b' := by
  cases h with
  | tag _ h =>
    cases h with
    | join _ h =>
      cases h with
      | under h => exact ⟨_, _, rfl, h⟩

theorem of_field {k : Name} (hd : c.field k = some d) (h : Par D c c') :
    ∃ d', c'.field k = some d' ∧ Par D d d' := by
  fun_induction field k c generalizing c' with
  | case1 c rest =>
    cases hd
    cases h with
    | join hfield _ =>
      cases hfield with
      | tag _ hfield => exact ⟨_, by simp [field], hfield⟩
  | case2 j c rest hne ih =>
    cases h with
    | join hfield hrest =>
      cases hfield with
      | tag _ hfield =>
        obtain ⟨d', hd', h⟩ := ih hd hrest
        exact ⟨d', by simp [field, hne, hd'], h⟩
  | case3 => cases hd

/-- What can be taken out can still be taken out. -/
theorem of_pick {s : Selector} (hd : c.pick s = some d) (h : Par D c c') :
    ∃ d', c'.pick s = some d' ∧ Par D d d' := by
  unfold Code.pick at hd
  split at hd
  · cases hd
    cases h with
    | tag _ h =>
      cases h with
      | join hc _ => exact ⟨_, rfl, hc⟩
  · cases hd
    cases h with
    | tag _ h =>
      cases h with
      | join _ hd => exact ⟨_, rfl, hd⟩
  · cases h with
    | tag _ h => exact of_field hd h
  · cases hd

end Par

section Development

def apply (p : Plicity) (f a : Code) : Code :=
  match f with
  | tag (.fn q) (join _ (under b)) => if p = q then b.inst a else app p f a
  | _ => app p f a

/-- All that can be carried out, from the inside to the outside. -/
def develop (D : Meanings) : Code → Code
  | bound i => bound i
  | free x => (D.of x).getD (free x)
  | atom a => atom a
  | tag t c => tag t (c.develop D)
  | join c d => join (c.develop D) (d.develop D)
  | under c => under (c.develop D)
  | app p f a => apply p (f.develop D) (a.develop D)
  | take s c => ((c.develop D).pick s).getD (take s (c.develop D))

variable {D : Meanings} {c c' d : Code}

theorem Par.apply {p : Plicity} {f f' a a' : Code} (hf : Par D f f') (ha : Par D a a') :
    Par D (.app p f a) (Code.apply p f' a') := by
  unfold Code.apply
  split
  · split
    · next h =>
      cases h
      exact .beta hf ha
    · exact .app p hf ha
  · exact .app p hf ha

/-- Whatever has been carried out, the rest can be. -/
theorem Par.develop (h : Par D c c') : Par D c' (c.develop D) := by
  induction h with
  | bound i => exact .bound i
  | atom a => exact .atom a
  | free x =>
    unfold Code.develop
    cases hx : D.of x with
    | none => exact .free x
    | some c => exact .meaning hx
  | @meaning x c hx =>
    simp only [Code.develop, hx, Option.getD_some]
    exact .refl D c
  | tag t _ ih => exact .tag t ih
  | join _ _ ihc ihd => exact .join ihc ihd
  | under _ ih => exact .under ih
  | app p _ _ ihf iha => exact ihf.apply iha
  | @beta p f d b a a' _ _ ihf iha =>
    obtain ⟨d', b', hf, hb⟩ := ihf.of_fn
    simp only [Code.develop, hf, Code.apply, if_true]
    exact hb.inst iha
  | @take s c c' _ ih =>
    unfold Code.develop
    cases hpick : (c.develop D).pick s with
    | none => exact .take s ih
    | some d => exact .pick ih hpick
  | @pick s c c' d _ hpick ih =>
    obtain ⟨d', hd', h⟩ := ih.of_pick hpick
    simp only [Code.develop, hd', Option.getD_some]
    exact h

end Development

section Avoidance

variable {F : Name → Prop} {D : Meanings} {c c' d : Code}

/-- No property with a label in `F` is selected. -/
def Avoids (F : Name → Prop) : Code → Prop
  | tag _ c => c.Avoids F
  | join c d => c.Avoids F ∧ d.Avoids F
  | under c => c.Avoids F
  | app _ f a => f.Avoids F ∧ a.Avoids F
  | take (.dot k) c => ¬ F k ∧ c.Avoids F
  | take _ c => c.Avoids F
  | _ => True

theorem avoids_take {s : Selector} :
    (take s c).Avoids F ↔ (∀ k, s = .dot k → ¬ F k) ∧ c.Avoids F := by
  cases s <;> simp [Avoids]

theorem Avoids.rename (h : c.Avoids F) (ξ : Nat → Nat) : (c.rename ξ).Avoids F := by
  induction c generalizing ξ with
  | bound i | free x | atom a => trivial
  | tag t c ih | under c ih => exact ih h _
  | join c d ihc ihd | app p c d ihc ihd => exact ⟨ihc h.1 ξ, ihd h.2 ξ⟩
  | take s c ih =>
    obtain ⟨hs, h⟩ := avoids_take.1 h
    exact avoids_take.2 ⟨hs, ih h ξ⟩

theorem Avoids.subst (h : c.Avoids F) {σ : Nat → Code} (hσ : ∀ i, (σ i).Avoids F) :
    (c.subst σ).Avoids F := by
  induction c generalizing σ with
  | bound i => exact hσ i
  | free x | atom a => trivial
  | tag t c ih => exact ih h hσ
  | under c ih =>
    refine ih h fun i => ?_
    cases i with
    | zero => trivial
    | succ i => exact (hσ i).rename _
  | join c d ihc ihd | app p c d ihc ihd => exact ⟨ihc h.1 hσ, ihd h.2 hσ⟩
  | take s c ih =>
    obtain ⟨hs, h⟩ := avoids_take.1 h
    exact avoids_take.2 ⟨hs, ih h hσ⟩

theorem Avoids.inst {a : Code} (h : c.Avoids F) (ha : a.Avoids F) : (c.inst a).Avoids F := by
  refine h.subst fun i => ?_
  cases i with
  | zero => exact ha
  | succ i => trivial

theorem Avoids.field {k : Name} (h : c.Avoids F) (hd : c.field k = some d) : d.Avoids F := by
  fun_induction Code.field k c with
  | case1 =>
    cases hd
    exact h.1
  | case2 j c rest hne ih => exact ih h.2 hd
  | case3 => cases hd

theorem Avoids.pick {s : Selector} (h : c.Avoids F) (hd : c.pick s = some d) : d.Avoids F := by
  unfold Code.pick at hd
  split at hd
  · cases hd
    exact h.1
  · cases hd
    exact h.2
  · next fields =>
    have hfields : fields.Avoids F := h
    exact hfields.field hd
  · cases hd

theorem Par.avoids (hD : ∀ x c, D.of x = some c → c.Avoids F) (h : Par D c c') (hc : c.Avoids F) :
    c'.Avoids F := by
  induction h with
  | bound i | free x | atom a => trivial
  | meaning hx => exact hD _ _ hx
  | tag t _ ih | under _ ih => exact ih hc
  | join _ _ ihc ihd | app p _ _ ihc ihd => exact ⟨ihc hc.1, ihd hc.2⟩
  | @beta p f d b a a' _ _ ihf iha =>
    have hb : b.Avoids F := (ihf hc.1).2
    exact hb.inst (iha hc.2)
  | take s _ ih =>
    obtain ⟨hs, hc⟩ := avoids_take.1 hc
    exact avoids_take.2 ⟨hs, ih hc⟩
  | pick _ hpick ih => exact (ih (avoids_take.1 hc).2).pick hpick

end Avoidance

/-- The code is computed, as far as one likes. -/
def Reduces (D : Meanings) : Code → Code → Prop := Relation.ReflTransGen (Par D)

def Settled (D : Meanings) (c : Code) : Prop := ∀ d, Par D c d → d = c

namespace Reduces

variable {D D' : Meanings} {b c d e c' d' : Code}

theorem refl (c : Code) : Reduces D c c := Relation.ReflTransGen.refl

theorem single (h : Par D c d) : Reduces D c d := Relation.ReflTransGen.single h

theorem trans (h : Reduces D c d) (h' : Reduces D d e) : Reduces D c e :=
  Relation.ReflTransGen.trans h h'

/-- The result does not depend on the order of the steps. -/
theorem confluent (h : Reduces D c d) (h' : Reduces D c e) : ∃ r, Reduces D d r ∧ Reduces D e r :=
  Relation.church_rosser (fun b _ _ hc hd => ⟨b.develop D, .single hc.develop, .single hd.develop⟩)
    h h'

theorem eq_of_settled (h : Reduces D c d) (hc : c.Settled D) : d = c := by
  induction h with
  | refl => rfl
  | tail _ hstep ih =>
    subst ih
    exact hc _ hstep

/-- What there is nothing to carry out in is reached from everything on the way. -/
theorem to_settled (h : Reduces D c d) (h' : Reduces D c e) (he : e.Settled D) : Reduces D d e := by
  obtain ⟨r, hd, hr⟩ := h.confluent h'
  rwa [hr.eq_of_settled he] at hd

theorem settled_unique (h : Reduces D c d) (h' : Reduces D c e) (hd : d.Settled D)
    (he : e.Settled D) : d = e :=
  ((h.to_settled h' he).eq_of_settled hd).symm

theorem map {f : Code → Code} (hf : ∀ c d, Par D c d → Par D (f c) (f d)) (h : Reduces D c d) :
    Reduces D (f c) (f d) :=
  Relation.ReflTransGen.lift f hf _ _ h

theorem map₂ {f : Code → Code → Code}
    (hf : ∀ c c' d d', Par D c c' → Par D d d' → Par D (f c d) (f c' d')) (h : Reduces D c c')
    (h' : Reduces D d d') : Reduces D (f c d) (f c' d') :=
  (h.map fun _ _ hc => hf _ _ d d hc (.refl D d)).trans
    (h'.map fun _ _ hd => hf c' c' _ _ (.refl D c') hd)

theorem tag (t : Tag) (h : Reduces D c c') : Reduces D (tag t c) (tag t c') :=
  h.map fun _ _ => .tag t

theorem join (h : Reduces D c c') (h' : Reduces D d d') : Reduces D (join c d) (join c' d') :=
  h.map₂ (fun _ _ _ _ => .join) h'

theorem under (h : Reduces D c c') : Reduces D (under c) (under c') := h.map fun _ _ => .under

theorem app (p : Plicity) (h : Reduces D c c') (h' : Reduces D d d') :
    Reduces D (app p c d) (app p c' d') :=
  h.map₂ (fun _ _ _ _ => .app p) h'

theorem take (s : Selector) (h : Reduces D c c') : Reduces D (take s c) (take s c') :=
  h.map fun _ _ => .take s

theorem beta {p : Plicity} {a : Code} :
    Reduces D (.app p (.tag (.fn p) (.join d (.under b))) a) (b.inst a) :=
  single (.beta (.refl D _) (.refl D a))

theorem pick {s : Selector} (h : c.pick s = some d) : Reduces D (.take s c) d :=
  single (.pick (.refl D c) h)

theorem avoids {F : Name → Prop} (hD : ∀ x c, D.of x = some c → c.Avoids F) (h : Reduces D c d)
    (hc : c.Avoids F) : d.Avoids F := by
  induction h with
  | refl => exact hc
  | tail _ hstep ih => exact hstep.avoids hD ih

/-- Meanings may be added. -/
theorem mono (hD : ∀ x c, D.of x = some c → D'.of x = some c) (h : Reduces D c d) :
    Reduces D' c d := by
  refine Relation.ReflTransGen.mono (fun c d h => ?_) _ _ h
  induction h with
  | bound i => exact .bound i
  | free x => exact .free x
  | atom a => exact .atom a
  | meaning hx => exact .meaning (hD _ _ hx)
  | tag t _ ih => exact .tag t ih
  | join _ _ ihc ihd => exact .join ihc ihd
  | under _ ih => exact .under ih
  | app p _ _ ihf iha => exact .app p ihf iha
  | take s _ ih => exact .take s ih
  | beta _ _ ihf iha => exact .beta ihf iha
  | pick _ hpick ih => exact .pick ih hpick

end Reduces

end Code

end DependentClasses
