import DependentClasses.Proofs.AlphaEquality
import DependentClasses.Proofs.FreeNames
import Mathlib.Data.List.Forall2

/-! Terms that differ only in the names of their variables. Which free name of one term stands for
which of the other is told by a relation; binders are related to binders. -/
namespace DependentClasses

section

variable {α β : Type} {P : α → β → Prop} {fs : List (Name × α)} {gs : List (Name × β)}

def FieldsAlike (P : α → β → Prop) (fs : List (Name × α)) (gs : List (Name × β)) : Prop :=
  List.Forall₂ (fun f g => f.1 = g.1 ∧ P f.2 g.2) fs gs

theorem fieldsAlike_iff :
    FieldsAlike P fs gs ↔ fs.map Prod.fst = gs.map Prod.fst ∧
      ∀ (i : Nat) (f : Name × α) (g : Name × β), fs[i]? = some f → gs[i]? = some g → P f.2 g.2 := by
  unfold FieldsAlike
  induction fs generalizing gs with
  | nil =>
    cases gs with
    | nil => simp
    | cons g gs => simp
  | cons f fs ih =>
    cases gs with
    | nil => simp
    | cons g gs =>
      simp only [List.forall₂_cons, ih, List.map_cons, List.cons.injEq]
      constructor
      · rintro ⟨⟨hlabel, hfg⟩, hlabels, hrest⟩
        refine ⟨⟨hlabel, hlabels⟩, fun i f' g' hf hg => ?_⟩
        cases i with
        | zero =>
          cases hf
          cases hg
          exact hfg
        | succ i => exact hrest i f' g' hf hg
      · rintro ⟨⟨hlabel, hlabels⟩, h⟩
        exact ⟨⟨hlabel, h 0 f g rfl rfl⟩, hlabels, fun i => h (i + 1)⟩

theorem FieldsAlike.exists_mem (h : FieldsAlike P fs gs) {f : Name × α} (hf : f ∈ fs) :
    ∃ g ∈ gs, f.1 = g.1 ∧ P f.2 g.2 := by
  induction h with
  | nil => cases hf
  | cons hfg _ ih =>
    rcases List.mem_cons.1 hf with rfl | hf
    · exact ⟨_, List.mem_cons_self, hfg⟩
    · obtain ⟨g, hg, h⟩ := ih hf
      exact ⟨g, List.mem_cons_of_mem _ hg, h⟩

end

abbrev Renaming := Name → Name → Prop

namespace Renaming

/-- The renaming below two binders, which stand for each other. -/
def under (θ : Renaming) (x x' : Name) : Renaming :=
  fun y y' => (y = x ∧ y' = x') ∨ (y ≠ x ∧ y' ≠ x' ∧ θ y y')

def symm (θ : Renaming) : Renaming := fun y y' => θ y' y

def comp (θ θ' : Renaming) : Renaming := fun y z => ∃ y', θ y y' ∧ θ' y' z

variable {θ θ' : Renaming} {x x' x'' y z : Name}

theorem under_mono {P P' : Name → Prop} (h : ∀ y, P y → y ≠ x → ∀ y', P' y' → y' ≠ x' → θ y y' →
      θ' y y') (y : Name)
    (hy : P y) (y' : Name) (hy' : P' y') (hu : θ.under x x' y y') : θ'.under x x' y y' := by
  rcases hu with hu | ⟨hne, hne', hu⟩
  · exact .inl hu
  · exact .inr ⟨hne, hne', h y hy hne y' hy' hne' hu⟩

theorem under_symm : θ.symm.under x' x = (θ.under x x').symm := by
  funext y y'
  simp only [under, symm]
  grind

theorem under_comp (h : (θ.under x x').comp (θ'.under x' x'') y z) :
    (θ.comp θ').under x x'' y z := by
  obtain ⟨y', ⟨rfl, rfl⟩ | ⟨hy, hy', h⟩, ⟨h', rfl⟩ | ⟨hy'', hz, h'⟩⟩ := h
  · exact .inl ⟨rfl, rfl⟩
  · exact absurd rfl hy''
  · exact absurd h' hy'
  · exact .inr ⟨hy, hz, y', h, h'⟩

theorem under.of_ne (h : θ.under x x' y z) (hne : y ≠ x) : z ≠ x' ∧ θ y z := by
  rcases h with ⟨hy, -⟩ | ⟨-, h⟩
  · exact absurd hy hne
  · exact h

end Renaming

namespace Term

/-- Terms that are the same up to a renaming of their free names. -/
inductive Alike : Renaming → Term → Term → Prop
  | var {θ x x'} : θ x x' → Alike θ (.var x) (.var x')
  | type {θ} : Alike θ .type .type
  | pi {θ p x x' a a' b b'} : Alike θ a a' → Alike (θ.under x x') b b' →
      Alike θ (.pi p x a b) (.pi p x' a' b')
  | fn {θ p x x' a a' b b'} : Alike θ a a' → Alike (θ.under x x') b b' →
      Alike θ (.fn p x a b) (.fn p x' a' b')
  | app {θ p a a' b b'} : Alike θ a a' → Alike θ b b' → Alike θ (.app p a b) (.app p a' b')
  | sigma {θ x x' a a' b b'} : Alike θ a a' → Alike (θ.under x x') b b' →
      Alike θ (.sigma x a b) (.sigma x' a' b')
  | cons {θ a a' b b'} : Alike θ a a' → Alike θ b b' → Alike θ (.cons a b) (.cons a' b')
  | car {θ a a'} : Alike θ a a' → Alike θ (.car a) (.car a')
  | cdr {θ a a'} : Alike θ a a' → Alike θ (.cdr a) (.cdr a')
  | string {θ} : Alike θ .string .string
  | quote {θ} (text) : Alike θ (.quote text) (.quote text)
  | trivial {θ} : Alike θ .trivial .trivial
  | sole {θ} : Alike θ .sole .sole
  | equal {θ a a' l l' r r'} : Alike θ a a' → Alike θ l l' → Alike θ r r' →
      Alike θ (.equal a l r) (.equal a' l' r')
  | same {θ a a'} : Alike θ a a' → Alike θ (.same a) (.same a')
  | emptyClass {θ} : Alike θ .emptyClass .emptyClass
  | declared {θ k x x' a a' b b'} : Alike θ a a' → Alike (θ.under x x') b b' →
      Alike θ (.declared k x a b) (.declared k x' a' b')
  | fulfilled {θ k x x' a a' v v' b b'} : Alike θ a a' → Alike θ v v' → Alike (θ.under x x') b b' →
      Alike θ (.fulfilled k x a v b) (.fulfilled k x' a' v' b')
  | object {θ fs fs'} : fs.map Prod.fst = fs'.map Prod.fst →
      (∀ (i : Nat) (f f' : Name × Term), fs[i]? = some f → fs'[i]? = some f' → Alike θ f.2 f'.2) →
        Alike θ (.object fs) (.object fs')
  | dot {θ a a' k} : Alike θ a a' → Alike θ (.dot a k) (.dot a' k)
  | letIn {θ x x' a a' v v' b b'} : Alike θ a a' → Alike θ v v' → Alike (θ.under x x') b b' →
      Alike θ (.letIn x a v b) (.letIn x' a' v' b')

namespace Alike

variable {θ θ' : Renaming} {t u v : Term}

/-- A renaming matters only for the names that occur. -/
theorem mono (h : Alike θ t u) (hθ : ∀ y ∈ t.freeNames, ∀ y' ∈ u.freeNames, θ y y' → θ' y y') :
    Alike θ' t u := by
  induction h generalizing θ' with
  | var hx => exact .var (hθ _ (by simp) _ (by simp) hx)
  | type => exact .type
  | string => exact .string
  | quote text => exact .quote text
  | trivial => exact .trivial
  | sole => exact .sole
  | emptyClass => exact .emptyClass
  | pi _ _ iha ihb | fn _ _ iha ihb | sigma _ _ iha ihb | declared _ _ iha ihb =>
    constructor
    · exact iha fun y hy y' hy' => hθ y (by simp [hy]) y' (by simp [hy'])
    · refine ihb (Renaming.under_mono fun y hy hne y' hy' hne' => ?_)
      exact hθ y (by simp [hy, hne]) y' (by simp [hy', hne'])
  | app _ _ iha ihb | cons _ _ iha ihb =>
    constructor
    · exact iha fun y hy y' hy' => hθ y (by simp [hy]) y' (by simp [hy'])
    · exact ihb fun y hy y' hy' => hθ y (by simp [hy]) y' (by simp [hy'])
  | car _ ih | cdr _ ih | same _ ih | dot _ ih =>
    constructor
    exact ih fun y hy y' hy' => hθ y (by simp [hy]) y' (by simp [hy'])
  | equal _ _ _ iha ihl ihr =>
    constructor
    · exact iha fun y hy y' hy' => hθ y (by simp [hy]) y' (by simp [hy'])
    · exact ihl fun y hy y' hy' => hθ y (by simp [hy]) y' (by simp [hy'])
    · exact ihr fun y hy y' hy' => hθ y (by simp [hy]) y' (by simp [hy'])
  | fulfilled _ _ _ iha ihv ihb | letIn _ _ _ iha ihv ihb =>
    constructor
    · exact iha fun y hy y' hy' => hθ y (by simp [hy]) y' (by simp [hy'])
    · exact ihv fun y hy y' hy' => hθ y (by simp [hy]) y' (by simp [hy'])
    · refine ihb (Renaming.under_mono fun y hy hne y' hy' hne' => ?_)
      exact hθ y (by simp [hy, hne]) y' (by simp [hy', hne'])
  | object hlabels _ ih =>
    refine .object hlabels fun i f f' hf hf' => ih i f f' hf hf' fun y hy y' hy' => ?_
    exact hθ y (mem_freeNames_object.2 ⟨f, List.mem_of_getElem? hf, hy⟩) y'
      (mem_freeNames_object.2 ⟨f', List.mem_of_getElem? hf', hy'⟩)

theorem symm (h : Alike θ t u) : Alike θ.symm u t := by
  induction h with
  | var hx => exact .var hx
  | type => exact .type
  | string => exact .string
  | quote text => exact .quote text
  | trivial => exact .trivial
  | sole => exact .sole
  | emptyClass => exact .emptyClass
  | pi _ _ iha ihb | fn _ _ iha ihb | sigma _ _ iha ihb | declared _ _ iha ihb =>
    rw [← Renaming.under_symm] at ihb
    constructor
    · exact iha
    · exact ihb
  | app _ _ iha ihb | cons _ _ iha ihb =>
    constructor
    · exact iha
    · exact ihb
  | car _ ih | cdr _ ih | same _ ih | dot _ ih =>
    constructor
    exact ih
  | equal _ _ _ iha ihl ihr => exact .equal iha ihl ihr
  | fulfilled _ _ _ iha ihv ihb | letIn _ _ _ iha ihv ihb =>
    rw [← Renaming.under_symm] at ihb
    constructor
    · exact iha
    · exact ihv
    · exact ihb
  | object hlabels _ ih => exact .object hlabels.symm fun i f f' hf hf' => ih i f' f hf' hf

theorem trans (h : Alike θ t u) (h' : Alike θ' u v) : Alike (θ.comp θ') t v := by
  induction h generalizing θ' v with
  | var hx =>
    cases h' with
    | var hx' => exact .var ⟨_, hx, hx'⟩
  | type | string | quote | trivial | sole | emptyClass =>
    cases h'
    constructor
  | pi _ _ iha ihb | fn _ _ iha ihb | sigma _ _ iha ihb | declared _ _ iha ihb =>
    cases h'
    next ha hb =>
      constructor
      · exact iha ha
      · exact (ihb hb).mono fun y _ z _ => Renaming.under_comp
  | app _ _ iha ihb | cons _ _ iha ihb =>
    cases h'
    next ha hb =>
      constructor
      · exact iha ha
      · exact ihb hb
  | car _ ih | cdr _ ih | same _ ih | dot _ ih =>
    cases h'
    next ha =>
      constructor
      exact ih ha
  | equal _ _ _ iha ihl ihr =>
    cases h'
    next ha hl hr =>
      exact .equal (iha ha) (ihl hl) (ihr hr)
  | fulfilled _ _ _ iha ihv ihb | letIn _ _ _ iha ihv ihb =>
    cases h'
    next ha hv hb =>
      constructor
      · exact iha ha
      · exact ihv hv
      · exact (ihb hb).mono fun y _ z _ => Renaming.under_comp
  | @object _ fs gs hlabels _ ih =>
    cases h'
    next hs hlabels' hfields =>
      refine .object (hlabels.trans hlabels') fun i f f' hf hf' => ?_
      have hlength : fs.length = gs.length := by simpa using congrArg List.length hlabels
      obtain ⟨g, hg⟩ : ∃ g, gs[i]? = some g := by
        have hi : i < fs.length := (List.getElem?_eq_some_iff.1 hf).1
        exact ⟨_, List.getElem?_eq_getElem (hlength ▸ hi)⟩
      exact ih i f g hf hg (hfields i g f' hg hf')

/-- Each free name of one term stands for one of the other. -/
theorem exists_free (h : Alike θ t u) {y : Name} (hy : y ∈ t.freeNames) :
    ∃ y' ∈ u.freeNames, θ y y' := by
  induction h generalizing y with
  | var hx =>
    rw [mem_freeNames_var.1 hy]
    exact ⟨_, by simp, hx⟩
  | type | string | quote | trivial | sole | emptyClass => cases hy
  | pi _ _ iha ihb | fn _ _ iha ihb | sigma _ _ iha ihb | declared _ _ iha ihb =>
    simp only [mem_freeNames_pi, mem_freeNames_fn, mem_freeNames_sigma,
      mem_freeNames_declared] at hy ⊢
    rcases hy with hy | ⟨hy, hne⟩
    · obtain ⟨y', hy', h⟩ := iha hy
      exact ⟨y', .inl hy', h⟩
    · obtain ⟨y', hy', h⟩ := ihb hy
      obtain ⟨hne', h⟩ := h.of_ne hne
      exact ⟨y', .inr ⟨hy', hne'⟩, h⟩
  | app _ _ iha ihb | cons _ _ iha ihb =>
    simp only [mem_freeNames_app, mem_freeNames_cons] at hy ⊢
    rcases hy with hy | hy
    · obtain ⟨y', hy', h⟩ := iha hy
      exact ⟨y', .inl hy', h⟩
    · obtain ⟨y', hy', h⟩ := ihb hy
      exact ⟨y', .inr hy', h⟩
  | car _ ih | cdr _ ih | same _ ih | dot _ ih =>
    simp only [freeNames_car, freeNames_cdr, freeNames_same, freeNames_dot] at hy ⊢
    exact ih hy
  | equal _ _ _ iha ihl ihr =>
    simp only [mem_freeNames_equal] at hy ⊢
    rcases hy with hy | hy | hy
    · obtain ⟨y', hy', h⟩ := iha hy
      exact ⟨y', .inl hy', h⟩
    · obtain ⟨y', hy', h⟩ := ihl hy
      exact ⟨y', .inr (.inl hy'), h⟩
    · obtain ⟨y', hy', h⟩ := ihr hy
      exact ⟨y', .inr (.inr hy'), h⟩
  | fulfilled _ _ _ iha ihv ihb | letIn _ _ _ iha ihv ihb =>
    simp only [mem_freeNames_fulfilled, mem_freeNames_letIn] at hy ⊢
    rcases hy with hy | hy | ⟨hy, hne⟩
    · obtain ⟨y', hy', h⟩ := iha hy
      exact ⟨y', .inl hy', h⟩
    · obtain ⟨y', hy', h⟩ := ihv hy
      exact ⟨y', .inr (.inl hy'), h⟩
    · obtain ⟨y', hy', h⟩ := ihb hy
      obtain ⟨hne', h⟩ := h.of_ne hne
      exact ⟨y', .inr (.inr ⟨hy', hne'⟩), h⟩
  | @object θ fs fs' hlabels _ ih =>
    obtain ⟨f, hf, hy⟩ := mem_freeNames_object.1 hy
    have hfields : FieldsAlike (fun a b : Term => ∀ {y}, y ∈ a.freeNames →
        ∃ y' ∈ b.freeNames, θ y y') fs fs' :=
      fieldsAlike_iff.2 ⟨hlabels, ih⟩
    obtain ⟨f', hf', -, hfree⟩ := hfields.exists_mem hf
    obtain ⟨y', hy', h⟩ := hfree hy
    exact ⟨y', mem_freeNames_object.2 ⟨f', hf', hy'⟩, h⟩

end Alike

/-- The renaming below binders that are paired by their depth. -/
theorem under_of_sameVariable {L R : List Name} {x z y w : Name}
    (h : sameVariable (x :: L) (z :: R) y w) :
    Renaming.under (fun y w => sameVariable L R y w) x z y w := by
  by_cases hy : y = x <;> by_cases hw : w = z
  · exact .inl ⟨hy, hw⟩
  · cases hR : R.findIdx? (· = w)
      <;> simp [sameVariable, List.findIdx?_cons, hy, Ne.symm hw, hR] at h
  · cases hL : L.findIdx? (· = y)
      <;> simp [sameVariable, List.findIdx?_cons, hw, Ne.symm hy, hL] at h
  · rw [sameVariable_cons_of_ne L R hy hw] at h
    exact .inr ⟨hy, hw, h⟩

theorem sameVariable_of_under {θ : Renaming} {L R : List Name}
    (hθ : ∀ y w, θ y w → sameVariable L R y w) {x z y w : Name} (h : θ.under x z y w) :
    sameVariable (x :: L) (z :: R) y w := by
  rcases h with ⟨rfl, rfl⟩ | ⟨hy, hw, h⟩
  · exact sameVariable_cons_self L R y w
  · rw [sameVariable_cons_of_ne L R hy hw]
    exact hθ y w h

theorem Alike.underBinder {L R : List Name} {x z : Name} {b b' : Term}
    (h : Alike (fun y w => sameVariable (x :: L) (z :: R) y w) b b') :
    Alike (Renaming.under (fun y w => sameVariable L R y w) x z) b b' :=
  h.mono fun _ _ _ _ => under_of_sameVariable

mutual

theorem alike_of_alphaIn (L R : List Name) :
    (t u : Term) → alphaIn L R t u → Alike (fun y w => sameVariable L R y w) t u
  | .var x, u, h => by
    cases u with
    | var y => exact .var h
    | _ => cases h
  | .type, u, h => by
    cases u with
    | type => exact .type
    | _ => cases h
  | .pi p x a b, u, h => by
    cases u with
    | pi q y a' b' =>
      simp only [alphaIn, Bool.and_eq_true, decide_eq_true_eq] at h
      obtain ⟨⟨rfl, ha⟩, hb⟩ := h
      exact .pi (alike_of_alphaIn L R a a' ha)
        (alike_of_alphaIn (x :: L) (y :: R) b b' hb).underBinder
    | _ => cases h
  | .fn p x a b, u, h => by
    cases u with
    | fn q y a' b' =>
      simp only [alphaIn, Bool.and_eq_true, decide_eq_true_eq] at h
      obtain ⟨⟨rfl, ha⟩, hb⟩ := h
      exact .fn (alike_of_alphaIn L R a a' ha)
        (alike_of_alphaIn (x :: L) (y :: R) b b' hb).underBinder
    | _ => cases h
  | .app p a b, u, h => by
    cases u with
    | app q a' b' =>
      simp only [alphaIn, Bool.and_eq_true, decide_eq_true_eq] at h
      obtain ⟨⟨rfl, ha⟩, hb⟩ := h
      exact .app (alike_of_alphaIn L R a a' ha) (alike_of_alphaIn L R b b' hb)
    | _ => cases h
  | .sigma x a b, u, h => by
    cases u with
    | sigma y a' b' =>
      simp only [alphaIn, Bool.and_eq_true] at h
      exact .sigma (alike_of_alphaIn L R a a' h.1)
        (alike_of_alphaIn (x :: L) (y :: R) b b' h.2).underBinder
    | _ => cases h
  | .cons a b, u, h => by
    cases u with
    | cons a' b' =>
      simp only [alphaIn, Bool.and_eq_true] at h
      exact .cons (alike_of_alphaIn L R a a' h.1) (alike_of_alphaIn L R b b' h.2)
    | _ => cases h
  | .car a, u, h => by
    cases u with
    | car a' => exact .car (alike_of_alphaIn L R a a' h)
    | _ => cases h
  | .cdr a, u, h => by
    cases u with
    | cdr a' => exact .cdr (alike_of_alphaIn L R a a' h)
    | _ => cases h
  | .string, u, h => by
    cases u with
    | string => exact .string
    | _ => cases h
  | .quote t, u, h => by
    cases u with
    | quote t' =>
      simp only [alphaIn, decide_eq_true_eq] at h
      exact h ▸ .quote t
    | _ => cases h
  | .trivial, u, h => by
    cases u with
    | trivial => exact .trivial
    | _ => cases h
  | .sole, u, h => by
    cases u with
    | sole => exact .sole
    | _ => cases h
  | .equal a l r, u, h => by
    cases u with
    | equal a' l' r' =>
      simp only [alphaIn, Bool.and_eq_true] at h
      obtain ⟨⟨ha, hl⟩, hr⟩ := h
      exact .equal (alike_of_alphaIn L R a a' ha) (alike_of_alphaIn L R l l' hl)
        (alike_of_alphaIn L R r r' hr)
    | _ => cases h
  | .same a, u, h => by
    cases u with
    | same a' => exact .same (alike_of_alphaIn L R a a' h)
    | _ => cases h
  | .emptyClass, u, h => by
    cases u with
    | emptyClass => exact .emptyClass
    | _ => cases h
  | .declared k x a b, u, h => by
    cases u with
    | declared j y a' b' =>
      simp only [alphaIn, Bool.and_eq_true, decide_eq_true_eq] at h
      obtain ⟨⟨rfl, ha⟩, hb⟩ := h
      exact .declared (alike_of_alphaIn L R a a' ha)
        (alike_of_alphaIn (x :: L) (y :: R) b b' hb).underBinder
    | _ => cases h
  | .fulfilled k x a v b, u, h => by
    cases u with
    | fulfilled j y a' v' b' =>
      simp only [alphaIn, Bool.and_eq_true, decide_eq_true_eq] at h
      obtain ⟨⟨⟨rfl, ha⟩, hv⟩, hb⟩ := h
      exact .fulfilled (alike_of_alphaIn L R a a' ha) (alike_of_alphaIn L R v v' hv)
        (alike_of_alphaIn (x :: L) (y :: R) b b' hb).underBinder
    | _ => cases h
  | .object fs, u, h => by
    cases u with
    | object gs =>
      obtain ⟨hlabels, hfields⟩ := fieldsAlike_iff.1 (fieldsAlike_of_alphaFieldsIn L R fs gs h)
      exact .object hlabels hfields
    | _ => cases h
  | .dot a k, u, h => by
    cases u with
    | dot a' j =>
      simp only [alphaIn, Bool.and_eq_true, decide_eq_true_eq] at h
      obtain ⟨rfl, ha⟩ := h
      exact .dot (alike_of_alphaIn L R a a' ha)
    | _ => cases h
  | .letIn x a v b, u, h => by
    cases u with
    | letIn y a' v' b' =>
      simp only [alphaIn, Bool.and_eq_true] at h
      obtain ⟨⟨ha, hv⟩, hb⟩ := h
      exact .letIn (alike_of_alphaIn L R a a' ha) (alike_of_alphaIn L R v v' hv)
        (alike_of_alphaIn (x :: L) (y :: R) b b' hb).underBinder
    | _ => cases h

theorem fieldsAlike_of_alphaFieldsIn (L R : List Name) :
    (fs gs : List (Name × Term)) → alphaFieldsIn L R fs gs →
    FieldsAlike (Alike fun y w => sameVariable L R y w) fs gs
  | [], [], _ => .nil
  | (k, a) :: fs, (j, b) :: gs, h => by
    simp only [alphaFieldsIn, Bool.and_eq_true, decide_eq_true_eq] at h
    obtain ⟨⟨rfl, ha⟩, hrest⟩ := h
    exact .cons ⟨rfl, alike_of_alphaIn L R a b ha⟩ (fieldsAlike_of_alphaFieldsIn L R fs gs hrest)

end

theorem alphaFieldsIn_of_fieldsAlike {L R : List Name} {fs gs : List (Name × Term)}
    (h : FieldsAlike (fun a b => alphaIn L R a b) fs gs) : alphaFieldsIn L R fs gs := by
  induction h with
  | nil => rfl
  | @cons f g fs gs hfg _ ih =>
    obtain ⟨k, a⟩ := f
    obtain ⟨j, b⟩ := g
    obtain ⟨rfl, hab⟩ := hfg
    exact alphaFieldsIn_cons.2 ⟨hab, ih⟩

theorem Alike.alphaIn {θ : Renaming} {t u : Term} (h : Alike θ t u) {L R : List Name}
    (hθ : ∀ y w, θ y w → sameVariable L R y w) : Term.alphaIn L R t u := by
  induction h generalizing L R with
  | var hx => exact hθ _ _ hx
  | type | string | trivial | sole | emptyClass => rfl
  | quote text => simp [Term.alphaIn]
  | pi _ _ iha ihb => exact alphaIn_pi.2 ⟨iha hθ, ihb fun _ _ => sameVariable_of_under hθ⟩
  | fn _ _ iha ihb => exact alphaIn_fn.2 ⟨iha hθ, ihb fun _ _ => sameVariable_of_under hθ⟩
  | app _ _ iha ihb => exact alphaIn_app.2 ⟨iha hθ, ihb hθ⟩
  | sigma _ _ iha ihb => exact alphaIn_sigma.2 ⟨iha hθ, ihb fun _ _ => sameVariable_of_under hθ⟩
  | cons _ _ iha ihb => exact alphaIn_cons.2 ⟨iha hθ, ihb hθ⟩
  | car _ ih | cdr _ ih | same _ ih => exact ih hθ
  | equal _ _ _ iha ihl ihr => exact alphaIn_equal.2 ⟨iha hθ, ihl hθ, ihr hθ⟩
  | declared _ _ iha ihb =>
    exact alphaIn_declared.2 ⟨iha hθ, ihb fun _ _ => sameVariable_of_under hθ⟩
  | fulfilled _ _ _ iha ihv ihb =>
    exact alphaIn_fulfilled.2 ⟨iha hθ, ihv hθ, ihb fun _ _ => sameVariable_of_under hθ⟩
  | object hlabels _ ih =>
    exact alphaFieldsIn_of_fieldsAlike
      (fieldsAlike_iff.2 ⟨hlabels, fun i f f' hf hf' => ih i f f' hf hf' hθ⟩)
  | dot _ ih => exact alphaIn_dot.2 (ih hθ)
  | letIn _ _ _ iha ihv ihb =>
    simp only [Term.alphaIn, Bool.and_eq_true]
    exact ⟨⟨iha hθ, ihv hθ⟩, ihb fun _ _ => sameVariable_of_under hθ⟩

/-- Terms are equal up to the names of binders if they are alike without renaming. -/
theorem alphaEquivalent_iff {t u : Term} : t.alphaEquivalent u ↔ Alike Eq t u := by
  constructor
  · intro h
    exact (alike_of_alphaIn [] [] t u h).mono fun y _ w _ hyw => by simpa [sameVariable] using hyw
  · intro h
    exact h.alphaIn fun y w hyw => by simp [sameVariable, hyw]

theorem Alike.refl (t : Term) : Alike Eq t t := alphaEquivalent_iff.1 (alphaEquivalent_self t)

section

variable {t u v : Term}

theorem alphaEquivalent_symm (h : t.alphaEquivalent u) : u.alphaEquivalent t :=
  alphaEquivalent_iff.2 ((alphaEquivalent_iff.1 h).symm.mono fun _ _ _ _ => Eq.symm)

theorem alphaEquivalent_trans (h : t.alphaEquivalent u) (h' : u.alphaEquivalent v) :
    t.alphaEquivalent v :=
  alphaEquivalent_iff.2 (((alphaEquivalent_iff.1 h).trans (alphaEquivalent_iff.1 h')).mono
    fun _ _ _ _ ⟨_, hy, hy'⟩ => hy.trans hy')

end

end Term

end DependentClasses
