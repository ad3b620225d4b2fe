import DependentClasses.Proofs.Binding

/-! Solutions grow. What a pattern variable has been given stays, and new variables have names
that were not in use. -/
namespace DependentClasses

variable {strict : Prop}

inductive PatternVariable.Becomes : PatternVariable → PatternVariable → Prop
  | same (p : PatternVariable) : Becomes p p
  | solved (a : Value) (scope : List Name) (v : Value) : Becomes (.unsolved a scope) (.solved a v)

theorem PatternVariable.Becomes.trans {p q r : PatternVariable} (h : p.Becomes q)
    (h' : q.Becomes r) :
    p.Becomes r := by
  cases h with
  | same => exact h'
  | solved a scope v =>
    cases h'
    exact .solved a scope v

namespace Solution

/-- Every pattern variable has a name that is in use, and what is known of it is well-formed. -/
structure Sound (strict : Prop) (s : Solution) : Prop where
  named : s.NamedIn s.names
  wellFormed : s.WellFormed strict

/-- What `s` knows is kept in `s'`, and the names of new pattern variables are not in `avoid`. -/
structure Extends (avoid : List Name) (s s' : Solution) : Prop where
  kept : ∀ x p, s.find x = some p → ∃ q, s'.find x = some q ∧ p.Becomes q
  names : s.names ⊆ s'.names
  fresh : ∀ x q, s'.find x = some q → s.find x = none → x ∉ avoid

/-- `s` grows to a sound solution `s'`. -/
structure GrowsTo (strict : Prop) (avoid : List Name) (s s' : Solution) :
    Prop extends Extends avoid s s' where
  sound : s'.Sound strict

variable {s s₁ s₂ s' : Solution} {ctx ctx' : Context} {x : Name} {a : Value} {avoid : List Name}

theorem usedNames_subset (hctx : ctx.names ⊆ ctx'.names) (hs : s.names ⊆ s'.names) :
    s.usedNames ctx ⊆ s'.usedNames ctx' := by
  intro x hx
  rcases List.mem_append.1 hx with hx | hx
  · exact List.mem_append_left _ (hctx hx)
  · exact List.mem_append_right _ (hs hx)

theorem Sound.find_eq_none (h : s.Sound strict) (hx : x ∉ s.names) : s.find x = none :=
  Option.eq_none_iff_forall_ne_some.2 fun p hp => hx (h.named x p hp)

theorem freshName_not_mem (s : Solution) (ctx : Context) (x : Name) :
    s.freshName ctx x ∉ s.usedNames ctx :=
  Name.fresh_not_mem _ _

theorem freshName_not_mem_names (s : Solution) (ctx : Context) (x : Name) :
    s.freshName ctx x ∉ s.names :=
  fun h => s.freshName_not_mem ctx x (List.mem_append_right _ h)

namespace Extends

theorem refl (avoid : List Name) (s : Solution) : s.Extends avoid s where
  kept x p hx := ⟨p, hx, .same p⟩
  names := fun _ => id
  fresh x q hx hn := by rw [hn] at hx; cases hx

theorem trans (h : s.Extends avoid s₁) (h' : s₁.Extends avoid s₂) : s.Extends avoid s₂ where
  kept x p hx := by
    obtain ⟨q, hq, hpq⟩ := h.kept x p hx
    obtain ⟨r, hr, hqr⟩ := h'.kept x q hq
    exact ⟨r, hr, hpq.trans hqr⟩
  names := fun _ hx => h'.names (h.names hx)
  fresh x q hx hn := by
    cases hs : s₁.find x with
    | none => exact h'.fresh x q hx hs
    | some p => exact h.fresh x p hs hn

end Extends

namespace GrowsTo

theorem refl (h : s.Sound strict) (avoid : List Name) : s.GrowsTo strict avoid s :=
  ⟨.refl avoid s, h⟩

theorem trans (h : s.GrowsTo strict avoid s₁) (h' : s₁.GrowsTo strict avoid s₂) :
    s.GrowsTo strict avoid s₂ :=
  ⟨h.toExtends.trans h'.toExtends, h'.sound⟩

theorem mono {avoid' : List Name} (h : s.GrowsTo strict avoid s') (hsub : avoid' ⊆ avoid) :
    s.GrowsTo strict avoid' s' :=
  { h with fresh := fun x q hx hn hmem => h.fresh x q hx hn (hsub hmem) }

/-- A longer context has more names to avoid. -/
theorem outward (h : s.GrowsTo strict (s.usedNames ctx') s') (hctx : ctx.names ⊆ ctx'.names) :
    s.GrowsTo strict (s.usedNames ctx) s' :=
  h.mono (usedNames_subset hctx fun _ => id)

/-- What comes later avoids the names of its time, and so those before it. -/
theorem next (h : s.GrowsTo strict (s.usedNames ctx) s₁)
    (h' : s₁.GrowsTo strict (s₁.usedNames ctx) s₂) :
    s.GrowsTo strict (s.usedNames ctx) s₂ :=
  h.trans (h'.mono (usedNames_subset (fun _ => id) h.names))

theorem isPatternVariable (h : s.GrowsTo strict avoid s') (hx : s.isPatternVariable x) :
    s'.isPatternVariable x := by
  obtain ⟨p, hp⟩ := Option.isSome_iff_exists.1 hx
  obtain ⟨q, hq, -⟩ := h.kept x p hp
  exact Option.isSome_iff_exists.2 ⟨q, hq⟩

/-- A name in use that is no pattern variable does not become one. -/
theorem find_eq_none (h : s.GrowsTo strict (s.usedNames ctx) s') (hx : x ∈ s.names)
    (hn : s.find x = none) :
    s'.find x = none :=
  Option.eq_none_iff_forall_ne_some.2 fun q hq => h.fresh x q hq hn (List.mem_append_right _ hx)

theorem create (h : s.Sound strict) (hx : s.find x = none) (havoid : x ∉ avoid)
    (ha : a.WellFormed strict) (scope : List Name) :
    s.GrowsTo strict avoid (s.create x a scope) where
  sound := by
    refine ⟨h.named.create, fun y p hy => ?_⟩
    rw [find_create] at hy
    split at hy
    · cases hy; exact ha
    · exact h.wellFormed y p hy
  kept y p hy := by
    have hne : y ≠ x := by rintro rfl; rw [hx] at hy; cases hy
    rw [find_create, if_neg hne]
    exact ⟨p, hy, .same p⟩
  names := fun y hy => mem_names_create.2 (.inr hy)
  fresh y q hy hn := by
    rw [find_create] at hy
    split at hy
    · next heq => exact heq ▸ havoid
    · rw [hn] at hy; cases hy

theorem create_fresh (h : s.Sound strict) (ctx : Context) (x : Name) (ha : a.WellFormed strict)
    (scope : List Name) :
    s.GrowsTo strict (s.usedNames ctx) (s.create (s.freshName ctx x) a scope) :=
  create h (h.find_eq_none (s.freshName_not_mem_names ctx x)) (s.freshName_not_mem ctx x) ha scope

theorem reserve (h : s.Sound strict) (avoid xs : List Name) :
    s.GrowsTo strict avoid (s.reserve xs) where
  sound := ⟨h.named.reserve xs, h.wellFormed⟩
  kept x p hx := ⟨p, hx, .same p⟩
  names := fun y hy => mem_names_reserve.2 (.inr hy)
  fresh x q hx hn := by rw [find_reserve, hn] at hx; cases hx

end GrowsTo

end Solution

namespace Binding

variable {avoid : List Name}

/-- Binding adds no pattern variable. -/
theorem find_eq_none_iff (b : Binding) {y : Name} :
    b.after.find y = none ↔ b.before.find y = none := by
  rw [b.find_after]
  split
  · next heq => simp [heq, b.find_before]
  · rfl

theorem extends_after (b : Binding) : b.before.Extends avoid b.after where
  kept y p hy := by
    rw [b.find_after]
    split
    · next heq =>
      rw [heq, b.find_before] at hy
      cases hy
      exact ⟨_, rfl, .solved _ _ _⟩
    · exact ⟨p, hy, .same p⟩
  names := fun _ => id
  fresh y q hy hn := by rw [b.find_eq_none_iff.2 hn] at hy; cases hy

end Binding

namespace Binds

variable {s s' : Solution} {bs : List Binding} {avoid : List Name}

theorem extends_of (h : Binds s bs s') : s.Extends avoid s' := by
  induction h with
  | nil => exact .refl avoid s
  | cons b _ ih => exact ih.trans b.extends_after

theorem namedIn (h : Binds s bs s') (hs : s.NamedIn s.names) : s'.NamedIn s'.names := by
  induction h with
  | nil => exact hs
  | cons b _ ih => exact ih.bind

end Binds

theorem Solving.growsTo {given : Prop} {s s' : Solution} (h : Solving strict given s s')
    (hs : s.Sound strict) (hg : given)
    (avoid : List Name) : s.GrowsTo strict avoid s' := by
  obtain ⟨bs, hbs⟩ := h.bindsTo
  exact ⟨hbs.extends_of, hbs.namedIn hs.named, h.wellFormed hg hs.wellFormed⟩

/-- Unification of well-formed values lets the solution grow. -/
theorem unify_growsTo {n : Nat} {ctx : Context} {a l r : Value} {s s' : Solution} {u : Unit}
    (h : (unify n ctx a l r).Yields s u s') (hs : s.Sound strict) (hctx : ctx.WellFormed strict)
    (ha : a.WellFormed strict)
    (hl : l.WellFormed strict) (hr : r.WellFormed strict) (avoid : List Name) :
    s.GrowsTo strict avoid s' :=
  (solving_of_unify h).growsTo hs ⟨hctx, ha, hl, hr⟩ avoid

namespace Solution.BindsTo

variable {s s' : Solution}

theorem names_eq (h : s.BindsTo s') : s'.names = s.names := by
  obtain ⟨bs, h⟩ := h
  induction h with
  | nil => rfl
  | cons b _ ih => exact ih

theorem listing_eq (h : s.BindsTo s') : s'.listing = s.listing := by
  obtain ⟨bs, h⟩ := h
  induction h with
  | nil => rfl
  | cons b _ ih => exact ih

/-- What a pattern variable is given stays. -/
theorem find_solved (h : s.BindsTo s') {x : Name} {a v : Value}
    (hx : s.find x = some (.solved a v)) :
    s'.find x = some (.solved a v) := by
  obtain ⟨bs, h⟩ := h
  have hextends : s.Extends [] s' := h.extends_of
  obtain ⟨q, hq, hbecomes⟩ := hextends.kept x _ hx
  cases hbecomes
  exact hq

end Solution.BindsTo

end DependentClasses
