import DependentClasses.Name
import Mathlib.Data.List.Nodup
import Mathlib.Tactic.Common

/-! Fresh names are unused, and names that are made fresh together stay distinct. -/
namespace DependentClasses

namespace Name

/-- One of the subscripts that are tried is unused. -/
theorem exists_unused (used : List Name) (symbol : String) :
    ∃ k ∈ List.range (used.length + 1), (⟨symbol, k + 1⟩ : Name) ∉ used := by
  by_contra h
  have hall : ∀ k ∈ List.range (used.length + 1), (⟨symbol, k + 1⟩ : Name) ∈ used := by
    intro k hk
    by_contra hn
    exact h ⟨k, hk, hn⟩
  have hd : ((List.range (used.length + 1)).map fun k => (⟨symbol, k + 1⟩ : Name)).Nodup := by
    rw [List.Nodup, List.pairwise_map]
    exact List.nodup_range.imp fun hne he => hne (by simpa using he)
  have hs : ((List.range (used.length + 1)).map fun k => (⟨symbol, k + 1⟩ : Name)) ⊆ used := by
    intro x hx
    obtain ⟨k, hk, rfl⟩ := List.mem_map.mp hx
    exact hall k hk
  have hl := hd.length_le_of_subset hs
  simp only [List.length_map, List.length_range] at hl
  omega

theorem fresh_not_mem (used : List Name) (x : Name) : x.fresh used ∉ used := by
  unfold fresh
  split
  · split
    · rename_i k hk
      simpa using List.find?_some hk
    · rename_i hnone
      obtain ⟨k, hk, hn⟩ := exists_unused used x.symbol
      have := List.find?_eq_none.mp hnone k hk
      simp [hn] at this
  · assumption

section

variable {used : List Name} {images : List (Name × Name)}

/-- The images are distinct and unused. -/
def Separate (used : List Name) (images : List (Name × Name)) : Prop :=
  (images.map Prod.snd).Nodup ∧ ∀ y ∈ images.map Prod.snd, y ∉ used

theorem Separate.extend (h : Separate used images) (x : Name) :
    Separate used (extendImages used images x) := by
  unfold extendImages
  cases images.lookup x with
  | some y => exact h
  | none =>
    have hfresh := fresh_not_mem (images.map Prod.snd ++ used) x
    rw [List.mem_append, not_or] at hfresh
    refine ⟨?_, ?_⟩
    · simpa [List.nodup_append] using
        ⟨h.1, fun y z hyz he => hfresh.1 (he ▸ List.mem_map.2 ⟨(z, y), hyz, rfl⟩)⟩
    · intro y hy
      rw [List.map_append, List.mem_append] at hy
      rcases hy with hy | hy
      · exact h.2 y hy
      · simp only [List.map_cons, List.map_nil, List.mem_singleton] at hy
        exact hy ▸ hfresh.2

theorem freshImages_separate (used xs : List Name) : Separate used (freshImages used xs) := by
  have hall : ∀ images, Separate used images →
      Separate used (xs.foldl (extendImages used) images) := by
    induction xs with
    | nil => exact fun _ h => h
    | cons x xs ih => exact fun _ h => ih _ (h.extend x)
  exact hall [] ⟨List.nodup_nil, by simp⟩

theorem lookup_extendImages {x y : Name} (h : images.lookup x = some y) (z : Name) :
    (extendImages used images z).lookup x = some y := by
  unfold extendImages
  cases images.lookup z with
  | some w => exact h
  | none => simp [List.lookup_append, h]

theorem exists_extendImages (used : List Name) (images : List (Name × Name)) (x : Name) :
    ∃ y, (extendImages used images x).lookup x = some y := by
  unfold extendImages
  cases h : images.lookup x with
  | some y => exact ⟨y, h⟩
  | none => exact ⟨_, by rw [List.lookup_append, h, List.lookup_cons, beq_self_eq_true]; rfl⟩

theorem lookup_foldl_extendImages {x y : Name} (h : images.lookup x = some y) (xs : List Name) :
    (xs.foldl (extendImages used) images).lookup x = some y := by
  induction xs generalizing images with
  | nil => exact h
  | cons z xs ih => exact ih (lookup_extendImages h z)

/-- Every name is given an image. -/
theorem exists_freshImage {xs : List Name} {x : Name} (h : x ∈ xs) :
    ∃ y, (freshImages used xs).lookup x = some y := by
  have hgiven : ∀ images, ∃ y, (xs.foldl (extendImages used) images).lookup x = some y := by
    induction xs with
    | nil => cases h
    | cons z xs ih =>
      intro images
      rcases List.mem_cons.1 h with rfl | h
      · obtain ⟨y, hy⟩ := exists_extendImages used images x
        exact ⟨y, lookup_foldl_extendImages hy xs⟩
      · exact ih h _
  exact hgiven []

theorem mem_of_mem_extendImages {x y z : Name} (h : (x, y) ∈ extendImages used images z) :
    x = z ∨ (x, y) ∈ images := by
  unfold extendImages at h
  split at h
  · exact .inr h
  · rcases List.mem_append.1 h with h | h
    · exact .inr h
    · exact .inl (Prod.ext_iff.1 (List.mem_singleton.1 h)).1

/-- Only the names that are listed are given images. -/
theorem mem_of_mem_freshImages {xs : List Name} {x y : Name}
    (h : (x, y) ∈ freshImages used xs) : x ∈ xs := by
  have hlisted : ∀ (xs : List Name) (images : List (Name × Name)), (x, y) ∈ xs.foldl
      (extendImages used) images → x ∈ xs ∨ (x, y) ∈ images := by
    intro xs
    induction xs with
    | nil => exact fun _ h => .inr h
    | cons z xs ih =>
      intro images hmem
      rcases ih _ hmem with hx | hx
      · exact .inl (List.mem_cons_of_mem _ hx)
      · rcases mem_of_mem_extendImages hx with rfl | hx
        · exact .inl List.mem_cons_self
        · exact .inr hx
  exact (hlisted xs [] h).resolve_right List.not_mem_nil

theorem Separate.eq_of_mem (h : Separate used images) {j k x : Name} (hj : (j, x) ∈ images)
    (hk : (k, x) ∈ images) :
    j = k :=
  congrArg Prod.fst (List.inj_on_of_nodup_map h.1 hj hk rfl)

end

end Name

end DependentClasses
