import DependentClasses.Lexicon
import Mathlib.Data.List.Basic

/-! The order in which names are listed: by the place of their symbols in a lexicon, and by
subscript under one symbol. Listing names in this order keeps them all, and does not depend on the
order in which they were met. -/
namespace DependentClasses

namespace Lexicon

variable {lexicon : Lexicon} {x y z : Name} {xs ys : List Name}

theorem le_iff : lexicon.le x y ↔
    lexicon.idxOf x.symbol < lexicon.idxOf y.symbol ∨
      (lexicon.idxOf x.symbol = lexicon.idxOf y.symbol ∧ x.subscript ≤ y.subscript) := by
  simp [le]

theorem le_of_not_le (h : ¬ lexicon.le x y) : lexicon.le y x := by
  rw [le_iff] at h ⊢
  omega

theorem le_trans (h : lexicon.le x y) (h' : lexicon.le y z) : lexicon.le x z := by
  rw [le_iff] at h h' ⊢
  omega

/-- Names of known symbols have each their own place in the order. -/
theorem le_antisymm (hx : x.symbol ∈ lexicon) (h : lexicon.le x y)
    (h' : lexicon.le y x) : x = y := by
  rw [le_iff] at h h'
  have hindex : lexicon.idxOf x.symbol = lexicon.idxOf y.symbol := by omega
  have hsubscript : x.subscript = y.subscript := by omega
  have hsymbol : x.symbol = y.symbol := (List.idxOf_inj hx).1 hindex
  calc x = ⟨x.symbol, x.subscript⟩ := rfl
    _ = ⟨y.symbol, y.subscript⟩ := by rw [hsymbol, hsubscript]
    _ = y := rfl

theorem place_perm : (lexicon.place x xs).Perm (x :: xs) := by
  induction xs with
  | nil => exact .refl _
  | cons y ys ih =>
    rw [place]
    split
    · exact .refl _
    · exact (ih.cons y).trans (.swap x y ys)

theorem sort_perm : (lexicon.sort xs).Perm xs := by
  induction xs with
  | nil => exact .refl _
  | cons x xs ih => exact place_perm.trans (ih.cons x)

theorem mem_sort : y ∈ lexicon.sort xs ↔ y ∈ xs := sort_perm.mem_iff

theorem sort_eq_nil_iff : lexicon.sort xs = [] ↔ xs = [] := by
  simp only [List.eq_nil_iff_forall_not_mem, mem_sort]

theorem place_pairwise (h : xs.Pairwise fun y z => lexicon.le y z) :
    (lexicon.place x xs).Pairwise fun y z => lexicon.le y z := by
  induction xs with
  | nil => exact List.pairwise_singleton _ x
  | cons y ys ih =>
    obtain ⟨hy, hys⟩ := List.pairwise_cons.1 h
    rw [place]
    split
    · next hle =>
      refine List.pairwise_cons.2 ⟨fun z hz => ?_, h⟩
      rcases List.mem_cons.1 hz with rfl | hz
      · exact hle
      · exact le_trans hle (hy z hz)
    · next hle =>
      refine List.pairwise_cons.2 ⟨fun z hz => ?_, ih hys⟩
      rcases List.mem_cons.1 (place_perm.mem_iff.1 hz) with rfl | hz
      · exact le_of_not_le hle
      · exact hy z hz

theorem sort_pairwise : (lexicon.sort xs).Pairwise fun y z => lexicon.le y z := by
  induction xs with
  | nil => exact .nil
  | cons x xs ih => exact place_pairwise ih

/-- Names of known symbols come out in one order, in whatever order they are told. -/
theorem sort_eq_of_perm (h : xs.Perm ys) (hknown : ∀ x ∈ xs, x.symbol ∈ lexicon) :
    lexicon.sort xs = lexicon.sort ys := by
  refine List.Perm.eq_of_pairwise ?_ sort_pairwise sort_pairwise
    (sort_perm.trans (h.trans sort_perm.symm))
  intro x y hx _ hle hle'
  exact le_antisymm (hknown x (mem_sort.1 hx)) hle hle'

end Lexicon

end DependentClasses
