import DependentClasses.Text.Line

/-! Places of a text, counted in bytes. Those that lie between two characters, or before or after
all of them, are the places that a text can be cut at. -/
namespace DependentClasses

namespace Text

@[simp] theorem byteLength_nil : byteLength [] = 0 := rfl

@[simp] theorem byteLength_cons (c : Char) (s : List Char) :
    byteLength (c :: s) = c.utf8Size + byteLength s := rfl

@[simp] theorem byteLength_append (s t : List Char) :
    byteLength (s ++ t) = byteLength s + byteLength t := by
  induction s with
  | nil => simp
  | cons c s ih => simp [ih, Nat.add_assoc]

/-- Every character has a byte. -/
theorem length_le_byteLength (s : List Char) : s.length ≤ byteLength s := by
  induction s with
  | nil => exact Nat.le_refl 0
  | cons c s ih =>
    have := c.utf8Size_pos
    rw [List.length_cons, byteLength_cons]
    omega

theorem utf8ByteSize_ofList (s : List Char) : (String.ofList s).utf8ByteSize = byteLength s := by
  induction s with
  | nil => rfl
  | cons c s ih =>
    rw [← List.singleton_append, String.ofList_append, String.utf8ByteSize_append, ih]
    simp

theorem utf8ByteSize_eq (s : String) : s.utf8ByteSize = byteLength s.toList := by
  rw [← utf8ByteSize_ofList, String.ofList_toList]

/-- A text can be cut after the bytes of its first characters, however many, and nowhere else. -/
theorem isValid_iff {s : String} {n : Nat} :
    String.Pos.Raw.IsValid s ⟨n⟩ ↔ ∃ before after, s.toList = before ++ after ∧
      byteLength before = n := by
  rw [String.Pos.Raw.isValid_iff_exists_take_toList]
  simp only [utf8ByteSize_ofList]
  constructor
  · rintro ⟨i, hi⟩
    exact ⟨s.toList.take i, s.toList.drop i, (List.take_append_drop i _).symm, hi.symm⟩
  · rintro ⟨before, after, htext, hbefore⟩
    refine ⟨before.length, ?_⟩
    rw [htext, List.take_left, hbefore]

end Text

end DependentClasses
