import DependentClasses.Proofs.FreshNames
import DependentClasses.Proofs.Parts
import Mathlib.Data.Finset.Card
import Mathlib.Order.Bounds.Defs

/-! Which names are given out when several names are made fresh together. The names are served in
their order. Each takes the first choice that neither was used before nor has been given to a name
in front of it, and keeps it from then on. -/
namespace DependentClasses

namespace Name

/-- `y` is what becomes of `x` where some names are taken: `x` itself if it is free to use, and
otherwise its symbol with the least positive subscript that is. -/
def FreshFor (taken : Name → Prop) (x y : Name) : Prop :=
  (¬ taken x ∧ y = x) ∨
    (taken x ∧ y.symbol = x.symbol ∧ IsLeast {k | 0 < k ∧ ¬ taken ⟨x.symbol, k⟩} y.subscript)

/-- The subscripts are tried in their order, and one of those that are tried is unused. -/
theorem fresh_freshFor (used : List Name) (x : Name) : FreshFor (· ∈ used) x (x.fresh used) := by
  by_cases hx : x ∈ used
  · refine .inr ⟨hx, fresh_symbol used x, ?_⟩
    unfold fresh
    rw [if_pos hx]
    split
    · next k hk =>
      obtain ⟨hunused, -, hbelow⟩ := List.find?_range_eq_some.1 hk
      refine ⟨⟨Nat.succ_pos k, by simpa using hunused⟩, ?_⟩
      rintro j ⟨hj, hfree⟩
      obtain ⟨j, rfl⟩ := Nat.exists_eq_add_one.2 hj
      by_contra hle
      have hlt : j < k := Nat.lt_of_succ_lt_succ (Nat.lt_of_not_le hle)
      exact hfree (by simpa using hbelow j hlt)
    · next hnone =>
      obtain ⟨k, hk, hunused⟩ := exists_unused used x.symbol
      simpa [hunused] using List.find?_eq_none.1 hnone k hk
  · exact .inl ⟨hx, fresh_of_not_mem hx⟩

/-- A subscript is only passed over for a name that is taken. -/
theorem FreshFor.subscript_le {taken : List Name} {x y : Name} (h : FreshFor (· ∈ taken) x y) :
    y = x ∨ y.subscript ≤ taken.toFinset.card + 1 := by
  rcases h with ⟨-, rfl⟩ | ⟨-, -, -, hleast⟩
  · exact .inl rfl
  · obtain ⟨k, hk, hunused⟩ := exists_unused taken.dedup x.symbol
    rw [List.mem_dedup] at hunused
    have hle : y.subscript ≤ k + 1 := hleast ⟨Nat.succ_pos k, hunused⟩
    rw [List.mem_range] at hk
    rw [List.card_toFinset]
    omega

section

variable {used xs before after : List Name} {x y z : Name}

theorem freshImages_append (used xs ys : List Name) :
    freshImages used (xs ++ ys) = ys.foldl (extendImages used) (freshImages used xs) :=
  List.foldl_append

theorem freshImages_concat (used xs : List Name) (x : Name) :
    freshImages used (xs ++ [x]) = extendImages used (freshImages used xs) x :=
  freshImages_append used xs [x]

/-- What has been given out is not taken back. -/
theorem lookup_freshImages_append (h : (freshImages used xs).lookup x = some y) (ys : List Name) :
    (freshImages used (xs ++ ys)).lookup x = some y := by
  rw [freshImages_append]
  exact lookup_foldl_extendImages h ys

/-- Exactly the names of the list have images. -/
theorem lookup_freshImages_isSome_iff : ((freshImages used xs).lookup x).isSome ↔ x ∈ xs := by
  rw [Option.isSome_iff_exists]
  refine ⟨?_, exists_freshImage⟩
  rintro ⟨y, hy⟩
  exact mem_of_mem_freshImages (mem_of_lookup hy)

theorem lookup_freshImages_eq_none (h : x ∉ xs) : (freshImages used xs).lookup x = none := by
  rw [← Option.not_isSome_iff_eq_none, lookup_freshImages_isSome_iff]
  exact h

/-- A name is given an image once, where it occurs first. -/
theorem keys_freshImages_nodup (used xs : List Name) :
    ((freshImages used xs).map Prod.fst).Nodup := by
  induction xs using List.reverseRecOn with
  | nil => exact List.nodup_nil
  | append_singleton xs x ih =>
    rw [freshImages_concat, extendImages]
    split
    · exact ih
    · next hnone =>
      rw [List.map_append, List.nodup_append_comm]
      refine List.nodup_cons.2 ⟨fun hx => ?_, ih⟩
      obtain ⟨f, hf, rfl⟩ := List.mem_map.1 hx
      rw [lookup_of_mem ih hf] at hnone
      cases hnone

theorem mem_values_freshImages_iff (rest : List Name) :
    z ∈ (freshImages used xs).map Prod.snd ↔
      ∃ w ∈ xs, (freshImages used (xs ++ rest)).lookup w = some z := by
  constructor
  · intro hz
    obtain ⟨⟨w, z⟩, hf, rfl⟩ := List.mem_map.1 hz
    have hlookup := lookup_of_mem (keys_freshImages_nodup used xs) hf
    exact ⟨w, mem_of_mem_freshImages hf, lookup_freshImages_append hlookup rest⟩
  · rintro ⟨w, hw, hlookup⟩
    obtain ⟨y, hy⟩ : ∃ y, (freshImages used xs).lookup w = some y := exists_freshImage hw
    rw [lookup_freshImages_append hy rest] at hlookup
    cases hlookup
    exact List.mem_map.2 ⟨(w, z), mem_of_lookup hy, rfl⟩

/-- A name chooses where it occurs first, and what was given out by then is taken for it. -/
theorem lookup_freshImages_first (hx : x ∉ before) :
    (freshImages used (before ++ x :: after)).lookup x =
      some (x.fresh ((freshImages used before).map Prod.snd ++ used)) := by
  have hgiven : (freshImages used (before ++ [x])).lookup x =
      some (x.fresh ((freshImages used before).map Prod.snd ++ used)) := by
    have hnone : (freshImages used before).lookup x = none := lookup_freshImages_eq_none hx
    rw [freshImages_concat, extendImages, hnone, List.lookup_append, hnone]
    simp
  have hkept := lookup_freshImages_append hgiven after
  rwa [List.append_assoc, List.singleton_append] at hkept

theorem exists_first_of_lookup (hy : (freshImages used xs).lookup x = some y) :
    ∃ before after, xs = before ++ x :: after ∧ x ∉ before ∧
      y = x.fresh ((freshImages used before).map Prod.snd ++ used) := by
  have hx : x ∈ xs := lookup_freshImages_isSome_iff.1 (Option.isSome_iff_exists.2 ⟨y, hy⟩)
  obtain ⟨before, after, rfl, hfirst⟩ := List.eq_append_cons_of_mem hx
  rw [lookup_freshImages_first hfirst] at hy
  exact ⟨before, after, rfl, hfirst, (Option.some.inj hy).symm⟩

/-- No more names are taken by those in front of a name than there are such names. -/
theorem card_values_freshImages_le (used xs : List Name) :
    ((freshImages used xs).map Prod.snd).toFinset.card ≤ xs.toFinset.card := by
  have hkeys : ((freshImages used xs).map Prod.fst).toFinset ⊆ xs.toFinset := by
    intro x hx
    obtain ⟨⟨x, y⟩, hf, rfl⟩ := List.mem_map.1 (List.mem_toFinset.1 hx)
    exact List.mem_toFinset.2 (mem_of_mem_freshImages hf)
  calc ((freshImages used xs).map Prod.snd).toFinset.card
      ≤ ((freshImages used xs).map Prod.snd).length := List.toFinset_card_le _
    _ = ((freshImages used xs).map Prod.fst).length := by rw [List.length_map, List.length_map]
    _ = ((freshImages used xs).map Prod.fst).toFinset.card :=
      (List.toFinset_card_of_nodup (keys_freshImages_nodup used xs)).symm
    _ ≤ xs.toFinset.card := Finset.card_le_card hkeys

/-- The choice of each name, told by the images that are given in the end. -/
theorem lookup_freshImages_freshFor (hx : x ∉ before)
    (hy : (freshImages used (before ++ x :: after)).lookup x = some y) :
    FreshFor (fun z => z ∈ used ∨ ∃ w ∈ before, (freshImages used (before ++ x :: after)).lookup w =
      some z) x y := by
  rw [lookup_freshImages_first hx] at hy
  cases hy
  have htaken :
      (fun z => z ∈ used ∨
      ∃ w ∈ before, (freshImages used (before ++ x :: after)).lookup w = some z) =
      fun z => z ∈ (freshImages used before).map Prod.snd ++ used := by
    funext z
    rw [← mem_values_freshImages_iff, List.mem_append]
    exact propext or_comm
  rw [htaken]
  exact fresh_freshFor _ x

/-- The name that is served was not served before, so the bound counts it for the subscript that it
takes. -/
theorem subscript_freshImages_le (hy : (freshImages used xs).lookup x = some y) :
    y = x ∨ y.subscript ≤ used.toFinset.card + xs.toFinset.card := by
  obtain ⟨before, after, rfl, hfirst, rfl⟩ := exists_first_of_lookup hy
  refine (fresh_freshFor _ x).subscript_le.imp_right fun hle => hle.trans ?_
  have hserved : before.toFinset.card + 1 ≤ (before ++ x :: after).toFinset.card := by
    rw [← Finset.card_insert_of_notMem (List.mem_toFinset.not.2 hfirst)]
    refine Finset.card_le_card fun z hz => ?_
    rcases Finset.mem_insert.1 hz with rfl | hz
    · simp
    · exact List.mem_toFinset.2 (List.mem_append_left _ (List.mem_toFinset.1 hz))
  have hgiven := card_values_freshImages_le used before
  have hunion :=
    Finset.card_union_le ((freshImages used before).map Prod.snd).toFinset used.toFinset
  rw [List.toFinset_append]
  omega

end

structure FreshTogether (used xs : List Name) (images : List (Name × Name)) : Prop where
  /-- No name has two images. -/
  single : (images.map Prod.fst).Nodup
  /-- The names of the list have images, and no others. -/
  defined : ∀ x, (images.lookup x).isSome ↔ x ∈ xs
  injective : ∀ x x' y, images.lookup x = some y → images.lookup x' = some y → x = x'
  unused : ∀ x y, images.lookup x = some y → y ∉ used
  symbol : ∀ x y, images.lookup x = some y → y.symbol = x.symbol
  /-- Taken are the names that are used and those that a name in front has got. -/
  chosen : ∀ before x after y, xs = before ++ x :: after → x ∉ before → images.lookup x = some y →
    FreshFor (fun z => z ∈ used ∨ ∃ w ∈ before, images.lookup w = some z) x y
  /-- A new subscript is at most the number of all names. -/
  subscript : ∀ x y, images.lookup x = some y → y = x ∨
    y.subscript ≤ used.toFinset.card + xs.toFinset.card

/-- Names that are made fresh together stay distinct, avoid the used names and keep their symbols,
and each gets the first choice that is left to it. New subscripts do not exceed the number of names,
so they are below `2 ^ 32 - 1` if there are fewer names than that. -/
theorem freshImages_freshTogether (used xs : List Name) :
    FreshTogether used xs (freshImages used xs) := by
  have hseparate := freshImages_separate used xs
  refine ⟨keys_freshImages_nodup used xs, fun x => lookup_freshImages_isSome_iff,
    ?_, ?_, ?_, ?_, ?_⟩
  · intro x x' y hx hx'
    exact hseparate.eq_of_mem (mem_of_lookup hx) (mem_of_lookup hx')
  · intro x y hy
    exact hseparate.2 y (List.mem_map.2 ⟨(x, y), mem_of_lookup hy, rfl⟩)
  · intro x y hy
    obtain ⟨before, after, -, -, rfl⟩ := exists_first_of_lookup hy
    exact fresh_symbol _ x
  · rintro before x after y rfl hfirst hy
    exact lookup_freshImages_freshFor hfirst hy
  · exact fun x y => subscript_freshImages_le

-- the first name gets what the second one is called, and the second one has to move on
example : freshImages [⟨"x", 0⟩]
      [⟨"x", 0⟩, ⟨"x", 1⟩, ⟨"x", 0⟩] = [(⟨"x", 0⟩, ⟨"x", 1⟩), (⟨"x", 1⟩, ⟨"x", 2⟩)] := by
  decide

end Name

end DependentClasses
