import DependentClasses.Surface.Source

/-! What readers give. The result of a compound reader and the symbols that it notes, part by part,
and repeated readings as a relation in which no number of readings is fixed in advance. -/
namespace DependentClasses

namespace Lexicon

theorem note_of_mem {l : Lexicon} {x : String} (h : x ∈ l) : l.note x = l := if_pos h

theorem mem_note {l : Lexicon} {x y : String} : y ∈ l.note x ↔ y ∈ l ∨ y = x := by
  unfold note
  split
  · next h => exact ⟨.inl, fun hy => hy.elim id fun heq => heq ▸ h⟩
  · simp

theorem noteAll_append (l : Lexicon) (xs ys : List String) :
    l.noteAll (xs ++ ys) = (l.noteAll xs).noteAll ys :=
  List.foldl_append

theorem subset_noteAll (l : Lexicon) (xs : List String) : l ⊆ l.noteAll xs := by
  induction xs generalizing l with
  | nil => exact List.Subset.refl l
  | cons x xs ih => exact fun y hy => ih (l.note x) (mem_note.2 (.inl hy))

theorem mem_noteAll (l : Lexicon) {xs : List String} {x : String} (h : x ∈ xs) :
    x ∈ l.noteAll xs := by
  induction xs generalizing l with
  | nil => cases h
  | cons y xs ih =>
    obtain rfl | h := List.mem_cons.1 h
    · exact subset_noteAll (l.note x) xs (mem_note.2 (.inr rfl))
    · exact ih (l.note y) h

/-- Symbols that have been noted need not be noted again. -/
theorem noteAll_filter {l : Lexicon} {xs : List String} (ys : List String) (h : xs ⊆ l) :
    l.noteAll (ys.filter (· ∉ xs)) = l.noteAll ys := by
  induction ys generalizing l with
  | nil => rfl
  | cons y ys ih =>
    rw [List.filter_cons]
    split
    · exact ih fun x hx => mem_note.2 (.inl (h hx))
    · next hy =>
      have hmem : y ∈ l := h (by simpa using hy)
      change _ = (l.note y).noteAll ys
      rw [note_of_mem hmem, ih h]

theorem noteAll_join (l : Lexicon) (t t' : Trace) :
    l.noteAll (t.join t').symbols = (l.noteAll t.symbols).noteAll t'.symbols := by
  simp only [Trace.join, noteAll_append]
  exact noteAll_filter _ fun x hx => mem_noteAll l hx

end Lexicon

namespace Parser

variable {α β : Type} {p q : Parser α} {k : α → Parser β} {c c' c'' : Cursor} {a : α} {b : β}
  {l l' l'' : Lexicon}

/-- `p` reads `a` from `c` to `c'`, and `l` becomes `l'` by the symbols that it meets. -/
structure Gives (p : Parser α) (l : Lexicon) (c : Cursor) (a : α) (c' : Cursor)
    (l' : Lexicon) : Prop where
  result : (p c).result = some (a, c')
  notes : l.noteAll (p c).trace.symbols = l'

structure Fails (p : Parser α) (l : Lexicon) (c : Cursor) (l' : Lexicon) : Prop where
  result : (p c).result = none
  notes : l.noteAll (p c).trace.symbols = l'

theorem bind_of_some (h : (p c).result = some (a, c')) :
    (p >>= k) c = (k a c').after (p c).trace := by
  change Parser.bind p k c = _
  unfold Parser.bind
  generalize p c = r at h
  obtain ⟨_, t⟩ := r
  cases h
  rfl

theorem bind_of_none (h : (p c).result = none) : (p >>= k) c = .failed (p c).trace := by
  change Parser.bind p k c = _
  unfold Parser.bind
  generalize p c = r at h
  obtain ⟨_, t⟩ := r
  cases h
  rfl

theorem orElse_of_some (h : (p c).result = some (a, c')) : (p <|> q) c = p c := by
  change Parser.orElse p q c = _
  unfold Parser.orElse
  generalize p c = r at h
  obtain ⟨_, t⟩ := r
  cases h
  rfl

theorem orElse_of_none (h : (p c).result = none) : (p <|> q) c = (q c).after (p c).trace := by
  change Parser.orElse p q c = _
  unfold Parser.orElse
  generalize p c = r at h
  obtain ⟨_, t⟩ := r
  cases h
  rfl

theorem exists_of_bind {x : β × Cursor} (h : ((p >>= k) c).result = some x) :
    ∃ a c', (p c).result = some (a, c') ∧ (k a c').result = some x := by
  cases hp : (p c).result with
  | none =>
    rw [bind_of_none hp] at h
    cases h
  | some r =>
    rw [bind_of_some hp] at h
    exact ⟨r.1, r.2, rfl, h⟩

theorem or_of_orElse {x : α × Cursor} (h : ((p <|> q) c).result = some x) :
    (p c).result = some x ∨ (q c).result = some x := by
  cases hp : (p c).result with
  | none =>
    rw [orElse_of_none hp] at h
    exact .inr h
  | some r =>
    rw [orElse_of_some hp] at h
    exact .inl (hp ▸ h)

namespace Gives

theorem pure : Gives (Pure.pure a) l c a c l := ⟨rfl, rfl⟩

theorem bind (h : Gives p l c a c' l') (hk : Gives (k a) l' c' b c'' l'') :
    Gives (p >>= k) l c b c'' l'' := by
  have heq := bind_of_some (k := k) h.result
  refine ⟨by rw [heq]; exact hk.result, ?_⟩
  rw [heq, ← hk.notes, ← h.notes]
  exact l.noteAll_join _ _

theorem orElse_left (h : Gives p l c a c' l') : Gives (p <|> q) l c a c' l' := by
  have heq := orElse_of_some (q := q) h.result
  exact ⟨by rw [heq]; exact h.result, by rw [heq]; exact h.notes⟩

theorem orElse_right (h : Fails p l c l') (hq : Gives q l' c a c' l'') :
    Gives (p <|> q) l c a c' l'' := by
  have heq := orElse_of_none (q := q) h.result
  refine ⟨by rw [heq]; exact hq.result, ?_⟩
  rw [heq, ← hq.notes, ← h.notes]
  exact l.noteAll_join _ _

end Gives

theorem Fails.bind (h : Fails p l c l') : Fails (p >>= k) l c l' := by
  have heq := bind_of_none (k := k) h.result
  exact ⟨by rw [heq]; rfl, by rw [heq]; exact h.notes⟩

inductive Repeats (p : Parser α) : Lexicon → Cursor → List α → Cursor → Lexicon → Prop
  | stop {l l' : Lexicon} {c : Cursor} : Fails p l c l' → Repeats p l c [] c l'
  | next {l l₁ l' : Lexicon} {c c₁ c' : Cursor} {a : α} {as : List α} : Gives p l c a c₁ l₁ →
      Repeats p l₁ c₁ as c' l' →
    Repeats p l c (a :: as) c' l'

theorem Repeats.unique {as as' : List α} (h : Repeats p l c as c' l')
    (h' : Repeats p l c as' c'' l'') :
    as = as' ∧ c' = c'' ∧ l' = l'' := by
  induction h generalizing as' with
  | stop hp =>
    cases h' with
    | stop hp' => exact ⟨rfl, rfl, hp.notes.symm.trans hp'.notes⟩
    | next hp' _ => cases hp.result.symm.trans hp'.result
  | next hp _ ih =>
    cases h' with
    | stop hp' => cases hp.result.symm.trans hp'.result
    | next hp' h' =>
      cases hp.result.symm.trans hp'.result
      cases hp.notes.symm.trans hp'.notes
      obtain ⟨rfl, hc, hl⟩ := ih h'
      exact ⟨rfl, hc, hl⟩

/-- Each reading uses up a character, so that there are no more of them than characters. -/
theorem upTo_repeats (hp : ∀ c a c', (p c).result = some (a, c') → c'.rest.length < c.rest.length)
    {n : Nat} (l : Lexicon) (c : Cursor) (hn : c.rest.length < n) :
    ∃ as c' l', Gives (upTo p n) l c as c' l' ∧ Repeats p l c as c' l' := by
  induction n generalizing c l with
  | zero => cases hn
  | succ n ih =>
    unfold upTo
    cases h : (p c).result with
    | none =>
      have hfails : Fails p l c _ := ⟨h, rfl⟩
      exact ⟨[], c, _, .orElse_right hfails.bind .pure, .stop hfails⟩
    | some r =>
      obtain ⟨a, c₁⟩ := r
      have hgives : Gives p l c a c₁ _ := ⟨h, rfl⟩
      have hlt := hp c a c₁ h
      obtain ⟨as, c', l', hrest, hrepeats⟩ := ih _ c₁ (by omega)
      exact ⟨a :: as, c', l', .orElse_left (.bind hgives (.bind hrest .pure)),
        .next hgives hrepeats⟩

end Parser

end DependentClasses
