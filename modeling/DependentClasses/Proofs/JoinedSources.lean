import DependentClasses.Proofs.Places
import DependentClasses.Proofs.Readings
import DependentClasses.Proofs.TextPlaces

/-! Two sources of statements, one after the other with a line break between. Together they are read
as the statements of the first and then those of the second, and the same symbols are noted in the
same order. -/
namespace DependentClasses

open Lexeme
open DependentClasses.Parser (InStep Repeats)

namespace Cursor

def skipped (c : Cursor) : Cursor := skipBlanks false c.offset c.rest

theorem leads_skipped (c : Cursor) : c.Leads c.skipped :=
  exists_skip_skipBlanks false c.offset c.rest

theorem length_rest_skipped (c : Cursor) : c.skipped.rest.length ≤ c.rest.length := by
  obtain ⟨n, hn⟩ := c.leads_skipped
  rw [hn, rest_skip, List.length_drop]
  omega

theorem skipped_skipped (c : Cursor) : c.skipped.skipped = c.skipped := by
  have h (b : Bool) (o : Nat) (r : List Char) : (skipBlanks b o r).skipped = skipBlanks b o r := by
    induction r generalizing b o with
    | nil => rfl
    | cons ch r ih =>
      rw [skipBlanks]
      split
      · exact ih _ _
      split
      · exact ih _ _
      split
      · exact ih _ _
      · simp only [skipped, skipBlanks, Bool.false_eq_true, if_false]
        rw [if_neg ‹_›, if_neg ‹_›]
  exact h false c.offset c.rest

/-- The end of a source comes after all of its bytes. -/
theorem Leads.offset_eq {c c' : Cursor} (h : c.Leads c') (hend : c'.rest = []) :
    c'.offset = c.offset + Text.byteLength c.rest := by
  obtain ⟨n, rfl⟩ := h
  rw [rest_skip, List.drop_eq_nil_iff] at hend
  rw [offset_skip, List.take_of_length_le hend]

end Cursor

namespace Lexeme

variable {c c' : Cursor} {text : String} {u : Unit}

theorem of_literal (h : (literal text c).result = some (u, c')) :
    text.toList ++ c'.rest = c.rest := by
  unfold literal at h
  split at h
  · next hprefix =>
    obtain ⟨r, hr⟩ := List.isPrefixOf_iff_prefix.1 hprefix
    cases h
    rw [Cursor.rest_skip, ← hr, ← String.length_toList, List.drop_left]
  · cases h

theorem of_keyword (h : (keyword text c).result = some (u, c'))
    (hword : text.toList.all isWordChar) :
    c.rest.takeWhile isWordChar = text.toList := by
  obtain ⟨_, c₁, hliteral, hend⟩ := Parser.exists_of_bind h
  rw [← of_literal hliteral, List.takeWhile_append_of_pos (List.all_eq_true.1 hword)]
  unfold wordEnd at hend
  cases hrest : c₁.rest with
  | nil => simp
  | cons x r =>
    rw [hrest] at hend
    simp only at hend
    split at hend
    · cases hend
    · next hx => simp [hx]

end Lexeme

namespace Grammar

variable {c c' : Cursor} {l : Lexicon}

/-- A statement starts with one of the words for it. -/
theorem exists_word_of_statement {later : Rules} {s : Statement}
    (h : (statement later c).result = some (s, c')) :
    ∃ w ∈ statementWords, c.rest.takeWhile isWordChar = w.toList := by
  obtain h | h := Parser.or_of_orElse h
  · obtain ⟨_, _, hword, -⟩ := Parser.exists_of_bind h
    exact ⟨"let", by decide, of_keyword hword (by decide)⟩
  obtain h | h := Parser.or_of_orElse h
  · obtain ⟨_, _, hword, -⟩ := Parser.exists_of_bind h
    exact ⟨"check", by decide, of_keyword hword (by decide)⟩
  obtain h | h := Parser.or_of_orElse h
  · obtain ⟨_, _, hword, -⟩ := Parser.exists_of_bind h
    exact ⟨"compute", by decide, of_keyword hword (by decide)⟩
  · obtain ⟨_, c₁, hsolve, h⟩ := Parser.exists_of_bind h
    obtain ⟨_, c₂, hblanks, h⟩ := Parser.exists_of_bind h
    obtain ⟨_, c₃, hparen, -⟩ := Parser.exists_of_bind h
    refine ⟨"solve", by decide, ?_⟩
    rw [← of_literal hsolve, List.takeWhile_append_of_pos (List.all_eq_true.1 (by decide))]
    have hparen := of_literal hparen
    cases hblanks
    -- A word that went on would be followed by no parenthesis.
    have hend : c₁.rest.takeWhile isWordChar = [] := by
      cases hrest : c₁.rest with
      | nil => rfl
      | cons x r =>
        rw [List.takeWhile_cons, if_neg]
        intro hx
        have hblank : isBlank x = false ∧ x ≠ '/' ∧ x ≠ '(' := by
          refine ⟨?_, ?_, ?_⟩
          · rw [Bool.eq_false_iff]
            intro hblank
            simp only [isBlank, Bool.or_eq_true, beq_iff_eq] at hblank
            obtain ((rfl | rfl) | rfl) | rfl := hblank <;> cases hx
          · rintro rfl
            cases hx
          · rintro rfl
            cases hx
        rw [hrest, skipBlanks] at hparen
        simp only [hblank.1, Bool.false_eq_true, if_false, beq_eq_false_iff_ne.2 hblank.2.1,
          Bool.false_and] at hparen
        exact hblank.2.2 (List.cons.inj hparen).1.symm
    simp [hend]

def nextStatement : Parser Statement := do
  blanks
  statement places

theorem blanks_gives (l : Lexicon) (c : Cursor) : blanks.Gives l c () c.skipped l := ⟨rfl, rfl⟩

theorem nextStatement_eq (c : Cursor) :
    nextStatement c = (statement places c.skipped).after .empty := rfl

theorem nextStatement_gives_iff {s : Statement} {l' : Lexicon} :
    nextStatement.Gives l c s c' l' ↔ (statement places).Gives l c.skipped s c' l' := by
  refine ⟨fun h => ⟨h.result, ?_⟩, fun h => .bind (blanks_gives l c) h⟩
  rw [← h.notes, nextStatement_eq]
  exact (l.noteAll_join .empty _).symm

theorem nextStatement_fails_iff {l' : Lexicon} :
    nextStatement.Fails l c l' ↔ (statement places).Fails l c.skipped l' := by
  have hnotes : l.noteAll (nextStatement c).trace.symbols = l.noteAll
      (statement places c.skipped).trace.symbols :=
    l.noteAll_join .empty _
  exact ⟨fun h => ⟨h.result, hnotes.symm.trans h.notes⟩, fun h => ⟨h.result, hnotes.trans h.notes⟩⟩

theorem length_lt_of_nextStatement {s : Statement} (h : (nextStatement c).result = some (s, c')) :
    c'.rest.length < c.rest.length := by
  have hstep :=
    ((Placement.alone c.skipped 0).agree _).statement _ _ (Placement.alone_same c.skipped 0)
  obtain ⟨-, _, -, hc⟩ := hstep.of_some h
  exact Nat.lt_of_lt_of_le hc.lt c.length_rest_skipped

/-- At the end of a source no statement starts, and no symbol is met. -/
theorem statement_nil {later : Rules} (h : c.rest = []) : (statement later).Fails l c l := by
  obtain ⟨o, r⟩ := c
  cases h
  exact ⟨rfl, rfl⟩

/-- Statements are read one after the other, as many as there are. -/
theorem statements_repeats (l : Lexicon) (c : Cursor) :
    ∃ ss c' l', (statements places).Gives l c ss c'.skipped l' ∧
    Repeats nextStatement l c ss c' l' := by
  cases h : (statement places c.skipped).result with
  | none =>
    have hfails : (statement places).Fails l c.skipped _ := ⟨h, rfl⟩
    refine ⟨[], c, _, ?_, .stop (nextStatement_fails_iff.2 hfails)⟩
    have hend := blanks_gives (l.noteAll (statement places c.skipped).trace.symbols) c.skipped
    rw [c.skipped_skipped] at hend
    exact .bind (blanks_gives l c) (.bind (.orElse_right hfails.bind .pure) (.bind hend .pure))
  | some r =>
    obtain ⟨a, c₁⟩ := r
    have hgives : (statement places).Gives l c.skipped a c₁ _ := ⟨h, rfl⟩
    obtain ⟨as, c', l', hmany, hrepeats⟩ :=
      Parser.upTo_repeats (p := nextStatement) (fun _ _ _ => length_lt_of_nextStatement)
      (l.noteAll (statement places c.skipped).trace.symbols) c₁ (Nat.lt_succ_self _)
    have hrest : (Parser.many nextStatement).Gives _ c₁ as c' l' := ⟨hmany.result, hmany.notes⟩
    refine ⟨a :: as, c', l', ?_, .next (nextStatement_gives_iff.2 hgives) hrepeats⟩
    exact .bind (blanks_gives l c)
      (.bind (.orElse_left (.bind hgives (.bind hrest .pure))) (.bind (blanks_gives l' c') .pure))

theorem at_skipped {P : Placement} {k : Nat} {C : Cursor} (h : P.Same k 0 c C) :
    P.At k 0 c.skipped C.skipped := by
  obtain ⟨-, _, hblanks, hat⟩ := (InStep.blanks c C (.inl h)).of_some (blanks_gives [] c).result
  cases hblanks
  exact hat

/-- A statement of a source is also read inside a longer text. -/
theorem nextStatement_gives {P : Placement} {k : Nat} {C : Cursor} {s : Statement} {l' : Lexicon}
    (hc : P.Same k 0 c C) (h : nextStatement.Gives l c s c' l') :
    ∃ C', nextStatement.Gives l C (moved (· + P.shift) s) C' l' ∧ P.Same k 0 c' C' := by
  have hs := nextStatement_gives_iff.1 h
  obtain hsame | hbeyond := at_skipped hc
  · obtain ⟨j, rfl⟩ : ∃ j, k = j + 1 := ⟨k - 1, by have := hc.lt; omega⟩
    obtain ⟨hsymbols, C', hresult, hsame'⟩ := ((P.agree j).statement _ _ hsame).of_some hs.result
    exact ⟨C', nextStatement_gives_iff.2 ⟨hresult, (congrArg l.noteAll hsymbols).trans hs.notes⟩,
      hsame'.mono (Nat.le_succ j)⟩
  · cases hs.result.symm.trans (statement_nil (l := l) hbeyond.rest).result

/-- The statements of a source, followed by what is read from its end on in a longer text. -/
theorem repeats_append {P : Placement} {k : Nat} {C C₂ : Cursor} {ss ts : List Statement}
    {l₁ l₂ : Lexicon} (h : Repeats nextStatement l c ss c' l₁) (hc : P.Same k 0 c C)
    (hend : c'.skipped.rest = [])
    (hnext : ∀ C', P.Same k 0 c' C' → Repeats nextStatement l₁ C' ts C₂ l₂) :
    Repeats nextStatement l C (moved (· + P.shift) ss ++ ts) C₂ l₂ := by
  induction h generalizing C with
  | stop hfails =>
    cases hfails.notes.symm.trans (nextStatement_fails_iff.2 (statement_nil hend)).notes
    exact hnext C hc
  | next hgives _ ih =>
    obtain ⟨C', hgives', hc'⟩ := nextStatement_gives hc hgives
    exact .next hgives' (ih hc' hend hnext)

/-- The statements of a source that nothing follows. -/
theorem repeats_moved {P : Placement} (htail : P.tail = []) {k : Nat} {C : Cursor}
    {ss : List Statement} {l' : Lexicon} (h : Repeats nextStatement l c ss c' l')
    (hc : P.Same k 0 c C) :
    ∃ C', Repeats nextStatement l C (moved (· + P.shift) ss) C' l' ∧ P.Same k 0 c' C' := by
  induction h generalizing C with
  | @stop l _ c hfails =>
    refine ⟨C, .stop (nextStatement_fails_iff.2 ?_), hc⟩
    have hs := nextStatement_fails_iff.1 hfails
    obtain ⟨j, rfl⟩ : ∃ j, k = j + 1 := ⟨k - 1, by have := hc.lt; omega⟩
    obtain ⟨hsymbols, hresult⟩ :=
      ((P.agree j).statement _ _ ((at_skipped hc).same_of_tail htail)).of_none hs.result
    exact ⟨hresult, (congrArg l.noteAll hsymbols).trans hs.notes⟩
  | next hgives _ ih =>
    obtain ⟨C₁, hgives', hc₁⟩ := nextStatement_gives hc hgives
    obtain ⟨C', hrepeats, hc'⟩ := ih hc₁
    exact ⟨C', .next hgives' hrepeats, hc'⟩

/-- Where statements are read from, blanks do not matter. -/
theorem repeats_of_skipped {C : Cursor} {ss : List Statement} {l' : Lexicon}
    (h : Repeats nextStatement l c ss c' l') (hskipped : C.skipped = c.skipped) :
    ∃ C', Repeats nextStatement l C ss C' l' ∧ C'.skipped = c'.skipped := by
  cases h with
  | stop hfails =>
    refine ⟨C, .stop (nextStatement_fails_iff.2 ?_), hskipped⟩
    rw [hskipped]
    exact nextStatement_fails_iff.1 hfails
  | next hgives h =>
    refine ⟨c', .next (nextStatement_gives_iff.2 ?_) h, rfl⟩
    rw [hskipped]
    exact nextStatement_gives_iff.1 hgives

/-- A source of statements starts with one, or has only blanks. -/
theorem atStatement_of_repeats {ss : List Statement} {l' : Lexicon}
    (h : Repeats nextStatement l c ss c' l') (hend : c'.skipped.rest = []) :
    AtStatement c.skipped.rest := by
  cases h with
  | stop _ => exact .inl hend
  | next hgives _ => exact .inr (exists_word_of_statement (nextStatement_gives_iff.1 hgives).result)

end Grammar

namespace Statement

theorem listOfSource_alike (s : String) :
    (Grammar.statements (Entry.rules (Entry.table 0 s.toList)) ⟨0, s.toList⟩).Alike
      (Grammar.statements Grammar.places ⟨0, s.toList⟩) :=
  Reading.alike_places s fun _ htail _ _ _ h => h.statements htail

theorem symbols_listOfSource (s : String) : (listOfSource s).symbols =
    Name.anonymous.symbol :: (Grammar.statements Grammar.places ⟨0, s.toList⟩).trace.symbols := by
  rw [(listOfSource_alike s).symbols]
  unfold listOfSource Reading.ofSource Reading.ofReply
  split
  · split <;> rfl
  · rfl

/-- The statements of a source, which is read if they use it up. -/
theorem listOfSource_repeats (s : String) (l : Lexicon) : ∃ ss c',
    Repeats Grammar.nextStatement (l.note Name.anonymous.symbol) ⟨0, s.toList⟩ ss c'
      (l.noteAll (listOfSource s).symbols) ∧
      ∀ ts, (listOfSource s).outcome = .ok ts ↔ ts = ss ∧ c'.skipped.rest = [] := by
  obtain ⟨ss, c', l', hgives, hrepeats⟩ :=
    Grammar.statements_repeats (l.note Name.anonymous.symbol) ⟨0, s.toList⟩
  have hresult := (listOfSource_alike s).result.symm.trans hgives.result
  refine ⟨ss, c', ?_, fun ts => ?_⟩
  · rw [symbols_listOfSource, show l.noteAll (Name.anonymous.symbol :: _) = l' from hgives.notes]
    exact hrepeats
  · unfold listOfSource Reading.ofSource Reading.ofReply
    rw [hresult]
    simp only
    split
    · next hend => simp [List.isEmpty_iff.1 hend, eq_comm]
    · next hend =>
      refine ⟨fun h => (by cases h), fun h => ?_⟩
      rw [h.2] at hend
      exact absurd rfl hend

theorem repeats_of_listOfSource {s : String} {ss : List Statement}
    (h : (listOfSource s).outcome = .ok ss) (l : Lexicon) :
    ∃ c', c'.skipped.rest = [] ∧
      Repeats Grammar.nextStatement (l.note Name.anonymous.symbol) ⟨0, s.toList⟩ ss c'
        (l.noteAll (listOfSource s).symbols) := by
  obtain ⟨_, c', hrepeats, houtcome⟩ := listOfSource_repeats s l
  obtain ⟨rfl, hend⟩ := (houtcome ss).1 h
  exact ⟨c', hend, hrepeats⟩

theorem listOfSource_of_repeats {s : String} {ss : List Statement} {l l' : Lexicon} {c' : Cursor}
    (hend : c'.skipped.rest = [])
    (h : Repeats Grammar.nextStatement (l.note Name.anonymous.symbol) ⟨0, s.toList⟩ ss c' l') :
    (listOfSource s).outcome = .ok ss ∧ l.noteAll (listOfSource s).symbols = l' := by
  obtain ⟨_, _, hrepeats, houtcome⟩ := listOfSource_repeats s l
  obtain ⟨rfl, rfl, rfl⟩ := h.unique hrepeats
  exact ⟨(houtcome ss).2 ⟨rfl, hend⟩, rfl⟩

/-- The statements of the second source, read from the end of the first one. -/
theorem repeats_second {ss : List Statement} {l l' : Lexicon} {r : List Char}
    {c c' : Cursor} (o : Nat) (h : Repeats Grammar.nextStatement l ⟨0, r⟩ ss c' l')
    (hend : c'.skipped.rest = []) (hc : c.skipped.rest = []) (hoffset : c.skipped.offset = o) :
    ∃ C, C.skipped.rest = [] ∧
      Repeats Grammar.nextStatement l ⟨c.offset, c.rest ++ '\n' :: r⟩
        (moved (· + (o + 1)) ss) C l' := by
  let P : Placement := ⟨⟨0, r⟩, o + 1, [], closes .plain 0 r, .inl rfl⟩
  have hsame : P.Same (r.length + 1) 0 ⟨0, r⟩ ⟨o + 1, r⟩ :=
    ⟨.refl _, Nat.lt_succ_self _, (Nat.zero_add _).symm, (List.append_nil _).symm, rfl⟩
  obtain ⟨C, hmoved, hsame'⟩ := Grammar.repeats_moved (P := P) rfl h hsame
  have hskipped : Cursor.skipped ⟨c.offset, c.rest ++ '\n' :: r⟩ = Cursor.skipped ⟨o + 1, r⟩ := by
    rw [← hoffset]
    exact skipBlanks_newline hc r
  obtain ⟨C', hrepeats, hC'⟩ := Grammar.repeats_of_skipped hmoved hskipped
  refine ⟨C', ?_, hrepeats⟩
  rw [hC', ((Grammar.at_skipped hsame').same_of_tail rfl).rest, hend]
  rfl

/-- Two sources, one below the other, have the statements of the first and then those of the
second. -/
theorem listOfSource_join {s₁ s₂ : String} {ss₁ ss₂ : List Statement}
    (h₁ : (listOfSource s₁).outcome = .ok ss₁)
    (h₂ : (listOfSource s₂).outcome = .ok ss₂) (l : Lexicon) :
    (listOfSource (s₁ ++ "\n" ++ s₂)).outcome = .ok (ss₁ ++ moved (· + (s₁.utf8ByteSize + 1)) ss₂) ∧
      l.noteAll (listOfSource (s₁ ++ "\n" ++ s₂)).symbols =
        (l.noteAll (listOfSource s₁).symbols).noteAll (listOfSource s₂).symbols := by
  obtain ⟨c₁, hend₁, hrepeats₁⟩ := repeats_of_listOfSource h₁ l
  obtain ⟨c₂, hend₂, hrepeats₂⟩ := repeats_of_listOfSource h₂ (l.noteAll (listOfSource s₁).symbols)
  have hnoted : Name.anonymous.symbol ∈ l.noteAll (listOfSource s₁).symbols :=
    l.mem_noteAll (by rw [symbols_listOfSource]; exact List.mem_cons_self)
  rw [Lexicon.note_of_mem hnoted] at hrepeats₂
  obtain ⟨_, -, halone⟩ :=
    Grammar.repeats_moved rfl hrepeats₁ (Placement.alone_same ⟨0, s₁.toList⟩ 0)
  have hleads : (Cursor.mk 0 s₁.toList).Leads c₁.skipped := by
    obtain ⟨n, hn⟩ := c₁.leads_skipped
    rw [hn]
    exact halone.leads.skip n
  have hoffset : c₁.skipped.offset = s₁.utf8ByteSize := by
    rw [hleads.offset_eq hend₁, Text.utf8ByteSize_eq, Nat.zero_add]
  obtain ⟨C, hend, hsecond⟩ := repeats_second _ hrepeats₂ hend₂ hend₁ hoffset
  -- The first source ends outside of braces and quotations, and a statement or nothing follows it.
  have hcloses : closes .plain 0 s₁.toList = true := by
    rw [show closes .plain 0 s₁.toList = closes .plain 0 c₁.rest from halone.closes.symm]
    exact (closes_skipBlanks false 0 c₁.offset c₁.rest).trans (congrArg (closes .plain 0) hend₁)
  have hstatement : AtStatement (skipBlanks false 0 s₂.toList).rest :=
    Grammar.atStatement_of_repeats hrepeats₂ hend₂
  let P : Placement := ⟨⟨0, s₁.toList⟩, 0, '\n' :: s₂.toList, true, .inr ⟨rfl, _, rfl, hstatement⟩⟩
  have hsame : P.Same (s₁.toList.length + 1) 0 ⟨0, s₁.toList⟩ ⟨0, s₁.toList ++ '\n' :: s₂.toList⟩ :=
    ⟨.refl _, Nat.lt_succ_self _, rfl, rfl, hcloses⟩
  have hboth := Grammar.repeats_append (P := P) hrepeats₁ hsame hend₁ fun C' hC' => by
    obtain ⟨o, r⟩ := C'
    cases hC'.offset
    cases hC'.rest
    exact hsecond
  have htext : (s₁ ++ "\n" ++ s₂).toList = s₁.toList ++ '\n' :: s₂.toList := by simp
  refine listOfSource_of_repeats hend ?_
  rw [htext]
  rwa [show moved (· + P.shift) ss₁ = ss₁ from moved_id ss₁] at hboth

end Statement

end DependentClasses
