import DependentClasses.Proofs.Places
import DependentClasses.Proofs.Readings

/-! What is read from a given text. A reader makes the same of a text wherever it stands, up to the
places that it records, and so readings of longer texts are put together from readings of their
parts. -/
namespace DependentClasses

def nowhere : Nat → Nat := fun _ => 0

namespace Parser

section
variable {α β : Type} [Movable α] [Movable β]

/-- From the text `s`, `p` reads `b` up to places, and `r` is left. -/
def Reads (p : Parser α) (s r : List Char) (b : α) : Prop :=
  ∀ o, ∃ a o', (p ⟨o, s⟩).result = some (a, ⟨o', r⟩) ∧ moved nowhere a = b

def Refuses {α : Type} (p : Parser α) (s : List Char) : Prop := ∀ o, (p ⟨o, s⟩).result = none

variable {p q : Parser α} {k : α → Parser β} {s r r' : List Char} {a : α} {b : β}

namespace Refuses

theorem bind {α β : Type} {p : Parser α} {k : α → Parser β} (h : Refuses p s) :
    Refuses (p >>= k) s := by
  intro o
  rw [bind_of_none (h o)]
  rfl

/-- What follows fails, whatever the places in what is read before. -/
theorem after {β : Type} {k : α → Parser β} (h : Reads p s r a)
    (hk : ∀ a', moved nowhere a' = a → Refuses (k a') r) :
    Refuses (p >>= k) s := by
  intro o
  obtain ⟨a', o', hp, ha⟩ := h o
  rw [bind_of_some hp]
  exact hk a' ha o'

theorem position {α : Type} {k : Nat → Parser α} (h : ∀ n, Refuses (k n) s) :
    Refuses (Parser.position >>= k) s := by
  intro o
  have hposition : (Parser.position ⟨o, s⟩).result = some (o, ⟨o, s⟩) := rfl
  rw [bind_of_some hposition]
  exact h o o

theorem orElse {α : Type} {p q : Parser α} (h : Refuses p s) (h' : Refuses q s) :
    Refuses (p <|> q) s := by
  intro o
  rw [orElse_of_none (h o)]
  exact h' o

end Refuses

namespace Reads

theorem pure (a : α) (s : List Char) : Reads (Pure.pure a) s s (moved nowhere a) :=
  fun o => ⟨a, o, rfl, rfl⟩

theorem bind (h : Reads p s r a) (hk : ∀ a', moved nowhere a' = a → Reads (k a') r r' b) :
    Reads (p >>= k) s r' b := by
  intro o
  obtain ⟨a', o', hp, ha⟩ := h o
  obtain ⟨b', o'', hk, hb⟩ := hk a' ha o'
  refine ⟨b', o'', ?_, hb⟩
  rw [bind_of_some hp]
  exact hk

theorem position {k : Nat → Parser α} (h : ∀ n, Reads (k n) s r a) :
    Reads (Parser.position >>= k) s r a :=
  bind (fun o => ⟨o, o, rfl, rfl⟩) fun n _ => h n

theorem orElse_left (h : Reads p s r a) : Reads (p <|> q) s r a := by
  intro o
  obtain ⟨a', o', hp, ha⟩ := h o
  exact ⟨a', o', by rw [orElse_of_some hp, hp], ha⟩

theorem orElse_right (h : Refuses p s) (hq : Reads q s r a) : Reads (p <|> q) s r a := by
  intro o
  obtain ⟨a', o', hq, ha⟩ := hq o
  exact ⟨a', o', by rw [orElse_of_none (h o)]; exact hq, ha⟩

theorem pure_of {a : α} {b : α} (h : moved nowhere a = b) (s : List Char) :
    Reads (Pure.pure a) s s b := h ▸ pure a s

theorem optional_some (h : Reads p s r a) : Reads (Parser.optional p) s r (some a) :=
  orElse_left (bind h fun _ ha => pure_of (congrArg some ha) r)

theorem optional_none (h : Refuses p s) : Reads (Parser.optional p) s s none :=
  orElse_right (h.bind) (pure none s)

end Reads

inductive ReadsAll (p : Parser α) : List Char → List Char → List α → Prop
  | stop {s : List Char} : Refuses p s → ReadsAll p s s []
  | next {s r r' : List Char} {a : α} {as : List α} : Reads p s r a → r.length < s.length →
      ReadsAll p r r' as →
    ReadsAll p s r' (a :: as)

namespace ReadsAll

variable {as : List α}

theorem upTo (h : ReadsAll p s r as) {n : Nat} (hn : s.length < n) :
    Reads (Parser.upTo p n) s r as := by
  induction h generalizing n with
  | @stop s hp =>
    obtain _ | n := n
    · exact absurd hn (Nat.not_lt_zero _)
    · exact .orElse_right hp.bind (.pure [] s)
  | next hp hlt _ ih =>
    obtain _ | n := n
    · exact absurd hn (Nat.not_lt_zero _)
    · refine .orElse_left (.bind hp fun a ha => .bind (ih (by omega)) fun as has => .pure_of ?_ _)
      rw [moved_cons, ha, has]

theorem many (h : ReadsAll p s r as) : Reads (Parser.many p) s r as :=
  fun o => h.upTo (Nat.lt_succ_self _) o

theorem sepBy1 {separator : Parser Unit} (h : Reads p s r a)
    (hs : ReadsAll (do separator; p) r r' as) :
    Reads (Parser.sepBy1 p separator) s r' (a :: as) := by
  refine .bind h fun a' ha => .bind hs.many fun as' has => .pure_of ?_ _
  rw [moved_cons, ha, has]

end ReadsAll

end

end Parser

namespace Lexeme

open DependentClasses.Parser (Reads Refuses ReadsAll)

@[simp] def words : List String := "_" :: reserved

theorem words_spec (text : String) (htext : text ∈ words) :
    (∀ c ∈ text.toList, isWordChar c) ∧ text.toList ≠ [] := by
  have hspec : ∀ text ∈ words, text.toList.all isWordChar ∧ text.toList ≠ [] := by decide
  exact (hspec text htext).imp_left List.all_eq_true.1

def word (s : List Char) : List Char := s.takeWhile isWordChar

def afterBlanks (s : List Char) : List Char := (skipBlanks false 0 s).rest

section
variable {s r r' : List Char} {c : Char} {text : String}

@[simp] theorem afterBlanks_space (s : List Char) : afterBlanks (' ' :: s) = afterBlanks s :=
  rest_skipBlanks false _ 0 s

theorem afterBlanks_cons (hc : isBlank c = false) (hc' : c ≠ '/') (s : List Char) :
    afterBlanks (c :: s) = c :: s := by
  simp [afterBlanks, skipBlanks, hc, hc']

@[simp] theorem afterBlanks_afterBlanks (s : List Char) :
    afterBlanks (afterBlanks s) = afterBlanks s := by
  have h (b : Bool) (o : Nat) : afterBlanks (skipBlanks b o s).rest = (skipBlanks b o s).rest := by
    induction s generalizing b o with
    | nil => rfl
    | cons c s ih =>
      unfold skipBlanks
      split
      · exact ih _ _
      split <;> rename_i hblank
      · exact ih _ _
      split <;> rename_i hslash
      · exact ih _ _
      · unfold afterBlanks skipBlanks
        simp [hblank, hslash]
  exact h false 0

theorem word_cons_of_not (hc : isWordChar c = false) (s : List Char) : word (c :: s) = [] := by
  simp [word, hc]

theorem word_append {w : List Char} (hw : ∀ c ∈ w, isWordChar c) (hr : word r = []) :
    word (w ++ r) = w := by
  unfold word at hr ⊢
  rw [List.takeWhile_append_of_pos hw, hr, List.append_nil]

theorem not_isBlank_of_isWordChar (h : isWordChar c) : isBlank c = false ∧ c ≠ '/' ∧ c ≠ '(' := by
  refine ⟨?_, ?_, ?_⟩
  · by_contra hb
    simp only [isBlank, Bool.not_eq_false, Bool.or_eq_true, beq_iff_eq, or_assoc] at hb
    obtain rfl | rfl | rfl | rfl := hb <;> revert h <;> decide
  · rintro rfl
    revert h
    decide
  · rintro rfl
    revert h
    decide

theorem blanks_reads (s : List Char) : Reads blanks s (afterBlanks s) () := by
  intro o
  refine ⟨(), (skipBlanks false o s).offset, ?_, rfl⟩
  rw [afterBlanks, rest_skipBlanks false 0 o]
  rfl

theorem exists_skip_append (w r : List Char) (o : Nat) :
    ∃ o', Cursor.skip w.length ⟨o, w ++ r⟩ = ⟨o', r⟩ := by
  have hrest := Cursor.rest_skip w.length ⟨o, w ++ r⟩
  rw [List.drop_left] at hrest
  generalize Cursor.skip w.length ⟨o, w ++ r⟩ = c at hrest ⊢
  obtain ⟨o', r'⟩ := c
  cases hrest
  exact ⟨o', rfl⟩

theorem literal_reads (text : String) (r : List Char) :
    Reads (literal text) (text.toList ++ r) r () := by
  intro o
  obtain ⟨o', hskip⟩ := exists_skip_append text.toList r o
  refine ⟨(), o', ?_, rfl⟩
  unfold literal
  rw [if_pos (List.isPrefixOf_iff_prefix.2 (List.prefix_append _ _)), ← String.length_toList]
  exact congrArg (fun c => some ((), c)) hskip

theorem literal_refuses (h : ¬ text.toList <+: s) : Refuses (literal text) s := by
  intro o
  unfold literal
  rw [if_neg (fun hp => h (List.isPrefixOf_iff_prefix.1 hp))]
  rfl

/-- A mark is refused if another character stands there. -/
theorem mark_refuses {more : List Char} (h : s.head? ≠ some c) (htext : text.toList = c :: more) :
    Refuses (literal text) s := by
  refine literal_refuses ?_
  rw [htext]
  rintro ⟨t, rfl⟩
  exact h rfl

/-- A word goes on where it is longer than `text`. -/
theorem word_refuses {α : Type} {k : Unit → Parser α}
    (hk : ∀ c s, isWordChar c → Refuses (k ()) (c :: s)) (h : word s ≠ text.toList)
    (htext : text ∈ words) : Refuses (literal text >>= k) s := by
  obtain ⟨htext, -⟩ := words_spec text htext
  by_cases hp : text.toList <+: s
  · obtain ⟨t, rfl⟩ := hp
    obtain _ | ⟨c, t⟩ := t
    · exact absurd (word_append htext rfl) h
    · refine .after (literal_reads text _) fun _ _ => hk c t ?_
      by_contra hc
      exact h (word_append htext (word_cons_of_not (Bool.not_eq_true _ ▸ hc) t))
  · exact .bind (literal_refuses hp)

theorem wordEnd_refuses (c : Char) (s : List Char) (h : isWordChar c) :
    Refuses wordEnd (c :: s) := by
  intro o
  simp only [wordEnd, h, if_true]
  rfl

theorem wordEnd_reads (h : word s = []) : Reads wordEnd s s () := by
  intro o
  refine ⟨(), o, ?_, rfl⟩
  obtain _ | ⟨c, s⟩ := s
  · rfl
  · have hc : isWordChar c = false := by
      by_contra hc
      rw [Bool.not_eq_false] at hc
      simp [word, hc] at h
    simp [wordEnd, hc]

theorem keyword_refuses (h : word s ≠ text.toList) (htext : text ∈ words) :
    Refuses (keyword text) s :=
  word_refuses wordEnd_refuses h htext

theorem keyword_reads (text : String) (h : word r = []) :
    Reads (keyword text) (text.toList ++ r) r () :=
  .bind (literal_reads text r) fun _ _ => wordEnd_reads h

theorem identifier_reads {w : List Char} (hw : ∀ c ∈ w, isWordChar c) (hident : isIdentifier w)
    (hr : word r = []) :
    Reads identifier (w ++ r) r ⟨String.ofList w, 0⟩ := by
  intro o
  obtain ⟨o', hskip⟩ := exists_skip_append w r o
  refine ⟨⟨String.ofList w, 0⟩, o', ?_, rfl⟩
  have hword : (w ++ r).takeWhile isWordChar = w := word_append hw hr
  simp only [identifier, hword, hident, if_true, hskip]

theorem identifier_refuses (h : isIdentifier (word s) = false) : Refuses identifier s := by
  intro o
  unfold word at h
  simp only [identifier, h]
  rfl

theorem quotedText_reads {w : List Char} (hw : Expected.quotationMark ∉ w) (r : List Char) :
    Reads quotedText (w ++ Expected.quotationMark :: r) (Expected.quotationMark :: r)
      (String.ofList w) := by
  intro o
  obtain ⟨o', hskip⟩ := exists_skip_append w (Expected.quotationMark :: r) o
  refine ⟨String.ofList w, o', ?_, rfl⟩
  have htake : (w ++ Expected.quotationMark :: r).takeWhile (· != Expected.quotationMark) = w := by
    rw [List.takeWhile_append_of_pos, List.takeWhile_cons_of_neg (by simp), List.append_nil]
    intro c hc
    exact bne_iff_ne.2 fun heq => hw (heq ▸ hc)
  simp only [quotedText, htake, hskip]

theorem quote_reads (h : Expected.quotationMark ∉ text.toList) (r : List Char) :
    Reads quote ('"' :: (text.toList ++ '"' :: r)) r text := by
  refine .bind (literal_reads "\"" _) fun _ _ => .bind (quotedText_reads h r) fun text' htext => ?_
  obtain rfl : text' = text := htext.trans String.ofList_toList
  exact .bind (literal_reads "\"" _) fun _ _ => .pure text' r

section
variable {α : Type} [Movable α] {p : Parser α} {a : α} {as : List α}

theorem after_reads {mark : String} (hmark : afterBlanks s = mark.toList ++ r)
    (hr : afterBlanks r = r) (h : Reads p r r' a) :
    Reads (after mark p) s r' a := by
  refine .bind (hmark ▸ blanks_reads s) fun _ _ => .bind (literal_reads mark r) fun _ _ => ?_
  exact .bind (blanks_reads r) fun _ _ => hr.symm ▸ h

/-- As `after_reads`, with a space after the mark. -/
theorem after_reads_space {mark : String} (hmark : afterBlanks s = mark.toList ++ ' ' :: r)
    (hr : afterBlanks r = r) (h : Reads p r r' a) : Reads (after mark p) s r' a := by
  refine .bind (hmark ▸ blanks_reads s) fun _ _ => .bind (literal_reads mark _) fun _ _ => ?_
  exact .bind (blanks_reads _) fun _ _ => (afterBlanks_space r).symm ▸ hr.symm ▸ h

theorem after_refuses {α : Type} {p : Parser α} {mark : String} {more : List Char}
    (h : (afterBlanks s).head? ≠ some c) (hmark : mark.toList = c :: more) :
    Refuses (after mark p) s :=
  .after (blanks_reads s) fun _ _ => .bind (mark_refuses h hmark)

def following {α : Type} (p : Parser α) : Parser α := do
  (do blanks; literal ","; blanks)
  p

theorem following_reads (h : Reads p s r a) (hs : afterBlanks s = s) :
    Reads (following p) (',' :: ' ' :: s) r a := by
  have hcomma : Reads (do blanks; literal ","; blanks) (',' :: ' ' :: s) s () := by
    refine .bind (blanks_reads _) fun _ _ => .bind (literal_reads "," (' ' :: s)) fun _ _ => ?_
    have hblanks := blanks_reads (' ' :: s)
    rwa [afterBlanks_space, hs] at hblanks
  exact .bind hcomma fun _ _ => h

theorem following_refuses {α : Type} {p : Parser α} (h : (afterBlanks s).head? ≠ some ',') :
    Refuses (following p) s :=
  .bind (.after (blanks_reads s) fun _ _ => .bind (mark_refuses h rfl))

theorem commaSeparated_reads {items : Parser Unit → Parser (List α)}
    (h : Reads (items (do blanks; literal ","; blanks)) s r as)
    (hr : (afterBlanks r).head? ≠ some ',') : Reads (commaSeparated items) s
        (afterBlanks r) as := by
  refine .bind h fun as' has => .bind (blanks_reads r) fun _ _ =>
    .bind (.optional_none (mark_refuses hr rfl)) fun _ _ => ?_
  have hblanks := blanks_reads (afterBlanks r)
  rw [afterBlanks_afterBlanks] at hblanks
  exact .bind hblanks fun _ _ => .pure_of has _

/-- One reading of `p`, and more of them after commas. -/
theorem commaList1_reads (h : Reads p s r a) (hs : ReadsAll (following p) r r' as)
    (hr : (afterBlanks r').head? ≠ some ',') :
    Reads (commaList1 p) s (afterBlanks r') (a :: as) :=
  commaSeparated_reads (ReadsAll.sepBy1 h hs) hr

theorem commaList_reads (h : Reads p s r a) (hs : ReadsAll (following p) r r' as)
    (hr : (afterBlanks r').head? ≠ some ',') :
    Reads (commaList p) s (afterBlanks r') (a :: as) :=
  commaSeparated_reads (.orElse_left (ReadsAll.sepBy1 h hs)) hr

theorem commaList_reads_nil (h : Refuses p s) (hs : s.head? ≠ some ',') (hs' : afterBlanks s = s) :
    Reads (commaList p) s s [] := by
  have hnil : Reads (commaList p) s (afterBlanks s) [] :=
    commaSeparated_reads (.orElse_right (.bind h) (.pure [] s)) (by rwa [hs'])
  rwa [hs'] at hnil

end

end

end Lexeme

end DependentClasses
