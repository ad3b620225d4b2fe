import DependentClasses.Proofs.InStep
import DependentClasses.Text.Line
import Mathlib.Data.List.Infix
import Mathlib.Data.List.TakeWhile

/-! A source inside a longer text. The text has other characters before the source, and after it
nothing, or a line break and the start of a statement. Reading the source there goes in step with
reading it alone: where the source ends, nothing that is being read goes on, unless it is inside
braces or a quotation; and if one reading of the source ends outside of these, then every attempt to
read it does. -/
namespace DependentClasses

namespace Cursor

theorem rest_skip (n : Nat) (c : Cursor) : (c.skip n).rest = c.rest.drop n := by
  induction n generalizing c with
  | zero => simp [skip]
  | succ n ih =>
    obtain ⟨o, _ | ⟨ch, rest⟩⟩ := c
    · simp [skip]
    · simp [skip, ih]

theorem offset_skip (n : Nat) (c : Cursor) :
    (c.skip n).offset = c.offset + Text.byteLength (c.rest.take n) := by
  induction n generalizing c with
  | zero => simp [skip, Text.byteLength]
  | succ n ih =>
    obtain ⟨o, _ | ⟨ch, rest⟩⟩ := c
    · simp [skip, Text.byteLength]
    · simp [skip, ih, Text.byteLength, Nat.add_assoc]

theorem skip_skip (m n : Nat) (c : Cursor) : (c.skip m).skip n = c.skip (m + n) := by
  induction m generalizing c with
  | zero => simp [skip]
  | succ m ih =>
    obtain ⟨o, _ | ⟨ch, rest⟩⟩ := c
    · cases n <;> simp [skip]
    · rw [Nat.succ_add, skip, skip, ih]

def Leads (c c' : Cursor) : Prop := ∃ n, c' = c.skip n

theorem Leads.refl (c : Cursor) : c.Leads c := ⟨0, rfl⟩

theorem Leads.skip {c c' : Cursor} (h : c.Leads c') (n : Nat) : c.Leads (c'.skip n) := by
  obtain ⟨m, rfl⟩ := h
  exact ⟨m + n, skip_skip m n c⟩

end Cursor

namespace Lexeme

inductive Mode
  | plain
  | quoted
  | comment

/-- The text ends outside of quotations and of all braces, of which `depth` are open at its
start. -/
def closes (mode : Mode) (depth : Nat) : List Char → Bool
  | [] =>
    match mode with
    | .quoted => false
    | _ => depth == 0
  | c :: rest =>
    match mode with
    | .quoted => closes (if c = Expected.quotationMark then .plain else .quoted) depth rest
    | .comment => closes (if c = '\n' then .plain else .comment) depth rest
    | .plain =>
      if c = Expected.quotationMark then closes .quoted depth rest
      else if c = '\x7b' then closes .plain (depth + 1) rest
      else if c = '\x7d' then depth != 0 && closes .plain (depth - 1) rest
      else if c == '/' && rest.head? == some '/' then closes .comment depth rest
      else closes .plain depth rest

def isPlain (c : Char) : Bool := c ∉ [Expected.quotationMark, '\x7b', '\x7d', '/', '\n']

theorem isPlain_of_isWordChar {c : Char} (h : isWordChar c) : isPlain c := by
  unfold isPlain
  simp only [List.mem_cons, List.not_mem_nil, or_false, decide_not, Bool.not_eq_true',
    decide_eq_false_iff_not]
  rintro (rfl | rfl | rfl | rfl | rfl) <;> revert h <;> decide

theorem closes_append {w : List Char} (hw : ∀ c ∈ w, isPlain c) (depth : Nat) (r : List Char) :
    closes .plain depth (w ++ r) = closes .plain depth r := by
  induction w with
  | nil => rfl
  | cons c w ih =>
    have hc : isPlain c := hw c List.mem_cons_self
    simp only [isPlain, List.mem_cons, List.not_mem_nil, or_false, not_or, decide_eq_true_eq] at hc
    rw [List.cons_append, closes]
    simp [hc, ih fun d hd => hw d (List.mem_cons_of_mem c hd)]

theorem closes_skipBlanks (b : Bool) (depth o : Nat) (r : List Char) :
    closes (if b then .comment else .plain) depth r = closes .plain depth
      (skipBlanks b o r).rest := by
  induction r generalizing b o with
  | nil => cases b <;> rfl
  | cons c r ih =>
    cases b with
    | true =>
      simp only [if_true, closes, skipBlanks, ← ih]
      by_cases hc : c = '\n' <;> simp [hc]
    | false =>
      unfold skipBlanks
      simp only [Bool.false_eq_true, if_false]
      split
      · next hc =>
        rw [← ih]
        simp only [isBlank, Bool.or_eq_true, beq_iff_eq] at hc
        rw [closes]
        obtain ((rfl | rfl) | rfl) | rfl := hc <;> rfl
      · split
        · next hc =>
          simp only [Bool.and_eq_true, beq_iff_eq] at hc
          rw [← ih, hc.1, closes]
          simp [hc.2, Expected.quotationMark]
        · rfl

theorem exists_skip_skipBlanks (b : Bool) (o : Nat) (r : List Char) :
    ∃ n, skipBlanks b o r = Cursor.skip n ⟨o, r⟩ := by
  induction r generalizing b o with
  | nil => exact ⟨0, rfl⟩
  | cons c r ih =>
    have hnext (b : Bool) : ∃ n, skipBlanks b (o + c.utf8Size) r = Cursor.skip n ⟨o, c :: r⟩ := by
      obtain ⟨n, hn⟩ := ih b (o + c.utf8Size)
      exact ⟨n + 1, hn⟩
    unfold skipBlanks
    repeat' split
    · exact hnext _
    · exact hnext _
    · exact hnext _
    · exact ⟨0, rfl⟩

/-- Blanks and comments are the same wherever they stand, and what stands after something else does
not matter. -/
theorem skipBlanks_append {b : Bool} {o : Nat} {r t : List Char} (m : Nat)
    (h : t = [] ∨ (skipBlanks b o r).rest ≠ [] ∧ t.head? ≠ some '/') :
    skipBlanks b (o + m) (r ++ t) = ⟨(skipBlanks b o r).offset + m,
      (skipBlanks b o r).rest ++ t⟩ := by
  induction r generalizing b o with
  | nil =>
    obtain rfl | ⟨h, -⟩ := h
    · rfl
    · exact absurd rfl h
  | cons c r ih =>
    have hhead : ((r ++ t).head? == some '/') = (r.head? == some '/') := by
      cases r with
      | nil =>
        obtain rfl | ⟨-, h⟩ := h
        · rfl
        · simpa using h
      | cons _ _ => rfl
    rw [List.cons_append]
    unfold skipBlanks at h ⊢
    simp only [hhead, Nat.add_right_comm o m]
    split <;> rename_i hb
    · rw [if_pos hb] at h
      exact ih h
    rw [if_neg hb] at h
    split <;> rename_i hc
    · rw [if_pos hc] at h
      exact ih h
    rw [if_neg hc] at h
    split <;> rename_i hs
    · rw [if_pos hs] at h
      exact ih h
    · rfl

theorem rest_skipBlanks (b : Bool) (o o' : Nat) (r : List Char) :
    (skipBlanks b o r).rest = (skipBlanks b o' r).rest := by
  have h (o : Nat) : (skipBlanks b o r).rest = (skipBlanks b 0 r).rest := by
    have := skipBlanks_append (b := b) (o := 0) (r := r) (t := []) o (.inl rfl)
    rw [List.append_nil, List.append_nil, Nat.zero_add] at this
    rw [this]
  rw [h o, h o']

/-- Where only blanks and comments are left, they go on behind a line break. -/
theorem skipBlanks_newline {b : Bool} {o : Nat} {r : List Char} (h : (skipBlanks b o r).rest = [])
    (t : List Char) :
    skipBlanks b o (r ++ '\n' :: t) = skipBlanks false ((skipBlanks b o r).offset + 1) t := by
  induction r generalizing b o with
  | nil => cases b <;> rfl
  | cons c r ih =>
    have hhead (hr : r.head? = some '/') : (r ++ '\n' :: t).head? = some '/' := by
      cases r with
      | nil => cases hr
      | cons _ _ => exact hr
    simp only [List.cons_append, skipBlanks] at h ⊢
    split at h
    · next hb => rw [if_pos hb, if_pos hb, ih h]
    next hb =>
    rw [if_neg hb, if_neg hb]
    split at h
    · next hc => rw [if_pos hc, if_pos hc, ih h]
    next hc =>
    rw [if_neg hc, if_neg hc]
    split at h
    · next hs =>
      have hs' : (c == '/' && (r ++ '\n' :: t).head? == some '/') = true := by
        simp only [Bool.and_eq_true, beq_iff_eq] at hs ⊢
        exact ⟨hs.1, hhead hs.2⟩
      rw [if_pos hs, if_pos hs', ih h]
    · cases h

def statementWords : List String := ["let", "check", "compute", "solve"]

/-- A statement starts here, or nothing is left. -/
def AtStatement (r : List Char) : Prop :=
  r = [] ∨ ∃ w ∈ statementWords, r.takeWhile isWordChar = w.toList

theorem AtStatement.not_isIdentifier {r : List Char} (h : AtStatement r) :
    isIdentifier (r.takeWhile isWordChar) = false := by
  obtain rfl | ⟨w, hw, hr⟩ := h
  · rfl
  · rw [hr]
    clear hr
    revert w
    decide

/-- What stands at a statement starts with a word, so that it is not a blank. -/
theorem AtStatement.skipBlanks_eq {r : List Char} (h : AtStatement r) (o : Nat) :
    skipBlanks false o r = ⟨o, r⟩ := by
  obtain rfl | ⟨w, hw, hr⟩ := h
  · rfl
  · have hword : w.toList ≠ [] ∧ w.toList.head?.all (fun c => !isBlank c && c != '/') := by
      clear hr
      revert w
      decide
    obtain _ | ⟨c, r⟩ := r
    · exact absurd hr.symm hword.1
    · have hc : w.toList.head? = some c := by
        rw [← hr, List.takeWhile_cons]
        split
        · rfl
        · next hc =>
          rw [List.takeWhile_cons, if_neg hc] at hr
          exact absurd hr.symm hword.1
      have hstart := hword.2
      simp only [hc, Option.all_some, Bool.and_eq_true, Bool.not_eq_true', bne_iff_ne] at hstart
      simp [skipBlanks, hstart]

end Lexeme

/-- The reader fails wherever a statement starts, and does not come across any symbols there. -/
def Parser.Barred {α : Type} (p : Parser α) : Prop :=
  ∀ c, Lexeme.AtStatement c.rest → (p c).result = none ∧ (p c).trace.symbols = []

namespace Parser.Barred

open Lexeme

variable {α β : Type} {p q : Parser α}

theorem bind (h : p.Barred) (k : α → Parser β) : Barred (p >>= k) := by
  intro c hc
  obtain ⟨hresult, hsymbols⟩ := h c hc
  change (Parser.bind p k c).result = none ∧ (Parser.bind p k c).trace.symbols = []
  unfold Parser.bind
  generalize p c = r at hresult hsymbols
  obtain ⟨_, t⟩ := r
  cases hresult
  exact ⟨rfl, hsymbols⟩

theorem orElse (h : p.Barred) (h' : q.Barred) : Barred (p <|> q) := by
  intro c hc
  obtain ⟨hresult, hsymbols⟩ := h c hc
  change (Parser.orElse p q c).result = none ∧ (Parser.orElse p q c).trace.symbols = []
  unfold Parser.orElse
  generalize p c = r at hresult hsymbols
  obtain ⟨_, t⟩ := r
  cases hresult
  simp only at hsymbols
  simp [Reply.after, Trace.join, h' c hc, hsymbols]

/-- Nothing is read by asking for the position. -/
theorem position {k : Nat → Parser α} (h : ∀ n, Barred (k n)) : Barred (Parser.position >>= k) := by
  intro c hc
  obtain ⟨hresult, hsymbols⟩ := h c.offset c hc
  change ((k c.offset c).after .empty).result = none ∧
    ((k c.offset c).after .empty).trace.symbols = []
  simp [Reply.after, Trace.join, Trace.empty, hresult, hsymbols]

theorem literal {text : String} (h : text.toList ≠ [])
    (hwords : ∀ w ∈ statementWords, ¬ text.toList <+: w.toList ∧ ¬ w.toList <+: text.toList) :
    Barred (literal text) := by
  intro c hc
  have hprefix : text.toList.isPrefixOf c.rest = false := by
    rw [Bool.eq_false_iff, Ne, List.isPrefixOf_iff_prefix]
    intro htext
    obtain hc | ⟨w, hw, hr⟩ := hc
    · rw [hc, List.prefix_nil] at htext
      exact h htext
    · have hword : w.toList <+: c.rest := hr ▸ List.takeWhile_prefix _
      obtain hle | hle := List.prefix_or_prefix_of_prefix htext hword
      · exact (hwords w hw).1 hle
      · exact (hwords w hw).2 hle
  simp [Lexeme.literal, hprefix, Reply.failed, Trace.expecting]

theorem identifier : Barred identifier := by
  intro c hc
  simp [Lexeme.identifier, hc.not_isIdentifier, Reply.failed, Trace.expecting]

theorem quote : Barred quote := bind (literal (by decide) (by decide)) _

end Parser.Barred

open Lexeme

/-- A source from `origin` on inside a longer text. -/
structure Placement where
  origin : Cursor
  /-- By how much the source is moved. -/
  shift : Nat
  /-- What follows it. -/
  tail : List Char
  /-- Whether the source ends outside of braces and quotations. -/
  closed : Bool
  valid : tail = [] ∨ closed = true ∧ ∃ r, tail = '\n' :: r ∧
    AtStatement (skipBlanks false 0 r).rest

namespace Placement

variable (P : Placement)

/-- The same place of the source alone and inside the text, with fewer than `k` characters of the
source left. It is inside of `d` braces. -/
structure Inside (mode : Mode) (k d : Nat) (c c' : Cursor) : Prop where
  leads : P.origin.Leads c
  lt : c.rest.length < k
  offset : c'.offset = c.offset + P.shift
  rest : c'.rest = c.rest ++ P.tail
  closes : closes mode d c.rest = P.closed

structure Beyond (k d : Nat) (c c' : Cursor) : Prop where
  tail : P.tail ≠ []
  pos : 0 < k
  depth : d = 0
  rest : c.rest = []
  atStatement : AtStatement c'.rest

abbrev Same : Nat → Nat → Cursor → Cursor → Prop := P.Inside .plain

/-- The same place, or the end of the source. -/
def At (k d : Nat) (c c' : Cursor) : Prop := P.Same k d c c' ∨ P.Beyond k d c c'

variable {P} {k k' d : Nat} {c c' : Cursor} {mode : Mode}

theorem Inside.mono (h : P.Inside mode k d c c') (hk : k ≤ k') : P.Inside mode k' d c c' :=
  { h with lt := Nat.lt_of_lt_of_le h.lt hk }

/-- Inside of braces the source does not end before the text does. -/
theorem At.same (h : P.At k (d + 1) c c') : P.Same k (d + 1) c c' :=
  h.resolve_right fun h => by cases h.depth

/-- The end of the source is the end of the text if nothing follows. -/
theorem At.same_of_tail (h : P.At k d c c') (htail : P.tail = []) : P.Same k d c c' :=
  h.resolve_right fun h => h.tail htail

theorem head_tail_ne (x : Char) (hx : x ≠ '\n') : P.tail.head? ≠ some x := by
  obtain h | ⟨-, r, h, -⟩ := P.valid <;> simp [h, hx.symm]

theorem prefix_append_tail_iff {w r : List Char} (hw : '\n' ∉ w) : w <+: r ++ P.tail ↔ w <+: r := by
  refine ⟨fun h => ?_, fun h => h.trans (List.prefix_append r _)⟩
  obtain htail | ⟨-, t, htail, -⟩ := P.valid
  · rwa [htail, List.append_nil] at h
  · rw [htail, show r ++ '\n' :: t = r ++ ['\n'] ++ t by simp] at h
    obtain hle | hle := List.prefix_or_prefix_of_prefix h (List.prefix_append (r ++ ['\n']) t)
    · obtain hle | rfl := List.prefix_concat_iff.1 hle |>.symm
      · exact hle
      · exact absurd (by simp) hw
    · exact absurd (hle.subset (by simp)) hw

theorem takeWhile_append_tail (r : List Char) :
    (r ++ P.tail).takeWhile isWordChar = r.takeWhile isWordChar := by
  obtain htail | ⟨-, t, htail, -⟩ := P.valid
  · rw [htail, List.append_nil]
  · have h : ('\n' :: t).takeWhile isWordChar = [] := rfl
    rw [htail, List.takeWhile_append, h, List.append_nil]
    split
    · next hlength => exact ((List.takeWhile_prefix isWordChar).eq_of_length hlength).symm
    · rfl

/-- The source may not end inside a quotation if something follows it. -/
theorem tail_eq_nil (h : P.closed = false) : P.tail = [] :=
  P.valid.resolve_right fun h' => by simp [h] at h'

theorem Inside.skip {n : Nat} {mode' : Mode} {d' : Nat} (h : P.Inside mode k d c c')
    (hn : n ≤ c.rest.length) (hlt : c.rest.length < k' + n)
    (hcloses : Lexeme.closes mode' d' (c.rest.drop n) = P.closed) :
    P.Inside mode' k' d' (c.skip n) (c'.skip n) where
  leads := h.leads.skip n
  lt := by rw [Cursor.rest_skip, List.length_drop]; omega
  offset := by
    rw [Cursor.offset_skip, Cursor.offset_skip, h.rest, List.take_append_of_le_length hn, h.offset]
    omega
  rest := by rw [Cursor.rest_skip, Cursor.rest_skip, h.rest, List.drop_append_of_le_length hn]
  closes := by rw [Cursor.rest_skip, hcloses]

end Placement

namespace Parser.InStep

variable {α : Type} [Movable α] {P : Placement} {R : Cursor → Cursor → Prop} {p q : Parser α}
  {k k' d d' : Nat} {mode mode' : Mode}

/-- Beyond the source a barred reader fails. -/
theorem ofBarred (h : InStep (· + P.shift) (P.Same k d) R p q) (hp : p.Barred) (hq : q.Barred) :
    InStep (· + P.shift) (P.At k d) R p q := by
  rintro c c' (hc | hc)
  · exact h c c' hc
  · obtain ⟨hresult, hsymbols⟩ := hp c (.inl hc.rest)
    obtain ⟨hresult', hsymbols'⟩ := hq c' hc.atStatement
    generalize p c = r at hresult hsymbols
    generalize q c' = r' at hresult' hsymbols'
    obtain ⟨_, t⟩ := r
    obtain ⟨_, t'⟩ := r'
    cases hresult
    cases hresult'
    exact .failed (hsymbols'.trans hsymbols.symm)

theorem position :
    InStep (· + P.shift) (P.Inside mode k d) (P.Inside mode k d) Parser.position
    Parser.position := by
  intro c c' hc
  have h : c'.offset = moved (· + P.shift) c.offset := hc.offset
  unfold Parser.position
  rw [h]
  exact .read _ rfl hc

/-- A literal that takes the text from one mode and depth to another. -/
theorem literal_of {text : String} (hne : text.toList ≠ []) (hline : '\n' ∉ text.toList)
    (hcloses : ∀ r, closes mode d (text.toList ++ r) = closes mode' d' r) :
    InStep (· + P.shift) (P.Inside mode (k + 1) d) (P.Inside mode' k d') (literal text)
      (literal text) := by
  intro c c' hc
  have hiff : text.toList.isPrefixOf c'.rest = text.toList.isPrefixOf c.rest := by
    rw [Bool.eq_iff_iff, List.isPrefixOf_iff_prefix, List.isPrefixOf_iff_prefix, hc.rest,
      Placement.prefix_append_tail_iff hline]
  unfold literal
  rw [hiff]
  split
  · next hprefix =>
    obtain ⟨r, hr⟩ := List.isPrefixOf_iff_prefix.1 hprefix
    have hlength : text.length + r.length = c.rest.length := by
      rw [← hr, List.length_append, String.length_toList]
    have hpos := List.length_pos_of_ne_nil hne
    rw [String.length_toList] at hpos
    have hlt := hc.lt
    refine .read _ rfl (hc.skip (by omega) (by omega) ?_)
    rw [← hr, ← String.length_toList, List.drop_left, ← hcloses, hr, hc.closes]
  · exact .failed rfl

theorem literal {text : String} (hne : text.toList ≠ []) (hplain : text.toList.all isPlain) :
    InStep (· + P.shift) (P.Same (k + 1) d) (P.Same k d) (literal text) (literal text) := by
  rw [List.all_eq_true] at hplain
  exact literal_of hne (fun h => absurd (hplain _ h) (by decide)) fun r => closes_append hplain d r

theorem wordEnd : InStep (· + P.shift) (P.Same k d) (P.Same k d) wordEnd wordEnd := by
  intro c c' hc
  have hrest := hc.rest
  unfold Lexeme.wordEnd
  cases h : c.rest with
  | nil =>
    have hend : ∀ x r, c'.rest = x :: r → isWordChar x = false := by
      intro x r hx
      rw [hx, h, List.nil_append] at hrest
      obtain htail | ⟨-, t, htail, -⟩ := P.valid
      · rw [htail] at hrest; cases hrest
      · rw [htail] at hrest; cases hrest; rfl
    cases h' : c'.rest with
    | nil => exact .read () rfl hc
    | cons x r =>
      simp only [hend x r h', Bool.false_eq_true, if_false]
      exact .read () rfl hc
  | cons x r =>
    rw [h, List.cons_append] at hrest
    rw [hrest]
    simp only
    split
    · exact .failed rfl
    · exact .read () rfl hc

theorem keyword {text : String} (hne : text.toList ≠ []) (hplain : text.toList.all isPlain) :
    InStep (· + P.shift) (P.Same (k + 1) d) (P.Same k d) (keyword text) (keyword text) :=
  .bind (literal hne hplain) fun _ => wordEnd

theorem identifier : InStep (· + P.shift) (P.At (k + 1) d) (P.Same k d) identifier identifier := by
  refine ofBarred ?_ .identifier .identifier
  intro c c' hc
  unfold Lexeme.identifier
  rw [hc.rest, Placement.takeWhile_append_tail]
  have hplain : ∀ x ∈ c.rest.takeWhile isWordChar, isPlain x :=
    fun x hx => isPlain_of_isWordChar (List.mem_takeWhile_imp hx)
  obtain ⟨r, hr⟩ := List.takeWhile_prefix (l := c.rest) isWordChar
  generalize c.rest.takeWhile isWordChar = w at hr hplain
  simp only
  split
  · next hword =>
    have hpos : 0 < w.length := List.length_pos_of_ne_nil fun h => by rw [h] at hword; cases hword
    have hlength : w.length + r.length = c.rest.length := by rw [← hr, List.length_append]
    have hlt := hc.lt
    refine .read _ rfl (hc.skip (by omega) (by omega) ?_)
    rw [← hr, List.drop_left, ← closes_append hplain, hr, hc.closes]
  · exact .failed rfl

theorem blanks : InStep (· + P.shift) (P.At k d) (P.At k d) blanks blanks := by
  rintro c c' (hc | hc)
  · obtain ⟨n, hn⟩ := exists_skip_skipBlanks false c.offset c.rest
    have hcloses : Lexeme.closes .plain d (skipBlanks false c.offset c.rest).rest = P.closed :=
      (closes_skipBlanks false d c.offset c.rest).symm.trans hc.closes
    have hleads : P.origin.Leads (skipBlanks false c.offset c.rest) := by
      rw [hn]
      exact hc.leads.skip n
    have hlt : (skipBlanks false c.offset c.rest).rest.length < k := by
      rw [hn, Cursor.rest_skip, List.length_drop]
      have := hc.lt
      simp only
      omega
    refine .read () rfl ?_
    by_cases hend : P.tail = [] ∨ (skipBlanks false c.offset c.rest).rest ≠ []
    · -- the blanks end inside the source, or nothing follows it
      have h := skipBlanks_append P.shift
        (hend.imp_right fun h => ⟨h, Placement.head_tail_ne '/' (by decide)⟩)
      rw [hc.offset, hc.rest, h]
      exact .inl ⟨hleads, hlt, rfl, rfl, hcloses⟩
    · simp only [not_or, not_not] at hend
      obtain ⟨htail, hrest⟩ := hend
      obtain ⟨hclosed, r, hr, hstatement⟩ := P.valid.resolve_left htail
      rw [hrest, hclosed] at hcloses
      have h := skipBlanks_newline (o := c'.offset) (r := c.rest)
        ((rest_skipBlanks false _ _ _).trans hrest) r
      rw [hc.rest, hr, h]
      exact .inr ⟨htail, Nat.lt_of_le_of_lt (Nat.zero_le _) hlt, by
        simpa [Lexeme.closes] using hcloses, hrest,
        rest_skipBlanks false 0 _ r ▸ hstatement⟩
  · have hend : skipBlanks false c.offset c.rest = c := by
      obtain ⟨o, r⟩ := c
      cases hc.rest
      rfl
    refine .read () rfl (.inr ?_)
    rw [hend, hc.atStatement.skipBlanks_eq]
    exact hc

theorem opening :
    InStep (· + P.shift) (P.At (k + 1) d) (P.Same k (d + 1)) (Lexeme.literal "\x7b")
    (Lexeme.literal "\x7b") :=
  ofBarred (literal_of (by decide) (by decide) fun _ => rfl) (.literal (by decide) (by decide))
    (.literal (by decide) (by decide))

theorem closing :
    InStep (· + P.shift) (P.At (k + 1) (d + 1)) (P.Same k d) (Lexeme.literal "\x7d")
    (Lexeme.literal "\x7d") :=
  .mono (literal_of (by decide) (by decide) fun _ => by simp [closes, Expected.quotationMark])
    (fun _ _ hc => hc.same) fun _ _ hc => hc

/-- The characters of a quotation. If none of them is the last one, the source ends there and
nothing follows it. -/
theorem quotedText :
    InStep (· + P.shift) (P.Inside .quoted k d) (P.Inside .quoted k d) quotedText quotedText := by
  intro c c' hc
  have hcloses (w r : List Char) (hw : ∀ x ∈ w, x ≠ Expected.quotationMark) :
      Lexeme.closes .quoted d (w ++ r) = Lexeme.closes .quoted d r := by
    induction w with
    | nil => rfl
    | cons x w ih =>
      rw [List.cons_append, Lexeme.closes]
      simp [hw x List.mem_cons_self, ih fun y hy => hw y (List.mem_cons_of_mem x hy)]
  have hmarks : ∀ x ∈ c.rest.takeWhile (· != Expected.quotationMark), x ≠ Expected.quotationMark :=
    fun x hx => by simpa using List.mem_takeWhile_imp hx
  obtain ⟨r, hr⟩ := List.takeWhile_prefix (l := c.rest) (· != Expected.quotationMark)
  have htake : (c.rest ++ P.tail).takeWhile (· != Expected.quotationMark) =
      c.rest.takeWhile (· != Expected.quotationMark) := by
    rw [List.takeWhile_append]
    split
    · next hlength =>
      -- no mark is left, so that the source is open and ends the text
      have hall :=
        (List.takeWhile_prefix (l := c.rest) (· != Expected.quotationMark)).eq_of_length hlength
      have hopen := hcloses c.rest [] (hall ▸ hmarks)
      rw [List.append_nil, hc.closes] at hopen
      rw [Placement.tail_eq_nil hopen]
      simpa using hall.symm
    · rfl
  unfold Lexeme.quotedText
  rw [hc.rest, htake]
  generalize c.rest.takeWhile (· != Expected.quotationMark) = w at hr hmarks
  have hlength : w.length + r.length = c.rest.length := by rw [← hr, List.length_append]
  have hlt := hc.lt
  refine .read _ rfl (hc.skip (by omega) (by omega) ?_)
  rw [← hr, List.drop_left, ← hcloses w r hmarks, hr, hc.closes]

theorem quote : InStep (· + P.shift) (P.At (k + 1) d) (P.Same k d) quote quote := by
  refine ofBarred ?_ .quote .quote
  have hopening : InStep (· + P.shift) (P.Same (k + 1) d) (P.Inside .quoted k d)
      (Lexeme.literal "\"") (Lexeme.literal "\"") :=
    literal_of (by decide) (by decide) fun r => by simp [closes, Expected.quotationMark]
  refine .bind hopening fun _ => ?_
  cases k with
  | zero => exact fun c c' hc => absurd hc.lt (Nat.not_lt_zero _)
  | succ k =>
    have hclosing : InStep (· + P.shift) (P.Inside .quoted (k + 1) d) (P.Same k d)
        (Lexeme.literal "\"") (Lexeme.literal "\"") :=
      literal_of (by decide) (by decide) fun r => by simp [closes, Expected.quotationMark]
    refine .bind quotedText fun _ => .bind hclosing fun _ => ?_
    exact .mono (.pure rfl) (fun _ _ hc => hc) fun _ _ hc => hc.mono (Nat.le_succ k)

end Parser.InStep

end DependentClasses
