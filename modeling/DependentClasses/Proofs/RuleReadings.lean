import DependentClasses.Proofs.Spellings
import Mathlib.Logic.Relation

/-! What the rules of the language make of the texts of terms. Several rules start alike; each text
is refused by those that come before the rule that it is meant for. -/
namespace DependentClasses

open Lexeme Term
open Form (bare)
open DependentClasses.Parser (Reads Refuses ReadsAll)

/-- An expression that ends here does not go on: no word, suffix or arrow follows it. -/
structure EndsHere (r : List Char) : Prop where
  word : word r = []
  call : r.head? ≠ some '('
  dot : r.head? ≠ some '.'
  arrow : (afterBlanks r).head? ≠ some '-'

namespace EndsHere

theorem nil : EndsHere [] := ⟨rfl, nofun, nofun, nofun⟩

theorem mark {c : Char} (r : List Char) (hword : isWordChar c = false) (hblank : isBlank c = false)
    (hc : c ≠ '/' ∧ c ≠ '(' ∧ c ≠ '.' ∧ c ≠ '-') : EndsHere (c :: r) := by
  refine ⟨word_cons_of_not hword r, by simp [hc], by simp [hc], ?_⟩
  rw [afterBlanks_cons hblank hc.1]
  simp [hc]

theorem space {c : Char} (r : List Char) (hblank : isBlank c = false) (hc : c ≠ '/' ∧ c ≠ '-') :
    EndsHere (' ' :: c :: r) := by
  refine ⟨rfl, by simp, by simp, ?_⟩
  rw [afterBlanks_space, afterBlanks_cons hblank hc.1]
  simp [hc]

theorem closed (r : List Char) : EndsHere (')' :: r) := .mark r rfl rfl (by simp)

theorem comma (r : List Char) : EndsHere (',' :: r) := .mark r rfl rfl (by simp)

theorem colon (r : List Char) : EndsHere (':' :: r) := .mark r rfl rfl (by simp)

theorem brace (r : List Char) : EndsHere (' ' :: '\x7d' :: r) := .space r rfl (by simp)

theorem equals (r : List Char) : EndsHere (' ' :: '=' :: r) := .space r rfl (by simp)

theorem returns (r : List Char) : EndsHere (' ' :: ("return".toList ++ r)) :=
  .space (c := 'r') _ rfl (by simp)

end EndsHere

theorem Lexeme.word_drop (s : List Char) :
    word s ++ s.drop (word s).length = s ∧ word (s.drop (word s).length) = [] := by
  have happend : word s ++ s.dropWhile isWordChar = s := List.takeWhile_append_dropWhile
  have hdrop : s.drop (word s).length = s.dropWhile isWordChar := by
    have hleft : (word s ++ s.dropWhile isWordChar).drop (word s).length = s.dropWhile isWordChar :=
      List.drop_left
    rwa [happend] at hleft
  rw [hdrop]
  refine ⟨happend, ?_⟩
  have hhead := List.head?_dropWhile_not isWordChar s
  generalize s.dropWhile isWordChar = t at hhead
  obtain _ | ⟨c, t⟩ := t
  · rfl
  · exact word_cons_of_not hhead t

theorem Lexeme.head_ne_of_word {s : List Char} (h : word s ≠ []) {c : Char}
    (hc : isWordChar c = false) :
    s.head? ≠ some c := by
  intro hhead
  obtain _ | ⟨c', s⟩ := s
  · cases hhead
  · cases hhead
    exact h (word_cons_of_not hc s)

namespace Grammar

variable {s r u v : List Char} {e a b : Expr} {x : Name} {stops : List Char}

theorem exprAt_reads (h : Reads (expr places spineAt) s r e) : Reads exprAt s r e := by
  intro o
  obtain ⟨e', o', hresult, he⟩ := h o
  exact ⟨e', o', (exprAt_alike ⟨o, s⟩).result.symm.trans hresult, he⟩

theorem exprAt_refuses (h : Refuses (expr places spineAt) s) : Refuses exprAt s :=
  fun o => (exprAt_alike ⟨o, s⟩).result.symm.trans (h o)

section Binders

theorem typed_reads {name : Parser Name} (hname : Reads name s (':' :: ' ' :: u) x)
    (hu : afterBlanks u = u) (h : Reads exprAt u r a) : Reads (typed places name) s r (x, a) := by
  have htype : Reads (after ":" exprAt) (':' :: ' ' :: u) r a :=
    after_reads_space (r := u) rfl hu h
  refine .bind hname fun x' hx => .bind htype fun a' ha => .pure_of ?_ r
  rw [moved_pair, hx, ha]

theorem implicitly_reads {α : Type} [Movable α] {p : Parser α} {a : α} (hu : afterBlanks u = u)
    (h : Reads p u r a) :
    Reads (implicitly p) ("implicit".toList ++ ' ' :: u) r a := by
  refine .bind (keyword_reads "implicit" rfl) fun _ _ => .bind (blanks_reads _) fun _ _ => ?_
  rw [afterBlanks_space, hu]
  exact h

theorem implicitly_refuses {α : Type} {p : Parser α} (h : word s ≠ "implicit".toList) :
    Refuses (implicitly p) s :=
  .bind (keyword_refuses h (by simp [reserved]))

/-- A binder is read if there is an identifier. -/
theorem binder_reads_or_refuses (h : OpensExpression stops u) :
    (∃ r x, Reads binder u r x ∧ ∀ c ∈ stops, (afterBlanks r).head? ≠ some c) ∨
      Refuses binder u := by
  cases hident : isIdentifier (word u) with
  | true =>
    obtain ⟨happend, hword⟩ := word_drop u
    have hreads :=
      identifier_reads (w := word u) (fun c hc => List.mem_takeWhile_imp hc) hident hword
    rw [happend] at hreads
    exact .inl ⟨_, _, .orElse_left hreads, h.named hident⟩
  | false =>
    exact .inr (.orElse (identifier_refuses hident)
      (.bind (keyword_refuses h.anonymous List.mem_cons_self)))

theorem typed_refuses (h : OpensExpression stops u) (hcolon : ':' ∈ stops) :
    Refuses (typed places binder) u := by
  rcases binder_reads_or_refuses h with ⟨r, x, hx, hstops⟩ | hx
  · exact .after hx fun _ _ => .bind (after_refuses (hstops _ hcolon) rfl)
  · exact .bind hx

theorem word_binder_ne (hx : x.Written ∨ x = .anonymous) (hr : word r = []) :
    word (x.text.toList ++ r) ≠ "implicit".toList := by
  rcases hx with hx | rfl
  · rw [hx.word_eq hr]
    exact ne_of_isIdentifier hx.2.2 (by decide)
  · rw [show Name.anonymous.text = "_" from rfl, word_text hr List.mem_cons_self]
    decide

theorem piBinder_reads_explicit (hx : x.Written ∨ x = .anonymous) (hu : afterBlanks u = u)
    (h : Reads exprAt u r a) :
    Reads (piBinder places) (x.text.toList ++ ':' :: ' ' :: u) r (.explicit, x, a) := by
  refine .orElse_right (.bind (implicitly_refuses (word_binder_ne hx rfl))) (.orElse_left ?_)
  refine .bind (typed_reads (Name.binder_reads hx rfl) hu h) fun b hb => .pure_of ?_ r
  rw [moved_pair, hb]
  rfl

theorem piBinder_reads_implicit (hx : x.Written) (hu : afterBlanks u = u) (h : Reads exprAt u r a) :
    Reads (piBinder places) ("implicit".toList ++ ' ' :: (x.text.toList ++ ':' :: ' ' :: u)) r
      (.implicit, x, a) := by
  have htyped := typed_reads (hx.identifier_reads rfl) hu h
  refine .orElse_left
    (.bind (implicitly_reads (Name.afterBlanks_text (.inl hx) _) htyped) fun b hb => .pure_of ?_ r)
  rw [moved_pair, hb]
  rfl

/-- A type alone is the type of a binder that is left out. -/
theorem piBinder_reads_type (hu : OpensExpression stops u) (hcolon : ':' ∈ stops)
    (h : Reads exprAt u r a) :
    Reads (piBinder places) u r (.explicit, Name.anonymous, a) := by
  refine .orElse_right (.bind (implicitly_refuses hu.implicit))
    (.orElse_right (.bind (typed_refuses hu hcolon)) ?_)
  refine .bind h fun a' ha => .pure_of ?_ r
  rw [moved_pair, moved_pair, ha]
  rfl

theorem sigmaBinder_reads_type (hu : OpensExpression stops u) (hcolon : ':' ∈ stops)
    (h : Reads exprAt u r a) :
    Reads (sigmaBinder places) u r (Name.anonymous, a) := by
  refine .orElse_right (typed_refuses hu hcolon) (.bind h fun a' ha => .pure_of ?_ r)
  rw [moved_pair, ha]
  rfl

theorem fnBinder_reads_explicit (hx : x.Written ∨ x = .anonymous) (hu : afterBlanks u = u)
    (h : Reads exprAt u r a) :
    Reads (fnBinder places) (x.text.toList ++ ':' :: ' ' :: u) r (.explicit, x, some a) := by
  have htype : Reads ( annotation places) (':' :: ' ' :: u) r (some a) :=
    .optional_some (after_reads_space (r := u) rfl hu h)
  refine .orElse_right (.bind (implicitly_refuses (word_binder_ne hx rfl))) ?_
  refine .bind (Name.binder_reads hx rfl) fun x' hx' => .bind htype fun a' ha => .pure_of ?_ r
  rw [moved_pair, moved_pair, hx', ha]
  rfl

theorem fnBinder_reads_implicit (hx : x.Written) (hu : afterBlanks u = u) (h : Reads exprAt u r a) :
    Reads (fnBinder places) ("implicit".toList ++ ' ' :: (x.text.toList ++ ':' :: ' ' :: u)) r
      (.implicit, x, some a) := by
  have hname :=
    implicitly_reads (Name.afterBlanks_text (.inl hx) _) (hx.identifier_reads (r :=
      ':' :: ' ' :: u) rfl)
  have htype : Reads ( annotation places) (':' :: ' ' :: u) r (some a) :=
    .optional_some (after_reads_space (r := u) rfl hu h)
  refine .orElse_left (.bind hname fun x' hx' => .bind htype fun a' ha => .pure_of ?_ r)
  rw [moved_pair, moved_pair, hx', ha]
  rfl

end Binders

section Lists
variable {α : Type} [Movable α] {p : Parser α} {y : α}

theorem commaList1_reads_one (h : Reads p s (')' :: r) y) : Reads (commaList1 p) s (')' :: r) [y] :=
  commaList1_reads h (.stop (following_refuses fun heq => by cases heq)) fun heq => by cases heq

theorem commaList_reads_one (h : Reads p s (')' :: r) y) : Reads (commaList p) s (')' :: r) [y] :=
  commaList_reads h (.stop (following_refuses fun heq => by cases heq)) fun heq => by cases heq

end Lists

section Arrows

/-- A binder in parentheses, as in `(x: A) -> B`. -/
theorem boundArrow_reads {p : Plicity}
    (hbinder : Reads (piBinder places) u (')' :: ' ' :: '-' :: '>' :: ' ' :: v) (p, x, a))
    (hu : afterBlanks u = u) (hv : afterBlanks v = v) (hb : Reads exprAt v r b) :
    Reads (boundArrow places) ('(' :: u) r (bare (.pi p x a b)) := by
  have hcodomain : Reads (after "->" exprAt) (' ' :: '-' :: '>' :: ' ' :: v) r b :=
    after_reads_space (r := v) rfl hv hb
  refine .position fun start => .bind (literal_reads "(" u) fun _ _ =>
    .bind (blanks_reads u) fun _ _ => ?_
  rw [hu]
  refine .bind (commaList1_reads_one hbinder) fun binders hbinders =>
    .bind (literal_reads ")" _) fun _ _ => ?_
  refine .bind hcodomain fun b' hb' => .position fun stop => .pure_of ?_ r
  rw [moved_pis, hbinders, hb']
  rfl

/-- What is read in parentheses is no binder if no arrow follows. -/
theorem boundArrow_refuses {p : Plicity} (hbinder : Reads (piBinder places) u (')' :: r) (p, x, a))
    (hu : afterBlanks u = u) (hr : (afterBlanks r).head? ≠ some '-') :
    Refuses (boundArrow places) ('(' :: u) := by
  refine .position fun start => .after (literal_reads "(" u) fun _ _ =>
    .after (blanks_reads u) fun _ _ => ?_
  rw [hu]
  refine .after (commaList1_reads_one hbinder) fun _ _ => .after (literal_reads ")" r) fun _ _ => ?_
  exact .bind (after_refuses hr rfl)

theorem boundArrow_refuses_of_head (h : s.head? ≠ some '(') : Refuses (boundArrow places) s :=
  .position fun _ => .bind (mark_refuses h rfl)

theorem arrow_reads (h : Reads spineAt s (' ' :: '-' :: '>' :: ' ' :: v) a) (hv : afterBlanks v = v)
    (hb : Reads exprAt v r b) :
    Reads (arrow places spineAt) s r (bare (.pi .explicit .anonymous a b)) := by
  have hcodomain : Reads (after "->" exprAt) (' ' :: '-' :: '>' :: ' ' :: v) r b :=
    after_reads_space (r := v) rfl hv hb
  refine .position fun start => .bind h fun a' ha => .bind hcodomain fun b' hb' =>
    .position fun stop => .pure_of ?_ r
  rw [moved_pis, hb', moved_cons, moved_pair, moved_pair, ha]
  rfl

theorem arrow_refuses (h : Reads spineAt s r a) (hr : (afterBlanks r).head? ≠ some '-') :
    Refuses (arrow places spineAt) s :=
  .position fun _ => .after h fun _ _ => .bind (after_refuses hr rfl)

end Arrows

section Functions

theorem parameters_reads {p : Plicity}
    (hbinder : Reads (fnBinder places) u (')' :: r) (p, x, some a)) (hu : afterBlanks u = u) :
    Reads (parameters places) ('(' :: u) r [(p, x, some a)] := by
  refine .bind (literal_reads "(" u) fun _ _ => .bind (blanks_reads u) fun _ _ => ?_
  rw [hu]
  refine .bind (commaList1_reads_one hbinder) fun binders hbinders =>
    .bind (literal_reads ")" r) fun _ _ => ?_
  exact .pure_of hbinders r

theorem parameters_refuses_of_head (h : s.head? ≠ some '(') : Refuses (parameters places) s :=
  .bind (mark_refuses h rfl)

/-- An expression in parentheses is no list of parameters if it goes on after its first name. -/
theorem parameters_refuses (hu : OpensExpression stops u)
    (hstops : ':' ∈ stops ∧ ',' ∈ stops ∧ ')' ∈ stops) :
    Refuses (parameters places) ('(' :: u) := by
  refine .after (literal_reads "(" u) fun _ _ => .after (blanks_reads u) fun _ _ => ?_
  rw [hu.blanks]
  have himplicit :
      Refuses (do
        let x ← implicitly identifier
        let type ← annotation places
        pure (Plicity.implicit, x, type)) u :=
    .bind (implicitly_refuses hu.implicit)
  rcases binder_reads_or_refuses hu with ⟨r, x, hx, hr⟩ | hx
  · have hbinder : Reads (fnBinder places) u r (.explicit, x, none) := by
      refine .orElse_right himplicit (.bind hx fun x' hx' => ?_)
      refine .bind (.optional_none (after_refuses (hr _ hstops.1) rfl))
        fun type htype => .pure_of ?_ r
      rw [moved_pair, moved_pair, hx', htype]
      rfl
    have hone :=
      commaList1_reads hbinder (.stop (following_refuses (hr _ hstops.2.1))) (hr _ hstops.2.1)
    exact .after hone fun _ _ => .bind (mark_refuses (hr _ hstops.2.2) rfl)
  · exact .bind (.bind (.bind (.orElse himplicit (.bind hx))))

theorem function_refuses (h : Refuses (parameters places) s) : Refuses (function places) s :=
  .orElse (.position fun _ => .bind h) (.position fun _ => .bind h)

theorem function_reads {p : Plicity}
    (h : Reads (parameters places) s (' ' :: '=' :: '>' :: ' ' :: v) [(p, x, some a)])
    (hv : afterBlanks v = v) (hb : Reads exprAt v r b) : Reads (function places) s r
        (bare (.fn p x (some a) b)) := by
  have hbody : Reads (after "=>" exprAt) (' ' :: '=' :: '>' :: ' ' :: v) r b :=
    after_reads_space (r := v) rfl hv hb
  refine .orElse_right
    (.position fun _ => .after h fun _ _ =>
    .bind (after_refuses (c := ':') (fun heq => by cases heq) rfl)) ?_
  refine .position fun start => .bind h fun binders hbinders => .bind hbody fun b' hb' =>
    .position fun stop => .pure_of ?_ r
  rw [moved_fns, hbinders, hb']
  rfl

end Functions

section Pairs

theorem sigma_reads (hbinder : Reads (sigmaBinder places) u (')' :: ' ' :: v) (x, a))
    (hu : afterBlanks u = u) (hv : afterBlanks v = v) (hb : Reads exprAt v r b) :
    Reads (sigma places) ("exists".toList ++ ' ' :: '(' :: u) r (bare (.sigma x a b)) := by
  refine .position fun start => .bind (keyword_reads "exists" rfl) fun _ _ =>
    .bind (blanks_reads _) fun _ _ => ?_
  refine .bind (literal_reads "(" u) fun _ _ => .bind (blanks_reads u) fun _ _ => ?_
  rw [hu]
  refine .bind (commaList1_reads_one hbinder) fun binders hbinders =>
    .bind (literal_reads ")" _) fun _ _ => ?_
  refine .bind (blanks_reads _) fun _ _ => ?_
  rw [afterBlanks_space, hv]
  refine .bind hb fun b' hb' => .position fun stop => .pure_of ?_ r
  rw [moved_sigmas, hbinders, hb']
  rfl

theorem sigma_refuses (h : word s ≠ "exists".toList) : Refuses (sigma places) s :=
  .position fun _ => .bind (keyword_refuses h (by simp [reserved]))

end Pairs

section Atoms
variable {form : Form}

theorem spanned_reads {p : Parser Form} (h : Reads p s r form) :
    Reads (spanned p) s r (bare form) := by
  refine .position fun start => .bind h fun form' hform => .position fun stop => .pure_of ?_ r
  rw [moved_expr, hform]
  rfl

theorem spanned_refuses {p : Parser Form} (h : Refuses p s) : Refuses (spanned p) s :=
  .position fun _ => .bind h

theorem parenthesized_reads (hu : afterBlanks u = u) (h : Reads exprAt u (')' :: r) e) :
    Reads (parenthesized places) ('(' :: u) r e := by
  refine .bind (literal_reads "(" u) fun _ _ => .bind (blanks_reads u) fun _ _ => ?_
  rw [hu]
  refine .bind h fun e' he => .bind (blanks_reads (')' :: r)) fun _ _ => ?_
  exact .bind (literal_reads ")" r) fun _ _ => .pure_of he r

theorem parenthesized_refuses (hu : afterBlanks u = u) (h : Refuses exprAt u) :
    Refuses (parenthesized places) ('(' :: u) := by
  refine .after (literal_reads "(" u) fun _ _ => .after (blanks_reads u) fun _ _ => ?_
  rw [hu]
  exact .bind h

/-- More than an expression in parentheses is refused. -/
theorem parenthesized_refuses_of_rest (hu : afterBlanks u = u) (h : Reads exprAt u r e)
    (hr : (afterBlanks r).head? ≠ some ')') :
    Refuses (parenthesized places) ('(' :: u) := by
  refine .after (literal_reads "(" u) fun _ _ => .after (blanks_reads u) fun _ _ => ?_
  rw [hu]
  exact .after h fun _ _ => .after (blanks_reads r) fun _ _ => .bind (mark_refuses hr rfl)

theorem call1_reads {text : String} {f : Expr → Form} (h : Reads exprAt u (')' :: r) a)
    (hu : afterBlanks u = u) (hf : ∀ a, moved nowhere (f a) = f (moved nowhere a)) :
    Reads (call1 places text f) (text.toList ++ '(' :: u) r (f a) := by
  have hfirst : Reads (after "(" exprAt) ('(' :: u) (')' :: r) a := after_reads (r := u) rfl hu h
  refine .bind (literal_reads text _) fun _ _ => .bind hfirst fun a' ha =>
    .bind (blanks_reads _) fun _ _ => ?_
  refine .bind (literal_reads ")" r) fun _ _ => .pure_of ?_ r
  rw [hf, ha]

theorem call2_reads {text : String} {f : Expr → Expr → Form}
    (h : Reads exprAt u (',' :: ' ' :: v) a) (hu : afterBlanks u = u)
    (h' : Reads exprAt v (')' :: r) b) (hv : afterBlanks v = v)
    (hf : ∀ a b, moved nowhere (f a b) = f (moved nowhere a) (moved nowhere b)) :
    Reads (call2 places text f) (text.toList ++ '(' :: u) r (f a b) := by
  have hfirst : Reads (after "(" exprAt) ('(' :: u) (',' :: ' ' :: v) a :=
    after_reads (r := u) rfl hu h
  have hsecond : Reads (after "," exprAt) (',' :: ' ' :: v) (')' :: r) b :=
    after_reads_space (r := v) rfl hv h'
  refine .bind (literal_reads text _) fun _ _ => .bind hfirst fun a' ha =>
    .bind hsecond fun b' hb => ?_
  refine .bind (blanks_reads _) fun _ _ => .bind (literal_reads ")" r) fun _ _ => .pure_of ?_ r
  rw [hf, ha, hb]

theorem call3_reads {text : String} {f : Expr → Expr → Expr → Form} {w : List Char} {c : Expr}
    (h : Reads exprAt u (',' :: ' ' :: v) a) (hu : afterBlanks u = u)
    (h' : Reads exprAt v (',' :: ' ' :: w) b) (hv : afterBlanks v = v)
    (h'' : Reads exprAt w (')' :: r) c) (hw : afterBlanks w = w)
    (hf : ∀ a b c, moved nowhere (f a b c) = f (moved nowhere a) (moved nowhere b)
      (moved nowhere c)) :
    Reads (call3 places text f) (text.toList ++ '(' :: u) r (f a b c) := by
  have hfirst : Reads (after "(" exprAt) ('(' :: u) (',' :: ' ' :: v) a :=
    after_reads (r := u) rfl hu h
  have hsecond : Reads (after "," exprAt) (',' :: ' ' :: v) (',' :: ' ' :: w) b :=
    after_reads_space (r := v) rfl hv h'
  have hthird : Reads (after "," exprAt) (',' :: ' ' :: w) (')' :: r) c :=
    after_reads_space (r := w) rfl hw h''
  refine .bind (literal_reads text _) fun _ _ => .bind hfirst fun a' ha =>
    .bind hsecond fun b' hb => .bind hthird fun c' hc => ?_
  refine .bind (blanks_reads _) fun _ _ => .bind (literal_reads ")" r) fun _ _ => .pure_of ?_ r
  rw [hf, ha, hb, hc]

theorem after_paren_refuses {α : Type} {p : Parser α} (c : Char) (s : List Char)
    (hc : isWordChar c) :
    Refuses (after "(" p) (c :: s) := by
  obtain ⟨hblank, hslash, hparen⟩ := not_isBlank_of_isWordChar hc
  refine after_refuses (fun heq => hparen ?_) rfl
  rw [afterBlanks_cons hblank hslash] at heq
  exact Option.some.inj heq

section
variable {α : Type} {p : Parser Expr} {k : Expr → Parser α} {text other : String}

/-- A longer word is no call. -/
theorem call_refuses (h : word s ≠ text.toList) (htext : text ∈ words) :
    Refuses (do literal text; let a ← after "(" p; k a) s :=
  word_refuses (fun c s hc => .bind (after_paren_refuses c s hc)) h htext

theorem constant_reads (text : String) (h : word r = []) (hform : moved nowhere form = form) :
    Reads (constant text form) (text.toList ++ r) r form := .bind (keyword_reads text h) fun _ _ =>
  .pure_of hform r

theorem constant_refuses (h : word s ≠ text.toList) (htext : text ∈ words) :
    Refuses (constant text form) s :=
  .bind (keyword_refuses h htext)

theorem word_ne (hw : word s = text.toList) (hne : text ≠ other) : word s ≠ other.toList :=
  fun heq => hne (String.toList_inj.1 (hw.symm.trans heq))

/-- A word is none of the other words. -/
theorem other_keyword_refuses (hw : word s = text.toList) (hother : other ∈ words ∧ text ≠ other) :
    Refuses (keyword other) s :=
  keyword_refuses (word_ne hw hother.2) hother.1

theorem other_call_refuses (hw : word s = text.toList) (hother : other ∈ words ∧ text ≠ other) :
    Refuses (do literal other; let a ← after "(" p; k a) s :=
  call_refuses (word_ne hw hother.2) hother.1

end

theorem quote_refuses (h : s.head? ≠ some '"') : Refuses quote s := .bind (mark_refuses h rfl)

theorem fields_refuses (h : s.head? ≠ some '\x7b') : Refuses (fields places) s :=
  .bind (mark_refuses h rfl)

theorem block_refuses (h : s.head? ≠ some '\x7b') : Refuses (block places) s :=
  .position fun _ => .bind (mark_refuses h rfl)

def constants : List String := ["Type", "String", "Trivial", "sole"]

def calls : List String := ["cons", "car", "cdr", "Equal", "same"]

theorem formWords_spec :
    ∀ text ∈ constants ++ calls, text ∈ words ∧ text ∉ ["exists", "class", "new"] := by decide

theorem calls_spec : ∀ text ∈ calls, text ∈ words ∧ text ∉ constants := by decide

def binderWords : List String := ["exists", "implicit", "_"]

def atomWords : List String := "class" :: "new" :: "the" :: (constants ++ calls)

theorem binderWords_spec : ∀ text ∈ binderWords, text ∈ words ∧ isIdentifier text.toList = false ∧
      text ∉ atomWords := by decide

theorem atomWords_spec : ∀ text ∈ atomWords, text ∈ words ∧ [] ≠ text.toList := by decide

structure NoAtom (s : List Char) : Prop where
  noWord : ∀ text ∈ atomWords, word s ≠ text.toList
  name : isIdentifier (word s) = false
  quote : s.head? ≠ some '"'
  brace : s.head? ≠ some '\x7b'

theorem NoAtom.of_paren (s : List Char) : NoAtom ('(' :: s) :=
  ⟨fun text htext => (atomWords_spec text htext).2, rfl, by simp, by simp⟩

theorem NoAtom.of_word {text : String} (h : word s = text.toList)
    (htext : text ∈ binderWords) : NoAtom s := by
  obtain ⟨hword, hname, hatom⟩ := binderWords_spec text htext
  have hne : word s ≠ [] := h ▸ (words_spec text hword).2
  refine ⟨fun other hother heq => hatom ?_, h ▸ hname, head_ne_of_word hne rfl,
    head_ne_of_word hne rfl⟩
  rwa [String.toList_inj.1 (h.symm.trans heq)]

theorem simple_refuses (h : NoAtom s) : Refuses (simple places) s := by
  have hconstant (text : String) (htext : text ∈ constants) (form : Form) :
      Refuses (constant text form) s := by
    have hmem : text ∈ atomWords := by simp [atomWords, htext]
    exact constant_refuses (h.noWord text hmem) (atomWords_spec text hmem).1
  have hcall (text : String) (htext : text ∈ "the" :: calls) (k : Expr → Parser Form) :
      Refuses (do literal text; let a ← after "(" exprAt; k a) s := by
    have hmem : text ∈ atomWords := by
      rcases List.mem_cons.1 htext with rfl | htext <;> simp [atomWords, *]
    exact call_refuses (h.noWord text hmem) (atomWords_spec text hmem).1
  exact .orElse (hconstant "Type" (by simp [constants]) _) <|
    .orElse (hconstant "String" (by simp [constants]) _) <|
    .orElse (hconstant "Trivial" (by simp [constants]) _) <|
      .orElse (hconstant "sole" (by simp [constants]) _) <|
    .orElse (.bind (quote_refuses h.quote)) <| .orElse (.bind (fields_refuses h.brace)) <|
    .orElse (hcall "cons" (by simp [calls]) _) <| .orElse (hcall "car" (by simp [calls]) _) <|
    .orElse (hcall "cdr" (by simp [calls]) _) <| .orElse (hcall "Equal" (by simp [calls]) _) <|
    .orElse (hcall "same" (by simp [calls]) _) <| .orElse (hcall "the" (by simp [calls]) _) <|
    .bind (identifier_refuses h.name)

theorem atom_refuses (h : NoAtom s) (hparen : Refuses (parenthesized places) s) :
    Refuses (atom places) s := by
  have hkeyword (text : String) (htext : text ∈ atomWords) :=
    keyword_refuses (h.noWord text htext) (atomWords_spec text htext).1
  exact .orElse hparen <|
    .orElse (.position fun _ => .bind (hkeyword "class" (by simp [atomWords]))) <|
    .orElse (block_refuses h.brace) <|
      .orElse (spanned_refuses (.bind (hkeyword "new" (by simp [atomWords])))) <|
    spanned_refuses (simple_refuses h)

theorem simple_reads_type (hr : word r = []) : Reads (simple places) ("Type".toList ++ r) r .type :=
  .orElse_left (constant_reads "Type" hr rfl)

theorem simple_reads_string (hr : word r = []) :
    Reads (simple places) ("String".toList ++ r) r .string := by
  have hword : word ("String".toList ++ r) = "String".toList := word_text hr (by simp [reserved])
  refine .orElse_right (.bind (other_keyword_refuses hword (by simp [reserved]))) ?_
  exact .orElse_left (constant_reads "String" hr rfl)

theorem simple_reads_trivial (hr : word r = []) :
    Reads (simple places) ("Trivial".toList ++ r) r .trivial := by
  have hword : word ("Trivial".toList ++ r) = "Trivial".toList := word_text hr (by simp [reserved])
  refine .orElse_right (.bind (other_keyword_refuses hword (by simp [reserved]))) ?_
  refine .orElse_right (.bind (other_keyword_refuses hword (by simp [reserved]))) ?_
  exact .orElse_left (constant_reads "Trivial" hr rfl)

theorem simple_reads_sole (hr : word r = []) :
    Reads (simple places) ("sole".toList ++ r) r .sole := by
  have hword : word ("sole".toList ++ r) = "sole".toList := word_text hr (by simp [reserved])
  refine .orElse_right (.bind (other_keyword_refuses hword (by simp [reserved]))) ?_
  refine .orElse_right (.bind (other_keyword_refuses hword (by simp [reserved]))) ?_
  refine .orElse_right (.bind (other_keyword_refuses hword (by simp [reserved]))) ?_
  exact .orElse_left (constant_reads "sole" hr rfl)

def worded : Parser Form :=
  call2 places "cons" .cons <|> call1 places "car" .car <|> call1 places "cdr" .cdr <|> call3 places
    "Equal" .equal <|>
    call1 places "same" .same <|> call2 places "the" .the <|> (do let x ← identifier; pure (.var x))

theorem simple_reads_other (hother : ∀ text ∈ constants, word s ≠ text.toList)
    (h : Reads ((do let text ← quote; pure (.quote text)) <|>
      (do let fs ← fields places; pure (.object fs)) <|> worded) s r form) :
    Reads (simple places) s r form := by
  have hconstant (text : String) (htext : text ∈ constants) (form : Form) :
      Refuses (constant text form) s :=
    constant_refuses (hother text htext) (formWords_spec text (List.mem_append_left _ htext)).1
  exact .orElse_right (hconstant "Type" (by simp [constants]) _) <|
    .orElse_right (hconstant "String" (by simp [constants]) _) <|
    .orElse_right (hconstant "Trivial" (by simp [constants]) _) <|
      .orElse_right (hconstant "sole" (by simp [constants]) _) h

theorem simple_reads_word (hother : ∀ text ∈ constants, word s ≠ text.toList) (hne : word s ≠ [])
    (h : Reads worded s r form) :
    Reads (simple places) s r form := by
  refine simple_reads_other hother <|
    .orElse_right (.bind (quote_refuses (head_ne_of_word hne rfl))) <|
    .orElse_right (.bind (fields_refuses (head_ne_of_word hne rfl))) h

theorem simple_reads_call {text : String} (hw : word s = text.toList) (htext : text ∈ calls)
    (h : Reads worded s r form) :
    Reads (simple places) s r form := by
  obtain ⟨hword, hother⟩ := calls_spec text htext
  refine simple_reads_word (fun other hmem heq => hother ?_) (hw ▸ (words_spec text hword).2) h
  rwa [String.toList_inj.1 (hw.symm.trans heq)]

theorem simple_reads_cons (h : Reads exprAt u (',' :: ' ' :: v) a) (hu : afterBlanks u = u)
    (h' : Reads exprAt v (')' :: r) b) (hv : afterBlanks v = v) :
    Reads (simple places) ("cons".toList ++ '(' :: u) r (.cons a b) := by
  have hword : word ("cons".toList ++ '(' :: u) = "cons".toList :=
    word_text rfl (by simp [reserved])
  refine simple_reads_call hword (by simp [calls]) <| .orElse_left ?_
  exact call2_reads h hu h' hv fun _ _ => rfl

theorem simple_reads_car (h : Reads exprAt u (')' :: r) a) (hu : afterBlanks u = u) :
    Reads (simple places) ("car".toList ++ '(' :: u) r (.car a) := by
  have hword : word ("car".toList ++ '(' :: u) = "car".toList := word_text rfl (by simp [reserved])
  refine simple_reads_call hword (by simp [calls]) <|
    .orElse_right (other_call_refuses hword (by simp [reserved])) <| .orElse_left ?_
  exact call1_reads h hu fun _ => rfl

theorem simple_reads_cdr (h : Reads exprAt u (')' :: r) a) (hu : afterBlanks u = u) :
    Reads (simple places) ("cdr".toList ++ '(' :: u) r (.cdr a) := by
  have hword : word ("cdr".toList ++ '(' :: u) = "cdr".toList := word_text rfl (by simp [reserved])
  refine simple_reads_call hword (by simp [calls]) <|
    .orElse_right (other_call_refuses hword (by simp [reserved])) <|
    .orElse_right (other_call_refuses hword (by simp [reserved])) <| .orElse_left ?_
  exact call1_reads h hu fun _ => rfl

theorem simple_reads_equal {w : List Char} {c : Expr} (h : Reads exprAt u (',' :: ' ' :: v) a)
    (hu : afterBlanks u = u) (h' : Reads exprAt v (',' :: ' ' :: w) b) (hv : afterBlanks v = v)
    (h'' : Reads exprAt w (')' :: r) c) (hw : afterBlanks w = w) :
    Reads (simple places) ("Equal".toList ++ '(' :: u) r (.equal a b c) := by
  have hword : word ("Equal".toList ++ '(' :: u) = "Equal".toList :=
    word_text rfl (by simp [reserved])
  refine simple_reads_call hword (by simp [calls]) <|
    .orElse_right (other_call_refuses hword (by simp [reserved])) <|
    .orElse_right (other_call_refuses hword (by simp [reserved])) <|
    .orElse_right (other_call_refuses hword (by simp [reserved])) <| .orElse_left ?_
  exact call3_reads h hu h' hv h'' hw fun _ _ _ => rfl

theorem simple_reads_same (h : Reads exprAt u (')' :: r) a) (hu : afterBlanks u = u) :
    Reads (simple places) ("same".toList ++ '(' :: u) r (.same a) := by
  have hword : word ("same".toList ++ '(' :: u) = "same".toList :=
    word_text rfl (by simp [reserved])
  refine simple_reads_call hword (by simp [calls]) <|
    .orElse_right (other_call_refuses hword (by simp [reserved])) <|
    .orElse_right (other_call_refuses hword (by simp [reserved])) <|
    .orElse_right (other_call_refuses hword (by simp [reserved])) <|
    .orElse_right (other_call_refuses hword (by simp [reserved])) <| .orElse_left ?_
  exact call1_reads h hu fun _ => rfl

/-- An identifier is none of the words of the language, and so is read as a variable. -/
theorem simple_reads_var (hx : x.Written) (hr : word r = []) :
    Reads (simple places) (x.text.toList ++ r) r (.var x) := by
  have hword := hx.word_eq hr
  have hne (text : String) (htext : text ∈ reserved) : word (x.text.toList ++ r) ≠ text.toList := by
    rw [hword]
    exact ne_of_isIdentifier hx.2.2 htext
  have hcall (text : String) (htext : text ∈ reserved) (k : Expr → Parser Form) :
      Refuses (do literal text; let a ← after "(" exprAt; k a) (x.text.toList ++ r) :=
    call_refuses (hne text htext) (List.mem_cons_of_mem _ htext)
  have hother : ∀ text ∈ constants, text ∈ reserved := by decide
  refine simple_reads_word (fun text htext => hne text (hother text htext)) (hword ▸ hx.ne_nil) ?_
  refine .orElse_right (hcall "cons" (by simp [reserved]) _) <|
    .orElse_right (hcall "car" (by simp [reserved]) _) <|
    .orElse_right (hcall "cdr" (by simp [reserved]) _) <|
      .orElse_right (hcall "Equal" (by simp [reserved]) _) <|
    .orElse_right (hcall "same" (by simp [reserved]) _) <|
      .orElse_right (hcall "the" (by simp [reserved]) _) ?_
  exact .bind (hx.identifier_reads hr) fun x' hx' => .pure_of (congrArg Form.var hx') r

theorem ne_of_word_nil (h : word s = []) (text : String) (htext : text ∈ constants) :
    word s ≠ text.toList :=
  h ▸ (words_spec text (formWords_spec text (List.mem_append_left _ htext)).1).2.symm

theorem simple_reads_quote {text : String} (h : Expected.quotationMark ∉ text.toList)
    (r : List Char) :
    Reads (simple places) ('"' :: (text.toList ++ '"' :: r)) r (.quote text) := by
  refine simple_reads_other (ne_of_word_nil rfl) <| .orElse_left ?_
  exact .bind (quote_reads h r) fun text' htext => .pure_of (congrArg Form.quote htext) r

theorem simple_reads_object {fs : List (Name × Expr)}
    (h : Reads (fields places) ('\x7b' :: u) r fs) :
    Reads (simple places) ('\x7b' :: u) r (.object fs) := by
  refine simple_reads_other (ne_of_word_nil rfl) <|
    .orElse_right (.bind (quote_refuses (by simp))) <| .orElse_left ?_
  exact .bind h fun fs' hfs =>
    .pure_of ((moved_object nowhere fs').trans (congrArg Form.object hfs)) r

theorem atom_reads_simple (h : Reads (simple places) s r form) (hparen : s.head? ≠ some '(')
    (hblock : Refuses (block places) s) (hclass : word s ≠ "class".toList)
    (hnew : word s ≠ "new".toList) : Reads (atom places) s r (bare form) := by
  refine .orElse_right (.bind (mark_refuses hparen rfl)) <|
    .orElse_right (.position fun _ => .bind (keyword_refuses hclass (by simp [reserved]))) <|
    .orElse_right hblock <|
      .orElse_right (spanned_refuses (.bind (keyword_refuses hnew (by simp [reserved])))) ?_
  exact spanned_reads h

end Atoms

section Braces

/-- A text that `p` reads as `y` between commas or before a closing brace. -/
structure ReadsItem {α : Type} [Movable α] (p : Parser α) (item : String) (y : α) : Prop where
  blanks (r : List Char) : afterBlanks (item.toList ++ r) = item.toList ++ r
  comma (r : List Char) : Reads p (item.toList ++ ',' :: r) (',' :: r) y
  brace (r : List Char) : Reads p (item.toList ++ ' ' :: '\x7d' :: r) (' ' :: '\x7d' :: r) y

variable {α : Type} [Movable α] {p : Parser α} {items : List String} {item : String}
  {ys : List α} {y : α}

theorem ReadsItem.of_ends (hblanks : ∀ r, afterBlanks (item.toList ++ r) = item.toList ++ r)
    (h : ∀ r, EndsHere r → (afterBlanks r).head? ≠ some '=' → Reads p (item.toList ++ r) r y) :
    ReadsItem p item y := by
  refine ⟨hblanks, fun r => h _ (.comma r) ?_, fun r => h _ (.brace r) ?_⟩
  · exact fun heq => by cases heq
  · exact fun heq => by cases heq

theorem ReadsItem.reads (h : ReadsItem p item y) (items : List String) (r : List Char) :
    Reads p (item.toList ++ commasBefore items (' ' :: '\x7d' :: r))
      (commasBefore items (' ' :: '\x7d' :: r)) y := by
  cases items with
  | nil => exact h.brace r
  | cons => exact h.comma _

theorem commas_read (h : List.Forall₂ (ReadsItem p) items ys) (r : List Char) :
    ReadsAll (following p) (commasBefore items (' ' :: '\x7d' :: r)) (' ' :: '\x7d' :: r) ys := by
  induction h with
  | nil => exact .stop (following_refuses fun heq => by cases heq)
  | @cons item y items ys hitem _ ih =>
    refine .next (following_reads (hitem.reads items r) (hitem.blanks _)) ?_ ih
    simp only [commasBefore, List.length_cons, List.length_append]
    omega

/-- What is between braces is read as a list. -/
theorem braced_reads (h : List.Forall₂ (ReadsItem p) items ys) (hp : ∀ r, Refuses p ('\x7d' :: r))
    (r : List Char) :
    ∃ u, bracedBefore items r = '\x7b' :: u ∧
      Reads (commaList p) (afterBlanks u) ('\x7d' :: r) ys := by
  cases h with
  | nil => exact ⟨'\x7d' :: r, rfl, commaList_reads_nil (hp r) (fun heq => by cases heq) rfl⟩
  | @cons item y items ys hitem hitems =>
    refine ⟨_, bracedBefore_cons item items r, ?_⟩
    rw [afterBlanks_space, hitem.blanks]
    exact commaList_reads (hitem.reads items r) (commas_read hitems r) fun heq => by cases heq

end Braces

theorem typed_identifier_refuses (r : List Char) :
    Refuses (typed places identifier) ('\x7d' :: r) := .bind (identifier_refuses rfl)

theorem fields_reads {items : List String} {fs : List (Name × Expr)}
    (h : List.Forall₂ (ReadsItem (field places)) items fs) (r : List Char) :
    Reads (fields places) (bracedBefore items r) r fs := by
  obtain ⟨u, hu, hlist⟩ := braced_reads h typed_identifier_refuses r
  rw [hu]
  refine .bind (literal_reads "\x7b" u) fun _ _ => .bind (blanks_reads u) fun _ _ =>
    .bind hlist fun fs' hfs => ?_
  exact .bind (literal_reads "\x7d" r) fun _ _ => .pure_of hfs r

theorem classLiteral_reads {items : List String} {members : List Member}
    (h : List.Forall₂ (ReadsItem (member places)) items members)
    (hdistinct : Member.Distinct members) (r : List Char) :
    Reads (classLiteral places) ("class".toList ++ ' ' :: bracedBefore items r) r
      (bare (.classOf members)) := by
  have hrefuses (r : List Char) : Refuses (member places) ('\x7d' :: r) :=
    .orElse (.bind (typed_identifier_refuses r)) (.bind (identifier_refuses rfl))
  obtain ⟨u, hu, hlist⟩ := braced_reads h hrefuses r
  rw [hu]
  refine .position fun start => .bind (keyword_reads "class" rfl) fun _ _ =>
    .bind (blanks_reads _) fun _ _ => ?_
  refine .bind (literal_reads "\x7b" u) fun _ _ => .bind (blanks_reads u) fun _ _ =>
    .bind hlist fun members' hmembers => ?_
  refine .bind (literal_reads "\x7d" r) fun _ _ => .position fun stop => ?_
  rw [if_pos ((distinct_moved_iff nowhere members').1 (hmembers ▸ hdistinct))]
  refine .pure_of ?_ r
  rw [moved_expr, moved_classOf, hmembers]
  rfl

/-- An object is no block: what its first brace is followed by is no definition. -/
theorem block_refuses_of_word
    (h : ∀ text ∈ ["let", "check", "return"], word (afterBlanks u) ≠ text.toList) :
    Refuses (block places) ('\x7b' :: u) := by
  have hdefinition : Refuses (definition places) (afterBlanks u) :=
    .orElse (.bind (keyword_refuses (h "let" (by simp)) (by simp [reserved])))
      (.bind (keyword_refuses (h "check" (by simp)) (by simp [reserved])))
  have hnone : Reads (Parser.sepBy (definition places) blanks) (afterBlanks u) (afterBlanks u) [] :=
    .orElse_right (.bind hdefinition) (.pure [] _)
  refine .position fun start => .after (literal_reads "\x7b" u) fun _ _ =>
    .after (blanks_reads u) fun _ _ => ?_
  refine .after hnone fun _ _ => .after (blanks_reads _) fun _ _ => .bind ?_
  rw [afterBlanks_afterBlanks]
  exact keyword_refuses (h "return" (by simp)) (by simp [reserved])

/-- One definition, and what it is for. -/
theorem block_reads {w : List Char} {c : Expr} (hx : x.Written ∨ x = .anonymous)
    (h : Reads exprAt u (' ' :: '=' :: ' ' :: v) a) (hu : afterBlanks u = u)
    (h' : Reads exprAt v (' ' :: ("return".toList ++ ' ' :: w)) b) (hv : afterBlanks v = v)
    (h'' : Reads exprAt w (' ' :: '\x7d' :: r) c) (hw : afterBlanks w = w) :
    Reads (block places)
      ('\x7b' :: ' ' :: ("let".toList ++ ' ' :: (x.text.toList ++ ':' :: ' ' :: u))) r
      (bare (.letIn x (some a) b c)) := by
  have htype : Reads ( annotation places) (':' :: ' ' :: u) (' ' :: '=' :: ' ' :: v) (some a) :=
    .optional_some (after_reads_space (r := u) rfl hu h)
  have hvalue : Reads (after "=" exprAt) (' ' :: '=' :: ' ' :: v)
      (' ' :: ("return".toList ++ ' ' :: w)) b :=
    after_reads_space (r := v) rfl hv h'
  have hdefinition : Reads (definition places)
      ("let".toList ++ ' ' :: (x.text.toList ++ ':' :: ' ' :: u))
      (' ' :: ("return".toList ++ ' ' :: w)) (x, some a, b) := by
    refine .orElse_left
      (.bind (keyword_reads "let" rfl) fun _ _ => .bind (blanks_reads _) fun _ _ => ?_)
    rw [afterBlanks_space, Name.afterBlanks_text hx]
    refine .bind (Name.binder_reads hx rfl) fun x' hx' => .bind htype fun a' ha =>
      .bind hvalue fun b' hb => .pure_of ?_ _
    rw [moved_pair, moved_pair, hx', ha, hb]
  have hreturn : word ("return".toList ++ ' ' :: w) = "return".toList :=
    word_text rfl (by simp [reserved])
  have hmore : Refuses (do blanks; definition places) (' ' :: ("return".toList ++ ' ' :: w)) := by
    refine .after (blanks_reads _) fun _ _ => ?_
    rw [afterBlanks_space, afterBlanks_keyword _ (by simp [reserved])]
    exact .orElse (.bind (other_keyword_refuses hreturn (by simp [reserved])))
      (.bind (other_keyword_refuses hreturn (by simp [reserved])))
  have hdefinitions :=
    Reads.orElse_left (q := pure []) (Parser.ReadsAll.sepBy1 hdefinition (.stop hmore))
  refine .position fun start =>
    .bind (literal_reads "\x7b"
      (' ' :: ("let".toList ++ ' ' :: (x.text.toList ++ ':' :: ' ' :: u))))
    fun _ _ => .bind (blanks_reads _) fun _ _ => ?_
  rw [afterBlanks_space, afterBlanks_keyword _ (by simp [reserved])]
  refine .bind hdefinitions fun definitions hdefs => .bind (blanks_reads _) fun _ _ => ?_
  rw [afterBlanks_space, afterBlanks_keyword _ (by simp [reserved])]
  refine .bind (keyword_reads "return" rfl) fun _ _ => .bind (blanks_reads _) fun _ _ => ?_
  rw [afterBlanks_space, hw]
  refine .bind h'' fun c' hc => .bind (blanks_reads _) fun _ _ =>
    .bind (literal_reads "\x7d" r) fun _ _ => ?_
  refine .position fun stop => .pure_of ?_ r
  rw [moved_lets, hdefs, hc]
  rfl

section Spines

def Suffixed (before after : List Char × Expr) : Prop :=
  after.1.length < before.1.length ∧
    ∀ start target, moved nowhere target = before.2 →
    Reads (suffix places start target) before.1 after.1 after.2

def Spine (s r : List Char) (e : Expr) : Prop :=
  ∃ first, Reads (atom places) s first.1 first.2 ∧ Relation.ReflTransGen Suffixed first (r, e)

theorem suffix_refuses (hcall : r.head? ≠ some '(') (hdot : r.head? ≠ some '.') (start : Nat)
    (target : Expr) :
    Refuses (suffix places start target) r :=
  .orElse (.bind (mark_refuses hcall rfl)) (.bind (mark_refuses hdot rfl))

theorem suffixes_reads {first last : List Char × Expr}
    (h : Relation.ReflTransGen Suffixed first last)
    (hend : ∀ start target, Refuses (suffix places start target) last.1) {n : Nat}
    (hn : first.1.length < n) (start : Nat) {target : Expr}
    (htarget : moved nowhere target = first.2) :
    Reads (suffixes places start n target) first.1 last.1 last.2 := by
  induction h using Relation.ReflTransGen.head_induction_on generalizing n target with
  | refl =>
    obtain _ | n := n
    · exact absurd hn (Nat.not_lt_zero _)
    · exact .orElse_right (.bind (hend start target)) (.pure_of htarget _)
  | head hstep _ ih =>
    obtain _ | n := n
    · exact absurd hn (Nat.not_lt_zero _)
    · obtain ⟨hlt, hsuffix⟩ := hstep
      exact .orElse_left (.bind (hsuffix start target htarget) fun e he => ih (by omega) he)

theorem spineAt_reads (h : Spine s r e) (hcall : r.head? ≠ some '(') (hdot : r.head? ≠ some '.') :
    Reads spineAt s r e := by
  obtain ⟨first, hatom, hsuffixes⟩ := h
  refine .position fun start => .bind hatom fun target htarget => fun o => ?_
  exact suffixes_reads hsuffixes (suffix_refuses hcall hdot) (Nat.lt_succ_self _) start htarget o

theorem spineAt_refuses (h : Refuses (atom places) s) : Refuses spineAt s :=
  .position fun _ => .bind h

theorem Spine.of_atom (h : Reads (atom places) s r e) : Spine s r e := ⟨(r, e), h, .refl⟩

theorem Spine.suffix {r' : List Char} {e' : Expr} (h : Spine s r e)
    (hsuffix : Suffixed (r, e) (r', e')) : Spine s r' e' := by
  obtain ⟨first, hatom, hsuffixes⟩ := h
  exact ⟨first, hatom, hsuffixes.tail hsuffix⟩

theorem argument_reads_explicit (hu : OpensExpression stops u) (h : Reads exprAt u r a) :
    Reads (argument places) u r (.explicit, a) := by
  refine .orElse_right (.bind (implicitly_refuses hu.implicit)) (.bind h fun a' ha => .pure_of ?_ r)
  rw [moved_pair, ha]
  rfl

theorem argument_reads_implicit (hu : afterBlanks u = u) (h : Reads exprAt u r a) :
    Reads (argument places) ("implicit".toList ++ ' ' :: u) r (.implicit, a) := by
  refine .orElse_left (.bind (implicitly_reads hu h) fun a' ha => .pure_of ?_ r)
  rw [moved_pair, ha]
  rfl

theorem suffixed_call {p : Plicity} (h : Reads (argument places) u (')' :: r) (p, a))
    (hu : afterBlanks u = u) (hlt : r.length < u.length) (e : Expr) :
    Suffixed ('(' :: u, e) (r, bare (.app p e a)) := by
  refine ⟨Nat.lt_succ_of_lt hlt, fun start target htarget => .orElse_left ?_⟩
  refine .bind (literal_reads "(" u) fun _ _ => .bind (blanks_reads u) fun _ _ => ?_
  rw [hu]
  refine .bind (commaList_reads_one h) fun args hargs => .bind (literal_reads ")" r) fun _ _ =>
    .position fun stop => .pure_of ?_ r
  rw [moved_apps, htarget, hargs]
  rfl

theorem suffixed_dot (hx : x.Written) (hr : word r = []) (e : Expr) :
    Suffixed ('.' :: (x.text.toList ++ r), e) (r, bare (.dot e x)) := by
  refine ⟨?_, fun start target htarget =>
    .orElse_right (.bind (mark_refuses (c := '(') (by simp) rfl)) ?_⟩
  · simp only [List.length_cons, List.length_append]
    omega
  · refine .bind (literal_reads "." _) fun _ _ => .bind (hx.identifier_reads hr) fun x' hx' =>
      .position fun stop => .pure_of ?_ r
    subst htarget
    cases hx'
    rfl

end Spines

end Grammar

end DependentClasses
