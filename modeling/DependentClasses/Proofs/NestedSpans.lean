import DependentClasses.Proofs.Places
import DependentClasses.Proofs.Readings
import DependentClasses.Proofs.Subexpressions
import DependentClasses.Proofs.TextPlaces

/-! The spans of expressions that are read from a source. Each reader covers what it returns: the
text that it uses up has the expressions in it. An expression gets the text that it was read from as
its span, or a span around its parts, and so the span of an expression is around those of its
parts. -/
namespace DependentClasses

open Lexeme

/-- A place of the source. -/
def Cursor.In (source : String) (c : Cursor) : Prop := Leads ⟨0, source.toList⟩ c

/-- Readers stop only between two characters. -/
theorem Cursor.In.isValid {source : String} {c : Cursor} (h : c.In source) :
    String.Pos.Raw.IsValid source ⟨c.offset⟩ := by
  obtain ⟨n, rfl⟩ := h
  refine Text.isValid_iff.2 ⟨source.toList.take n, source.toList.drop n,
    (List.take_append_drop n _).symm, ?_⟩
  rw [offset_skip, Nat.zero_add]

namespace Expr

/-- The expression spans some text of the source, which neither starts nor stops within a character,
and its parts lie in that text. -/
structure WellPlaced (source : String) (e : Expr) : Prop where
  lt : e.span.start < e.span.stop
  le : e.span.stop ≤ source.utf8ByteSize
  start : String.Pos.Raw.IsValid source ⟨e.span.start⟩
  stop : String.Pos.Raw.IsValid source ⟨e.span.stop⟩
  parts : ∀ part ∈ e.parts, e.span.start ≤ part.span.start ∧ part.span.stop ≤ e.span.stop

def Nested (source : String) (e : Expr) : Prop := ∀ sub : Expr, sub.Within e → sub.WellPlaced source

theorem WellPlaced.nested {source : String} {e : Expr} (h : e.WellPlaced source)
    (hparts : ∀ part ∈ e.parts, part.Nested source) :
    e.Nested source := by
  intro sub hsub
  obtain rfl | ⟨part, hpart, hsub⟩ := hsub.eq_or_part
  · exact h
  · exact hparts part hpart sub hsub

end Expr

/-- A text of the source from `lo` up to `hi`, of at least `n` bytes, has the expressions `es` in
it. -/
structure Lies (source : String) (lo n : Nat) (es : List Expr) (hi : Nat) : Prop where
  le : lo + n ≤ hi
  inside : ∀ e ∈ es, lo ≤ e.span.start ∧ e.span.stop ≤ hi ∧ e.Nested source

namespace Lies

variable {source : String} {lo lo' n m hi hi' : Nat} {es es' : List Expr}

theorem mono (h : Lies source lo n es hi) (hm : m ≤ n) (hes : es' ⊆ es) : Lies source lo m es' hi :=
  ⟨by have := h.le; omega, fun e he => h.inside e (hes he)⟩

theorem earlier (h : Lies source lo n es hi) (hlo : lo' ≤ lo) : Lies source lo' n es hi := by
  refine ⟨by have := h.le; omega, fun e he => ?_⟩
  obtain ⟨hstart, hstop, hnested⟩ := h.inside e he
  exact ⟨Nat.le_trans hlo hstart, hstop, hnested⟩

/-- One text after the other. -/
theorem append (h : Lies source lo n es hi) (h' : Lies source hi m es' hi') :
    Lies source lo (n + m) (es' ++ es) hi' := by
  have hle := h.le
  have hle' := h'.le
  refine ⟨by omega, fun e he => ?_⟩
  obtain he | he := List.mem_append.1 he
  · obtain ⟨hstart, hstop, hnested⟩ := h'.inside e he
    exact ⟨by omega, hstop, hnested⟩
  · obtain ⟨hstart, hstop, hnested⟩ := h.inside e he
    exact ⟨hstart, by omega, hnested⟩

theorem both (h : Lies source lo n es hi) (h' : Lies source lo n es' hi) :
    Lies source lo n (es ++ es') hi :=
  ⟨h.le, fun e he => (List.mem_append.1 he).elim (h.inside e) (h'.inside e)⟩

theorem empty (lo : Nat) : Lies source lo 0 [] lo := ⟨Nat.le_refl lo, by simp⟩

/-- A form whose parts lie in a text makes an expression of the text. -/
theorem node (hlo : String.Pos.Raw.IsValid source ⟨lo⟩)
    (hhi : String.Pos.Raw.IsValid source ⟨hi⟩) (form : Form) (h : Lies source lo 1 form.parts hi) :
    Lies source lo 1 [⟨⟨lo, hi⟩, form⟩] hi := by
  have hplaced : Expr.WellPlaced source ⟨⟨lo, hi⟩, form⟩ :=
    ⟨h.le, hhi.le_utf8ByteSize, hlo, hhi,
      fun part hpart => ⟨(h.inside part hpart).1, (h.inside part hpart).2.1⟩⟩
  refine ⟨h.le, fun e he => ?_⟩
  obtain rfl := List.mem_singleton.1 he
  exact ⟨Nat.le_refl lo, Nat.le_refl hi, hplaced.nested fun part hpart => (h.inside part hpart).2.2⟩

end Lies

/-- Data that expressions are kept in while they are read. -/
class Holding (α : Type) where
  exprs : α → List Expr

export Holding (exprs)

instance : Holding Nat := ⟨fun _ => []⟩
instance : Holding Unit := ⟨fun _ => []⟩
instance : Holding String := ⟨fun _ => []⟩
instance : Holding Name := ⟨fun _ => []⟩
instance : Holding Plicity := ⟨fun _ => []⟩
instance : Holding Expr := ⟨fun e => [e]⟩
instance : Holding Form := ⟨Form.parts⟩
instance : Holding Member := ⟨Member.parts⟩
instance : Holding Equation := ⟨Equation.parts⟩
instance : Holding Statement := ⟨Statement.parts⟩

section
variable {α β : Type} [Holding α] [Holding β]

instance : Holding (Option α) := ⟨fun a => a.toList.flatMap exprs⟩
instance : Holding (List α) := ⟨fun as => as.flatMap exprs⟩
instance : Holding (α × β) := ⟨fun p => exprs p.1 ++ exprs p.2⟩

end

namespace Lies

variable {source : String} {lo hi : Nat}

section
variable (hlo : String.Pos.Raw.IsValid source ⟨lo⟩) (hhi : String.Pos.Raw.IsValid source ⟨hi⟩)
include hlo hhi

/-- Nested forms that stand for one written form, each of which spans the whole of it. -/
theorem folded {α : Type} [Holding α] (form : α → Expr → Form)
    (hform : ∀ b e, (form b e).parts ⊆ exprs b ++ [e]) {bs : List α} {body : Expr}
    (h : Lies source lo 1 (body :: exprs bs) hi) :
    Lies source lo 1 [bs.foldr (fun b rest => ⟨⟨lo, hi⟩, form b rest⟩) body] hi := by
  induction bs with
  | nil => exact h.mono (Nat.le_refl 1) (by simp)
  | cons b bs ih =>
    have hrest := ih (h.mono (Nat.le_refl 1) (by simp [exprs]))
    have hbinder : Lies source lo 1 (exprs b) hi := h.mono (Nat.le_refl 1) (by simp [exprs])
    exact node hlo hhi _ ((hbinder.both hrest).mono (Nat.le_refl 1) (hform b _))

theorem pis {binders : List (Plicity × Name × Expr)} {codomain : Expr}
    (h : Lies source lo 1 (codomain :: exprs binders) hi) :
    Lies source lo 1 [Expr.pis ⟨lo, hi⟩ binders codomain] hi :=
  folded hlo hhi (fun (b : Plicity × Name × Expr) e => .pi b.1 b.2.1 b.2.2 e)
    (by simp [exprs, Form.parts]) h

theorem sigmas {binders : List (Name × Expr)} {cdrType : Expr}
    (h : Lies source lo 1 (cdrType :: exprs binders) hi) :
    Lies source lo 1 [Expr.sigmas ⟨lo, hi⟩ binders cdrType] hi :=
  folded hlo hhi (fun (b : Name × Expr) e => .sigma b.1 b.2 e) (by simp [exprs, Form.parts]) h

theorem fns {binders : List (Plicity × Name × Option Expr)} {body : Expr}
    (h : Lies source lo 1 (body :: exprs binders) hi) :
    Lies source lo 1 [Expr.fns ⟨lo, hi⟩ binders body] hi :=
  folded hlo hhi (fun (b : Plicity × Name × Option Expr) e => .fn b.1 b.2.1 b.2.2 e)
    (by simp [exprs, Form.parts]) h

theorem lets {definitions : List (Name × Option Expr × Expr)} {body : Expr}
    (h : Lies source lo 1 (body :: exprs definitions) hi) :
    Lies source lo 1 [Expr.lets ⟨lo, hi⟩ definitions body] hi :=
  folded hlo hhi (fun (b : Name × Option Expr × Expr) e => .letIn b.1 b.2.1 b.2.2 e)
    (by simp [exprs, Form.parts]) h

/-- The type before the arrow and the body after it get a span of their own, around both. -/
theorem typedFns {binders : List (Plicity × Name × Option Expr)} {type body : Expr}
    (h : Lies source lo 1 (body :: type :: exprs binders) hi)
    (hafter : type.span.stop ≤ body.span.start) :
    Lies source lo 1 [Expr.typedFns ⟨lo, hi⟩ binders type body] hi := by
  obtain ⟨htypeStart, -, htype⟩ := h.inside type (by simp)
  obtain ⟨-, hbodyStop, hbody⟩ := h.inside body (by simp)
  have htypeSpans := htype type (.refl type)
  have hbodySpans := hbody body (.refl body)
  have hlt := htypeSpans.lt
  have hlt' := hbodySpans.lt
  have hthe : Expr.WellPlaced source ⟨⟨type.span.start, body.span.stop⟩, .the type body⟩ := by
    refine ⟨by dsimp only; omega, hbodySpans.le, htypeSpans.start, hbodySpans.stop, ?_⟩
    simp only [Expr.parts, Form.parts, List.forall_mem_cons, List.not_mem_nil, false_implies,
      implies_true, and_true]
    omega
  have hnested : Expr.Nested source ⟨⟨type.span.start, body.span.stop⟩, .the type body⟩ :=
    hthe.nested (by simp [Expr.parts, Form.parts, htype, hbody])
  refine fns hlo hhi
    ⟨h.le, List.forall_mem_cons.2 ⟨⟨htypeStart, hbodyStop, hnested⟩, fun e he => ?_⟩⟩
  exact h.inside e (by simp [he])

theorem apps {args : List (Plicity × Expr)} {target : Expr}
    (h : Lies source lo 1 (exprs args ++ [target]) hi) :
    Lies source lo 1 [Expr.apps ⟨lo, hi⟩ target args] hi := by
  induction args generalizing target with
  | nil => exact h
  | cons a args ih =>
    refine ih (both (h.mono (Nat.le_refl 1) (by simp [exprs]))
      (node hlo hhi (.app a.1 target a.2) ?_))
    exact h.mono (Nat.le_refl 1) (by simp [exprs, Form.parts])

end

end Lies

namespace Parser

variable {α β : Type} [Holding α] [Holding β] {source : String} {lo n v w : Nat} {es : List Expr}
  {p q : Parser α}

/-- After a text with the expressions `es` in it, `p` goes on to a text that has in it those that it
returns. -/
def Continues (source : String) (lo n : Nat) (es : List Expr) (w : Nat) (p : Parser α) : Prop :=
  ∀ c, c.In source → Lies source lo n es c.offset →
    ∀ a c', (p c).result = some (a, c') → c'.In source ∧ Lies source lo w (exprs a) c'.offset

/-- `p` uses up at least `w` bytes, in which the expressions lie that it returns. -/
def Covers (source : String) (w : Nat) (p : Parser α) : Prop := ∀ lo, Continues source lo 0 [] w p

namespace Continues

theorem pure {a : α} (hw : w ≤ n) (hes : exprs a ⊆ es) :
    Continues source lo n es w (Pure.pure a) := by
  rintro c hc h b c' hb
  cases hb
  exact ⟨hc, h.mono hw hes⟩

/-- What is read next lies after what was read before. -/
theorem bind_after {k : α → Parser β} (h : Covers source v p)
    (hk : ∀ a, (∀ e ∈ es, ∀ e' ∈ exprs a, e.span.stop ≤ e'.span.start) →
      Continues source lo (n + v) (exprs a ++ es) w (k a)) :
    Continues source lo n es w (p >>= k) := by
  intro c hc hlies b c'' hb
  obtain ⟨a, c', ha, hb⟩ := exists_of_bind hb
  obtain ⟨hc', hlies'⟩ := h c.offset c hc (.empty c.offset) a c' ha
  refine hk a (fun e he e' he' => ?_) c' hc' (hlies.append hlies') b c'' hb
  exact Nat.le_trans (hlies.inside e he).2.1 (hlies'.inside e' he').1

theorem bind {k : α → Parser β} (h : Covers source v p)
    (hk : ∀ a, Continues source lo (n + v) (exprs a ++ es) w (k a)) :
    Continues source lo n es w (p >>= k) :=
  bind_after h fun a _ => hk a

/-- What goes on from a text goes on from the text that another reader goes on to. -/
theorem andThen {k : α → Parser β} (h : Continues source lo n es v p)
    (hk : ∀ a, Continues source lo v (exprs a) w (k a)) :
    Continues source lo n es w (p >>= k) := by
  intro c hc hlies b c'' hb
  obtain ⟨a, c', ha, hb⟩ := exists_of_bind hb
  obtain ⟨hc', hlies'⟩ := h c hc hlies a c' ha
  exact hk a c' hc' hlies' b c'' hb

/-- What was read before is left out. -/
theorem last (h : Covers source v p) (hw : w ≤ n + v) : Continues source lo n es w p := by
  intro c hc hlies a c' ha
  obtain ⟨hc', hlies'⟩ := h c.offset c hc (.empty c.offset) a c' ha
  exact ⟨hc', (hlies.append hlies').mono hw (List.subset_append_left _ _)⟩

theorem orElse (h : Continues source lo n es w p) (h' : Continues source lo n es w q) :
    Continues source lo n es w (p <|> q) := by
  intro c hc hlies a c' ha
  obtain ha | ha := or_of_orElse ha
  · exact h c hc hlies a c' ha
  · exact h' c hc hlies a c' ha

/-- A new text starts here. -/
theorem opening {k : Nat → Parser α}
    (h : ∀ start, String.Pos.Raw.IsValid source ⟨start⟩ → Continues source start 0 [] w (k start)) :
    Continues source lo 0 [] w (position >>= k) := by
  intro c hc hlies b c' hb
  obtain ⟨hc', hlies'⟩ := h c.offset hc.isValid c hc (.empty c.offset) b c' hb
  exact ⟨hc', hlies'.earlier hlies.le⟩

/-- The text that is being read ends here. -/
theorem closing {f : Nat → α}
    (h : ∀ stop, String.Pos.Raw.IsValid source ⟨stop⟩ → Lies source lo n es stop →
      Lies source lo w (exprs (f stop)) stop) :
    Continues source lo n es w (position >>= fun stop => Pure.pure (f stop)) := by
  intro c hc hlies b c' hb
  cases hb
  exact ⟨hc, h c.offset hc.isValid hlies⟩

end Continues

namespace Covers

theorem le (h : Covers source v p) (hw : w ≤ v) : Covers source w p := by
  intro lo c hc hlies a c' ha
  obtain ⟨hc', hlies'⟩ := h lo c hc hlies a c' ha
  exact ⟨hc', hlies'.mono hw (List.Subset.refl _)⟩

theorem orElse (h : Covers source w p) (h' : Covers source w q) : Covers source w (p <|> q) :=
  fun lo => .orElse (h lo) (h' lo)

/-- Characters are skipped, among which no expression is read. -/
theorem skipping
    (hp : ∀ c a c', (p c).result = some (a, c') → exprs a = [] ∧ ∃ i, c' = c.skip i ∧
      w ≤ (c.rest.take i).length) :
    Covers source w p := by
  intro lo c hc hlies a c' ha
  obtain ⟨hexprs, i, rfl, hw⟩ := hp c a c' ha
  have hle := hlies.le
  have hbytes := Text.length_le_byteLength (c.rest.take i)
  refine ⟨hc.skip i, ?_, ?_⟩
  · rw [Cursor.offset_skip]
    omega
  · rw [hexprs]
    simp

theorem position : Covers source 0 position := by
  refine skipping fun c a c' h => ?_
  cases h
  exact ⟨rfl, 0, rfl, Nat.zero_le _⟩

theorem expect (e : Expected) : Covers source w (Parser.expect e : Parser α) := by
  intro lo c hc hlies a c' h
  cases h

theorem blanks : Covers source 0 Lexeme.blanks := by
  refine skipping fun c a c' h => ?_
  cases h
  obtain ⟨i, hi⟩ := exists_skip_skipBlanks false c.offset c.rest
  exact ⟨rfl, i, hi, Nat.zero_le _⟩

theorem literal {text : String} (h : text ≠ "") : Covers source 1 (Lexeme.literal text) := by
  refine skipping fun c a c' hc => ?_
  unfold Lexeme.literal at hc
  split at hc
  · next hprefix =>
    cases hc
    refine ⟨rfl, _, rfl, ?_⟩
    rw [← String.length_toList, ← List.prefix_iff_eq_take.1 (List.isPrefixOf_iff_prefix.1 hprefix)]
    exact List.length_pos_iff.2 (by simpa using h)
  · cases hc

theorem wordEnd : Covers source 0 Lexeme.wordEnd := by
  refine skipping fun c a c' hc => ?_
  have hsame : c' = c := by
    unfold Lexeme.wordEnd at hc
    split at hc
    · split at hc
      · cases hc
      · cases hc
        rfl
    · cases hc
      rfl
  exact ⟨rfl, 0, hsame, Nat.zero_le _⟩

theorem keyword {text : String} (h : text ≠ "") : Covers source 1 (Lexeme.keyword text) :=
  fun _ => .bind (literal h) fun _ => .last wordEnd (by decide)

theorem identifier : Covers source 1 Lexeme.identifier := by
  refine skipping fun c a c' hc => ?_
  unfold Lexeme.identifier at hc
  dsimp only at hc
  split at hc
  · next hword =>
    cases hc
    refine ⟨rfl, _, rfl, ?_⟩
    rw [← List.prefix_iff_eq_take.1 (List.takeWhile_prefix _), Nat.one_le_iff_ne_zero, Ne,
      List.length_eq_zero_iff]
    rintro hnil
    rw [hnil] at hword
    cases hword
  · cases hc

theorem binder : Covers source 1 Lexeme.binder :=
  .orElse identifier fun _ => .bind (keyword (by decide)) fun _ =>
    .pure (by decide) (by simp [exprs])

theorem quotedText : Covers source 0 Lexeme.quotedText := by
  refine skipping fun c a c' hc => ?_
  cases hc
  exact ⟨rfl, _, rfl, Nat.zero_le _⟩

theorem quote : Covers source 1 Lexeme.quote :=
  fun _ => .bind (literal (by decide)) fun _ => .bind quotedText fun _ =>
      .bind (literal (by decide)) fun _ =>
    .pure (by decide) (by simp [exprs])

theorem optional (h : Covers source w p) : Covers source 0 (Parser.optional p) :=
  .orElse (fun _ => .bind h fun _ => .pure (Nat.zero_le _) (by simp [exprs])) fun _ =>
    .pure (Nat.le_refl 0) (by simp [exprs])

theorem upTo (h : Covers source w p) (n : Nat) : Covers source 0 (Parser.upTo p n) := by
  induction n with
  | zero => exact fun _ => .pure (Nat.le_refl 0) (by simp [exprs])
  | succ n ih =>
    refine .orElse (fun _ => .bind h fun a => .bind ih fun as => .pure (Nat.zero_le _) ?_) fun _ =>
      .pure (Nat.le_refl 0) (by simp [exprs])
    simp [exprs]

theorem many (h : Covers source w p) : Covers source 0 (Parser.many p) :=
  fun lo c => h.upTo (c.rest.length + 1) lo c

theorem sepBy1 {separator : Parser Unit} (h : Covers source w p)
    (hseparator : Covers source v separator) :
    Covers source w (Parser.sepBy1 p separator) := by
  have hitems := many (p := do separator; p) fun _ => .bind hseparator fun _ =>
    .last h (Nat.le_refl _)
  exact fun _ => .bind h fun _ => .bind hitems fun _ => .pure (by omega) (by simp [exprs])

theorem sepBy {separator : Parser Unit} (h : Covers source w p)
    (hseparator : Covers source v separator) :
    Covers source 0 (Parser.sepBy p separator) :=
  .orElse ((h.sepBy1 hseparator).le (Nat.zero_le _)) fun _ =>
    .pure (Nat.le_refl 0) (by simp [exprs])

theorem commaSeparated {items : Parser Unit → Parser (List α)}
    (h : ∀ separator, Covers source 1 separator → Covers source w (items separator)) :
    Covers source w (Lexeme.commaSeparated items) := by
  have hcomma : Covers source 1 (do Lexeme.blanks; Lexeme.literal ","; Lexeme.blanks) :=
    fun _ => .bind blanks fun _ => .bind (literal (by decide)) fun _ => .last blanks (by decide)
  exact fun _ => .bind (h _ hcomma) fun _ => .bind blanks fun _ =>
      .bind (optional (literal (by decide))) fun _ =>
    .bind blanks fun _ => .pure (by omega) (by simp [exprs])

theorem commaList (h : Covers source w p) : Covers source 0 (Lexeme.commaList p) :=
  commaSeparated fun _ hseparator => h.sepBy hseparator

theorem commaList1 (h : Covers source w p) : Covers source w (Lexeme.commaList1 p) :=
  commaSeparated fun _ hseparator => h.sepBy1 hseparator

theorem after {mark : String} (h : Covers source w p) (hmark : mark ≠ "") :
    Covers source (w + 1) (Lexeme.after mark p) :=
  fun _ => .bind blanks fun _ => .bind (literal hmark) fun _ => .bind blanks fun _ =>
    .last h (by omega)

end Covers

end Parser

structure Rules.Cover (source : String) (later : Rules) : Prop where
  expr : later.expr.Covers source 1
  atom : later.atom.Covers source 1

namespace Rules.Cover

open Grammar
open DependentClasses.Parser (Covers Continues)

variable {source : String} {later : Rules}

theorem annotation (h : later.Cover source) : Covers source 0 ( annotation later) :=
  .optional (h.expr.after (by decide))

theorem typed {name : Parser Name} (h : later.Cover source) (hname : Covers source 1 name) :
    Covers source 1 (typed later name) :=
  fun _ => .bind hname fun _ => .bind (h.expr.after (by decide)) fun _ =>
    .pure (by decide) (by simp [exprs])

theorem implicitly {α : Type} [Holding α] {p : Parser α} (h : Covers source 1 p) :
    Covers source 1 (implicitly p) :=
  fun _ => .bind (.keyword (by decide)) fun _ => .bind .blanks fun _ => .last h (by decide)

theorem piBinder (h : later.Cover source) : Covers source 1 (piBinder later) :=
  .orElse (fun _ => .bind (implicitly (h.typed .identifier)) fun _ =>
    .pure (by decide) (by simp [exprs])) <|
  .orElse (fun _ => .bind (h.typed .binder) fun _ => .pure (by decide) (by simp [exprs])) <|
  fun _ => .bind h.expr fun _ => .pure (by decide) (by simp [exprs])

theorem sigmaBinder (h : later.Cover source) : Covers source 1 (sigmaBinder later) :=
  .orElse (h.typed .binder) fun _ => .bind h.expr fun _ => .pure (by decide) (by simp [exprs])

theorem fnBinder (h : later.Cover source) : Covers source 1 (fnBinder later) :=
  .orElse (fun _ => .bind (implicitly .identifier) fun _ => .bind h.annotation fun _ =>
    .pure (by decide) (by simp [exprs])) <|
  fun _ => .bind .binder fun _ => .bind h.annotation fun _ => .pure (by decide) (by simp [exprs])

theorem argument (h : later.Cover source) : Covers source 1 (argument later) :=
  .orElse (fun _ => .bind (implicitly h.expr) fun _ => .pure (by decide) (by simp [exprs])) <|
  fun _ => .bind h.expr fun _ => .pure (by decide) (by simp [exprs])

theorem member (h : later.Cover source) : Covers source 1 (member later) := by
  refine .orElse (fun _ => .bind (h.typed .identifier) ?_) fun _ => ?_
  · rintro ⟨label, type⟩
    refine .bind (.optional (h.expr.after (by decide))) ?_
    rintro (_ | value)
    · exact .pure (by decide) (by simp [exprs, Member.parts])
    · exact .pure (by decide) (by simp [exprs, Member.parts])
  · exact .bind .identifier fun _ => .bind (h.expr.after (by decide)) fun _ =>
      .pure (by decide) (by simp [exprs, Member.parts])

theorem definition (h : later.Cover source) : Covers source 1 (definition later) := by
  refine .orElse (fun _ => ?_) fun _ => ?_
  · exact .bind (.keyword (by decide)) fun _ => .bind .blanks fun _ => .bind .binder fun _ =>
      .bind h.annotation fun _ => .bind (h.expr.after (by decide)) fun _ =>
        .pure (by decide) (by simp [exprs])
  · exact .bind (.keyword (by decide)) fun _ => .bind .blanks fun _ => .bind h.expr fun _ =>
      .bind (h.expr.after (by decide)) fun _ => .pure (by decide) (by simp [exprs])

theorem parenthesized (h : later.Cover source) : Covers source 1 (parenthesized later) :=
  fun _ => .bind (.literal (by decide)) fun _ => .bind .blanks fun _ => .bind h.expr fun _ =>
      .bind .blanks fun _ =>
    .bind (.literal (by decide)) fun _ => .pure (by decide) (by simp [exprs])

theorem classLiteral (h : later.Cover source) : Covers source 1 (classLiteral later) := by
  refine fun _ => .opening fun start hstart => .bind (.keyword (by decide)) fun _ =>
      .bind .blanks fun _ =>
    .bind (.literal (by decide)) fun _ => .bind .blanks fun _ =>
        .bind (.commaList h.member) fun members =>
    .bind (.literal (by decide)) fun _ => ?_
  by_cases hdistinct : Member.Distinct members
  · simp only [if_pos hdistinct]
    exact .closing fun stop hstop hlies =>
      .node hstart hstop _ (hlies.mono (by decide) (by simp [exprs, Form.parts]))
  · simp only [if_neg hdistinct]
    exact .bind .position fun _ => .last (.expect _) (Nat.le_add_left _ _)

theorem block (h : later.Cover source) : Covers source 1 (block later) :=
  fun _ => .opening fun start hstart => .bind (.literal (by decide)) fun _ => .bind .blanks fun _ =>
    .bind (.sepBy h.definition .blanks) fun definitions => .bind .blanks fun _ =>
        .bind (.keyword (by decide)) fun _ =>
    .bind .blanks fun _ => .bind h.expr fun body => .bind .blanks fun _ =>
        .bind (.literal (by decide)) fun _ =>
    .closing fun stop hstop hlies => .lets hstart hstop (hlies.mono (by decide) (by simp [exprs]))

theorem fields (h : later.Cover source) : Covers source 1 (fields later) :=
  fun _ => .bind (.literal (by decide)) fun _ => .bind .blanks fun _ =>
    .bind (.commaList (h.typed .identifier)) fun _ => .bind (.literal (by decide)) fun _ =>
    .pure (by decide) (by simp [exprs])

theorem positional (h : later.Cover source) : Covers source 1 (positional later) :=
  fun _ => .bind (.literal (by decide)) fun _ => .bind .blanks fun _ =>
      .bind (.commaList h.expr) fun _ =>
    .bind (.literal (by decide)) fun _ => .pure (by decide) (by simp [exprs])

theorem newObject (h : later.Cover source) : Covers source 1 (newObject later) :=
  fun _ => .bind (.keyword (by decide)) fun _ => .bind .blanks fun _ => .bind h.atom fun _ =>
      .bind .blanks fun _ =>
    .orElse (.bind h.positional fun _ => .pure (by decide) (by simp [exprs, Form.parts]))
      (.bind h.fields fun _ => .pure (by decide) (by simp [exprs, Form.parts, List.map_eq_flatMap]))

theorem call1 {word : String} {form : Expr → Form} (h : later.Cover source) (hword : word ≠ "")
    (hform : ∀ a, (form a).parts = [a]) : Covers source 1 (call1 later word form) :=
  fun _ => .bind (.literal hword) fun _ => .bind (h.expr.after (by decide)) fun _ =>
      .bind .blanks fun _ =>
    .bind (.literal (by decide)) fun _ => .pure (by decide) (by simp [exprs, hform])

theorem call2 {word : String} {form : Expr → Expr → Form} (h : later.Cover source)
    (hword : word ≠ "") (hform : ∀ a b, (form a b).parts = [a, b]) :
    Covers source 1 (call2 later word form) :=
  fun _ => .bind (.literal hword) fun _ => .bind (h.expr.after (by decide)) fun _ =>
    .bind (h.expr.after (by decide)) fun _ => .bind .blanks fun _ =>
        .bind (.literal (by decide)) fun _ =>
    .pure (by decide) (by simp [exprs, hform])

theorem call3 {word : String} {form : Expr → Expr → Expr → Form} (h : later.Cover source)
    (hword : word ≠ "") (hform : ∀ a b c, (form a b c).parts = [a, b, c]) :
    Covers source 1 (call3 later word form) :=
  fun _ => .bind (.literal hword) fun _ => .bind (h.expr.after (by decide)) fun _ =>
    .bind (h.expr.after (by decide)) fun _ => .bind (h.expr.after (by decide)) fun _ =>
        .bind .blanks fun _ =>
    .bind (.literal (by decide)) fun _ =>
    .pure (by decide) (by simp [exprs, hform])

theorem constant {word : String} {form : Form} (hword : word ≠ "") (hform : form.parts = []) :
    Covers source 1 (constant word form) :=
  fun _ => .bind (.keyword hword) fun _ => .pure (by decide) (by simp [exprs, hform])

theorem simple (h : later.Cover source) : Covers source 1 (simple later) :=
  .orElse (constant (by decide) rfl) <| .orElse (constant (by decide) rfl) <|
  .orElse (constant (by decide) rfl) <| .orElse (constant (by decide) rfl) <|
  .orElse (fun _ => .bind .quote fun _ => .pure (by decide) (by simp [exprs, Form.parts])) <|
  .orElse (fun _ => .bind h.fields fun _ =>
    .pure (by decide) (by simp [exprs, Form.parts, List.map_eq_flatMap])) <|
  .orElse (h.call2 (by decide) fun _ _ => rfl) <| .orElse (h.call1 (by decide) fun _ => rfl) <|
  .orElse (h.call1 (by decide) fun _ => rfl) <| .orElse (h.call3 (by decide) fun _ _ _ => rfl) <|
  .orElse (h.call1 (by decide) fun _ => rfl) <| .orElse (h.call2 (by decide) fun _ _ => rfl) <|
  fun _ => .bind .identifier fun _ => .pure (by decide) (by simp [exprs, Form.parts])

theorem spanned {p : Parser Form} (h : Covers source 1 p) : Covers source 1 (spanned p) :=
  fun _ => .opening fun start hstart => .bind h fun form => .closing fun stop hstop hlies =>
    .node hstart hstop form (hlies.mono (by decide) (by simp [exprs]))

theorem wholeAtom (h : later.Cover source) : Covers source 1 (Grammar.atom later) :=
  .orElse h.parenthesized <| .orElse h.classLiteral <| .orElse h.block <|
    .orElse (spanned h.newObject) (spanned h.simple)

/-- A suffix spans its target as well, which starts where the spine starts. -/
theorem suffix (h : later.Cover source) {start : Nat}
    (hstart : String.Pos.Raw.IsValid source ⟨start⟩) (target : Expr) :
    Continues source start 1 [target] 1 (suffix later start target) := by
  refine .orElse ?_ ?_
  · exact .bind (.literal (by decide)) fun _ => .bind .blanks fun _ =>
        .bind (.commaList h.argument) fun args =>
      .bind (.literal (by decide)) fun _ => .closing fun stop hstop hlies =>
      .apps hstart hstop (hlies.mono (by decide) (by simp [exprs]))
  · exact .bind (.literal (by decide)) fun _ => .bind .identifier fun label =>
        .closing fun stop hstop hlies =>
      .node hstart hstop (.dot target label) (hlies.mono (by decide) (by simp [exprs, Form.parts]))

theorem suffixes (h : later.Cover source) {start : Nat}
    (hstart : String.Pos.Raw.IsValid source ⟨start⟩) (n : Nat) (target : Expr) :
    Continues source start 1 [target] 1 (suffixes later start n target) := by
  induction n generalizing target with
  | zero => exact .pure (Nat.le_refl 1) (List.Subset.refl _)
  | succ n ih =>
    exact .orElse (.andThen (h.suffix hstart target) ih)
      (.pure (Nat.le_refl 1) (List.Subset.refl _))

theorem spine {atom : Parser Expr} (h : later.Cover source) (hatom : Covers source 1 atom) :
    Covers source 1 (spine later atom) :=
  fun _ => .opening fun _ hstart => .bind hatom fun target c =>
    h.suffixes hstart (c.rest.length + 1) target c

theorem boundArrow (h : later.Cover source) : Covers source 1 (boundArrow later) :=
  fun _ => .opening fun start hstart => .bind (.literal (by decide)) fun _ => .bind .blanks fun _ =>
    .bind (.commaList1 h.piBinder) fun binders => .bind (.literal (by decide)) fun _ =>
    .bind (h.expr.after (by decide)) fun codomain => .closing fun stop hstop hlies =>
    .pis hstart hstop (hlies.mono (by decide) (by simp [exprs]))

theorem arrow {spine : Parser Expr} (h : later.Cover source) (hspine : Covers source 1 spine) :
    Covers source 1 (arrow later spine) :=
  fun _ => .opening fun start hstart => .bind hspine fun domain =>
      .bind (h.expr.after (by decide)) fun codomain =>
    .closing fun stop hstop hlies => .pis hstart hstop (hlies.mono (by decide) (by simp [exprs]))

theorem parameters (h : later.Cover source) : Covers source 1 (parameters later) :=
  fun _ => .bind (.literal (by decide)) fun _ => .bind .blanks fun _ =>
      .bind (.commaList1 h.fnBinder) fun _ =>
    .bind (.literal (by decide)) fun _ => .pure (by decide) (by simp [exprs])

theorem function (h : later.Cover source) : Covers source 1 (function later) := by
  refine .orElse (fun _ => ?_) fun _ => ?_
  · refine .opening fun start hstart => .bind h.parameters fun binders =>
        .bind (h.expr.after (by decide)) fun type =>
      .bind_after (h.expr.after (by decide)) fun body hbody => .closing fun stop hstop hlies => ?_
    exact .typedFns hstart hstop (hlies.mono (by decide) (by simp [exprs]))
      (hbody type (by simp [exprs]) body (by simp [exprs]))
  · exact .opening fun start hstart => .bind h.parameters fun binders =>
        .bind (h.expr.after (by decide)) fun body =>
      .closing fun stop hstop hlies => .fns hstart hstop (hlies.mono (by decide) (by simp [exprs]))

theorem sigma (h : later.Cover source) : Covers source 1 (sigma later) :=
  fun _ => .opening fun start hstart => .bind (.keyword (by decide)) fun _ => .bind .blanks fun _ =>
    .bind (.literal (by decide)) fun _ => .bind .blanks fun _ =>
        .bind (.commaList1 h.sigmaBinder) fun binders =>
    .bind (.literal (by decide)) fun _ => .bind .blanks fun _ => .bind h.expr fun cdrType =>
    .closing fun stop hstop hlies => .sigmas hstart hstop (hlies.mono (by decide) (by simp [exprs]))

theorem wholeExpr {spine : Parser Expr} (h : later.Cover source) (hspine : Covers source 1 spine) :
    Covers source 1 (Grammar.expr later spine) :=
  .orElse h.boundArrow <| .orElse (h.arrow hspine) <| .orElse h.function <| .orElse h.sigma hspine

theorem equation (h : later.Cover source) : Covers source 1 (equation later) :=
  fun _ => .bind h.expr fun _ => .bind (h.expr.after (by decide)) fun _ =>
      .bind h.annotation fun _ =>
    .pure (by decide) (by simp [exprs, Equation.parts])

theorem statement (h : later.Cover source) : Covers source 1 (statement later) := by
  refine .orElse (fun _ => ?_) <| .orElse (fun _ => ?_) <| .orElse (fun _ => ?_) fun _ => ?_
  · exact .bind (.keyword (by decide)) fun _ => .bind .blanks fun _ => .bind .identifier fun _ =>
      .bind h.annotation fun _ => .bind (h.expr.after (by decide)) fun _ =>
      .pure (by decide) (by simp [exprs, Statement.parts])
  · exact .bind (.keyword (by decide)) fun _ => .bind .blanks fun _ => .bind h.expr fun _ =>
      .bind (h.expr.after (by decide)) fun _ => .pure (by decide) (by simp [exprs, Statement.parts])
  · exact .bind (.keyword (by decide)) fun _ => .bind .blanks fun _ => .bind h.expr fun _ =>
      .pure (by decide) (by simp [exprs, Statement.parts])
  · exact .bind (.literal (by decide)) fun _ => .bind .blanks fun _ =>
        .bind (.literal (by decide)) fun _ =>
      .bind .blanks fun _ => .bind (.commaList (h.typed .identifier)) fun _ =>
          .bind (.literal (by decide)) fun _ =>
      .bind .blanks fun _ => .bind (.literal (by decide)) fun _ => .bind .blanks fun _ =>
      .bind (.sepBy h.equation .blanks) fun _ => .bind .blanks fun _ =>
          .bind (.literal (by decide)) fun _ =>
      .pure (by decide) (by simp [exprs, Statement.parts, List.map_eq_flatMap])

theorem onlyExpr (h : later.Cover source) : Covers source 0 (Grammar.wholeExpr later) :=
  fun _ => .bind .blanks fun _ => .bind h.expr fun _ => .bind .blanks fun _ =>
    .pure (by decide) (by simp [exprs])

theorem statements (h : later.Cover source) : Covers source 0 (statements later) :=
  fun _ => .bind .blanks fun _ => .bind (.sepBy h.statement .blanks) fun _ => .bind .blanks fun _ =>
    .pure (by decide) (by simp [exprs])

end Rules.Cover

namespace Entry

variable {source : String}

structure Covers (source : String) (e : Entry) : Prop where
  expr : ∀ a c', e.expr.get.result = some (a, c') → c'.In source ∧
    Lies source e.offset 1 [a] c'.offset
  atom : ∀ a c', e.atom.get.result = some (a, c') → c'.In source ∧
    Lies source e.offset 1 [a] c'.offset

theorem rules_cover {later : List Entry} (h : ∀ e ∈ later, e.Covers source) :
    (rules later).Cover source := by
  have hfind {c : Cursor} {r : Entry → Reply Expr} {a : Expr} {c' : Cursor}
      (hresult : (((later.find? fun e => e.offset == c.offset).map r).getD
      (.failed .empty)).result = some (a, c')) :
      ∃ e ∈ later, e.offset = c.offset ∧ (r e).result = some (a, c') := by
    cases he : later.find? fun e => e.offset == c.offset with
    | none =>
      rw [he] at hresult
      cases hresult
    | some e =>
      rw [he] at hresult
      exact ⟨e, List.mem_of_find?_eq_some he, by simpa using List.find?_some he, hresult⟩
  constructor
  · intro lo c hc hlies a c' ha
    obtain ⟨e, he, hoffset, ha⟩ := hfind ha
    obtain ⟨hc', hlies'⟩ := (h e he).expr a c' ha
    exact ⟨hc', hlies'.earlier (hoffset ▸ hlies.le)⟩
  · intro lo c hc hlies a c' ha
    obtain ⟨e, he, hoffset, ha⟩ := hfind ha
    obtain ⟨hc', hlies'⟩ := (h e he).atom a c' ha
    exact ⟨hc', hlies'.earlier (hoffset ▸ hlies.le)⟩

theorem read_covers {later : List Entry} (h : (rules later).Cover source) {c : Cursor}
    (hc : c.In source) :
    (read later c).Covers source := by
  have hexpr : (read later c).expr.get =
      Grammar.expr (rules later) (Grammar.spine (rules later) (Grammar.atom (rules later))) c :=
    Grammar.expr_congr (Grammar.spine_congr rfl)
  constructor
  · rw [hexpr]
    exact h.wholeExpr (h.spine h.wholeAtom) c.offset c hc (.empty c.offset)
  · exact h.wholeAtom c.offset c hc (.empty c.offset)

/-- The places of a source are read from its end. -/
theorem table_covers {o : Nat} {s : List Char} (h : Cursor.In source ⟨o, s⟩) :
    ∀ e ∈ table o s, e.Covers source := by
  induction s generalizing o with
  | nil =>
    simp only [table, List.mem_singleton, forall_eq]
    exact read_covers (rules_cover (by simp)) h
  | cons ch s ih =>
    have hlater := ih (o := o + ch.utf8Size) (h.skip 1)
    exact List.forall_mem_cons.2 ⟨read_covers (rules_cover hlater) h, hlater⟩

end Entry

/-- What is read from a whole source lies in it. -/
theorem Reading.ofSource_nested {α : Type} [Holding α] {rule : Rules → Parser α}
    {source : String} {a : α}
    (hrule : ∀ later : Rules, later.Cover source → (rule later).Covers source 0)
    (h : (ofSource rule source).outcome = .ok a) : ∀ e ∈ exprs a, e.Nested source := by
  have hcover : (Entry.rules (Entry.table 0 source.toList)).Cover source :=
    Entry.rules_cover (Entry.table_covers (.refl _))
  obtain ⟨c, hc⟩ :
      ∃ c, (rule (Entry.rules (Entry.table 0 source.toList)) ⟨0, source.toList⟩).result =
      some (a, c) := by
    unfold ofSource ofReply at h
    dsimp only at h
    split at h
    · next b c hresult =>
      split at h
      · cases h
        exact ⟨c, hresult⟩
      · cases h
    · cases h
  obtain ⟨-, hlies⟩ := hrule _ hcover 0 _ (.refl _) (.empty 0) a c hc
  exact fun e he => (hlies.inside e he).2.2

/-- The expressions of every source that can be read are well placed, and so are all those inside of
them. -/
theorem spans_well_nested (source : String) :
    (∀ e, (Expr.ofSource source).outcome = .ok e → ∀ sub : Expr, sub.Within e →
      sub.WellPlaced source) ∧
      ∀ statements, (Statement.listOfSource source).outcome = .ok statements →
        ∀ s ∈ statements, ∀ e ∈ s.parts, ∀ sub : Expr, sub.Within e → sub.WellPlaced source := by
  refine ⟨fun e he => ?_, fun statements hstatements s hs e he => ?_⟩
  · exact Reading.ofSource_nested (fun later h => h.onlyExpr) he e List.mem_cons_self
  · exact Reading.ofSource_nested (fun later h => h.statements) hstatements e
      (List.mem_flatMap.2 ⟨s, hs, he⟩)

namespace GluedAnnotation

/-- A function after a comment, its annotation and its body in parentheses. Both the comment and the
body have a character of two bytes. -/
def text : String := "// ü\n(x: String): (String) => (\"é\")"

theorem exists_ok {ε α β : Type} {x : Except ε α} {f : α → β} {y : β}
    (h : x.toOption.map f = some y) :
    ∃ a, x = .ok a ∧ f a = y := by
  cases x with
  | error e => cases h
  | ok a => exact ⟨a, rfl, Option.some.inj h⟩

end GluedAnnotation

open GluedAnnotation in
/-- The body of the function gets a span from the start of the annotation to the end of what is
returned, without the last parenthesis. -/
theorem glued_annotation_well_placed :
    ∃ e, (Expr.ofSource text).outcome = .ok e ∧ e.span = ⟨6, 37⟩ ∧
    e.parts.map Expr.span = [⟨10, 16⟩, ⟨20, 36⟩] ∧ ∀ sub : Expr, sub.Within e →
      sub.WellPlaced text := by
  obtain ⟨e, he, hspans⟩ : ∃ e, (Expr.ofSource text).outcome = .ok e ∧
      (e.span, e.parts.map Expr.span) = (⟨6, 37⟩, [⟨10, 16⟩, ⟨20, 36⟩]) :=
      exists_ok (by decide +kernel)
  obtain ⟨hspan, hparts⟩ := Prod.mk.inj hspans
  exact ⟨e, he, hspan, hparts, (spans_well_nested text).1 e he⟩

end DependentClasses
