import DependentClasses.Proofs.Placements

/-! The rules of the language in step. If the readers of later places go in step on a source alone
and inside a longer text, then so do the rules that are built on them. -/
namespace DependentClasses

open Lexeme

namespace Lexeme

/-- The fixed texts of expressions, the braces and the quotation mark apart. -/
@[simp] def marks : List String :=
  ["(", ")", ",", ":", ".", "=", "->", "=>", "_", "implicit", "class", "return", "new", "exists",
    "cons", "car", "cdr",
   "Equal", "same", "the", "Type", "String", "Trivial", "sole"]

theorem plain_of_mem_marks : ∀ text ∈ marks, text.toList ≠ [] ∧ text.toList.all isPlain := by decide

/-- No statement starts with one of them. -/
theorem barred_of_mem_marks {text : String} (h : text ∈ marks) : (literal text).Barred := by
  have hwords : ∀ text ∈ marks, ∀ w ∈ statementWords, ¬ text.toList <+: w.toList ∧
      ¬ w.toList <+: text.toList := by decide
  exact .literal (plain_of_mem_marks text h).1 (hwords text h)

end Lexeme

namespace Parser.InStep

variable {α β : Type} [Movable α] [Movable β] {P : Placement} {R R' : Cursor → Cursor → Prop}
  {p q : Parser α} {k d d' : Nat}

theorem same (h : InStep (· + P.shift) (P.At k d) R p q) :
    InStep (· + P.shift) (P.Same k d) R p q :=
  .mono h (fun _ _ => .inl) fun _ _ hc => hc

theorem toAt (h : InStep (· + P.shift) R (P.Same k d) p q) :
    InStep (· + P.shift) R (P.At k d) p q :=
  .mono h (fun _ _ hc => hc) fun _ _ => .inl

/-- A reader that uses up a character, where this does not matter. -/
theorem le (h : ∀ j, j < k → InStep (· + P.shift) (P.At (j + 1) d) (P.Same j d') p q) :
    InStep (· + P.shift) (P.At k d) (P.Same k d') p q := by
  cases k with
  | zero =>
    rintro c c' (hc | hc)
    · exact absurd hc.lt (Nat.not_lt_zero _)
    · exact absurd hc.pos (Nat.lt_irrefl 0)
  | succ k =>
    exact .mono (h k (Nat.lt_succ_self k)) (fun _ _ hc => hc) fun _ _ hc => hc.mono (Nat.le_succ k)

theorem mark {text : String} (h : text ∈ marks) :
    InStep (· + P.shift) (P.At (k + 1) d) (P.Same k d) (Lexeme.literal text)
      (Lexeme.literal text) :=
  ofBarred (literal (plain_of_mem_marks text h).1 (plain_of_mem_marks text h).2)
    (barred_of_mem_marks h) (barred_of_mem_marks h)

theorem mark_le {text : String} (h : text ∈ marks) :
    InStep (· + P.shift) (P.At k d) (P.Same k d) (Lexeme.literal text) (Lexeme.literal text) :=
  .le fun _ _ => mark h

theorem word {text : String} (h : text ∈ marks) :
    InStep (· + P.shift) (P.At (k + 1) d) (P.Same k d) (Lexeme.keyword text)
      (Lexeme.keyword text) :=
  .bind (mark h) fun _ => wordEnd

theorem word_le {text : String} (h : text ∈ marks) :
    InStep (· + P.shift) (P.At k d) (P.Same k d) (Lexeme.keyword text) (Lexeme.keyword text) :=
  .le fun _ _ => word h

theorem identifier_le :
    InStep (· + P.shift) (P.At k d) (P.Same k d) Lexeme.identifier Lexeme.identifier :=
  .le fun _ _ => identifier

theorem binder : InStep (· + P.shift) (P.At k d) (P.Same k d) Lexeme.binder Lexeme.binder :=
  .orElse identifier_le (.bind (word_le (by simp)) fun _ => .pure rfl)

theorem after {text : String} (hp : InStep (· + P.shift) (P.At k d) R p q) (h : text ∈ marks) :
    InStep (· + P.shift) (P.At k d) R (Lexeme.after text p) (Lexeme.after text q) :=
  .bind blanks fun _ => .bind (toAt (mark_le h)) fun _ => .bind blanks fun _ => hp

/-- Two repetitions of readers in step. How often they may repeat at most does not matter. -/
theorem upTo (h : ∀ j, j < k → InStep (· + P.shift) (P.Same (j + 1) d) (P.Same j d) p q) {n m : Nat}
    (hn : k ≤ n) (hm : k ≤ m) :
    InStep (· + P.shift) (P.Same k d) (P.Same k d) (Parser.upTo p n) (Parser.upTo q m) := by
  induction k generalizing n m with
  | zero => exact fun c c' hc => absurd hc.lt (Nat.not_lt_zero _)
  | succ k ih =>
    obtain ⟨n, rfl⟩ : ∃ i, n = i + 1 := ⟨n - 1, by omega⟩
    obtain ⟨m, rfl⟩ : ∃ i, m = i + 1 := ⟨m - 1, by omega⟩
    have hrest := ih (fun j hj => h j (by omega)) (n := n) (m := m) (by omega) (by omega)
    refine .orElse (.bind (h k (Nat.lt_succ_self k)) fun a => .bind hrest fun as => ?_) (.pure rfl)
    exact .mono (.pure rfl) (fun _ _ hc => hc) fun _ _ hc => hc.mono (Nat.le_succ k)

theorem many (h : ∀ j, j < k → InStep (· + P.shift) (P.Same (j + 1) d) (P.Same j d) p q) :
    InStep (· + P.shift) (P.Same k d) (P.Same k d) (Parser.many p) (Parser.many q) := by
  intro c c' hc
  have hlength : c.rest.length ≤ c'.rest.length := by rw [hc.rest, List.length_append]; omega
  have hlt := hc.lt
  have hmany := upTo (k := c.rest.length + 1) (fun j hj => h j (by omega)) (Nat.le_refl _)
    (m := c'.rest.length + 1) (by omega)
  exact (hmany c c' { hc with lt := Nat.lt_succ_self _ }).mono fun _ _ hc' => hc'.mono hlt

theorem sepBy1 {sep sep' : Parser Unit} (hp : InStep (· + P.shift) (P.At k d) (P.Same k d) p q)
    (hitem : ∀ j, j < k →
      InStep (· + P.shift) (P.Same (j + 1) d) (P.Same j d) (do sep; p) (do sep'; q)) :
    InStep (· + P.shift) (P.At k d) (P.Same k d) (Parser.sepBy1 p sep) (Parser.sepBy1 q sep') :=
  .bind hp fun _ => .bind (many hitem) fun _ => .pure rfl

theorem sepBy {sep sep' : Parser Unit} (hp : InStep (· + P.shift) (P.At k d) (P.Same k d) p q)
    (hitem : ∀ j, j < k →
      InStep (· + P.shift) (P.Same (j + 1) d) (P.Same j d) (do sep; p) (do sep'; q)) :
    InStep (· + P.shift) (P.At k d) (P.At k d) (Parser.sepBy p sep) (Parser.sepBy q sep') :=
  .orElse (sepBy1 hp hitem).toAt (.pure rfl)

theorem commaSeparated {items items' : Parser Unit → Parser (List α)}
    (h : InStep (· + P.shift) (P.At k d) (P.At k d)
      (items (do Lexeme.blanks; Lexeme.literal ","; Lexeme.blanks))
      (items' (do Lexeme.blanks; Lexeme.literal ","; Lexeme.blanks))) :
    InStep (· + P.shift) (P.At k d) (P.At k d) (Lexeme.commaSeparated items)
      (Lexeme.commaSeparated items') :=
  .bind h fun _ => .bind blanks fun _ =>
      .bind (.optional (toAt (mark_le (by simp))) fun _ _ hc => hc) fun _ =>
    .bind blanks fun _ => .pure rfl

theorem commaItem (hp : ∀ j, j ≤ k → InStep (· + P.shift) (P.At j d) (P.Same j d) p q)
    (j : Nat) (hj : j < k) :
    InStep (· + P.shift) (P.Same (j + 1) d) (P.Same j d)
      (do (do Lexeme.blanks; Lexeme.literal ","; Lexeme.blanks); p)
      (do (do Lexeme.blanks; Lexeme.literal ","; Lexeme.blanks); q) :=
  .same (.bind (.bind blanks fun _ => .bind (toAt (mark (by simp))) fun _ => blanks) fun _ =>
    hp j (Nat.le_of_lt hj))

theorem commaList (hp : ∀ j, j ≤ k → InStep (· + P.shift) (P.At j d) (P.Same j d) p q) :
    InStep (· + P.shift) (P.At k d) (P.At k d) (Lexeme.commaList p) (Lexeme.commaList q) :=
  commaSeparated (sepBy (hp k (Nat.le_refl k)) (commaItem hp))

theorem commaList1 (hp : ∀ j, j ≤ k → InStep (· + P.shift) (P.At j d) (P.Same j d) p q) :
    InStep (· + P.shift) (P.At k d) (P.At k d) (Lexeme.commaList1 p) (Lexeme.commaList1 q) :=
  commaSeparated (sepBy1 (hp k (Nat.le_refl k)) (commaItem hp)).toAt

end Parser.InStep

open DependentClasses.Parser (InStep)

/-- The readers of places with at most `k` characters left go in step, and each uses up a
character. -/
structure Placement.Agree (P : Placement) (k : Nat) (later later' : Rules) : Prop where
  expr {j d : Nat} : j < k → InStep (· + P.shift) (P.At (j + 1) d) (P.Same j d)
    later.expr later'.expr
  atom {j d : Nat} : j < k → InStep (· + P.shift) (P.At (j + 1) d) (P.Same j d)
    later.atom later'.atom

namespace Placement.Agree

open Grammar

variable {P : Placement} {k d : Nat} {later later' : Rules}

theorem mono {j : Nat} (h : P.Agree k later later') (hj : j ≤ k) : P.Agree j later later' :=
  ⟨fun hi => h.expr (Nat.lt_of_lt_of_le hi hj), fun hi => h.atom (Nat.lt_of_lt_of_le hi hj)⟩

theorem expr_le (h : P.Agree k later later') :
    InStep (· + P.shift) (P.At k d) (P.Same k d) later.expr later'.expr :=
  .le fun _ hj => h.expr hj

theorem atom_le (h : P.Agree k later later') :
    InStep (· + P.shift) (P.At k d) (P.Same k d) later.atom later'.atom :=
  .le fun _ hj => h.atom hj

theorem annotation (h : P.Agree k later later') :
    InStep (· + P.shift) (P.Same k d) (P.Same k d) ( annotation later) ( annotation later') :=
  .optional (.same (.after h.expr_le (by simp))) fun _ _ hc => hc

theorem typed {name : Parser Name} (h : P.Agree k later later')
    (hname : InStep (· + P.shift) (P.At k d) (P.Same k d) name name) :
    InStep (· + P.shift) (P.At k d) (P.Same k d) (typed later name) (typed later' name) :=
  .bind hname fun _ => .bind (.same (.after h.expr_le (by simp))) fun _ => .pure rfl

theorem implicitly {α : Type} [Movable α] {p q : Parser α}
    (h : InStep (· + P.shift) (P.At k d) (P.Same k d) p q) :
    InStep (· + P.shift) (P.At k d) (P.Same k d) (implicitly p) (implicitly q) :=
  .bind (.toAt (.word_le (by simp))) fun _ => .bind .blanks fun _ => h

theorem piBinder (h : P.Agree k later later') :
    InStep (· + P.shift) (P.At k d) (P.Same k d) (piBinder later) (piBinder later') :=
  .orElse (.bind (implicitly (h.typed .identifier_le)) fun _ => .pure rfl)
    (.orElse (.bind (h.typed .binder) fun _ => .pure rfl) (.bind h.expr_le fun _ => .pure rfl))

theorem sigmaBinder (h : P.Agree k later later') :
    InStep (· + P.shift) (P.At k d) (P.Same k d) (sigmaBinder later) (sigmaBinder later') :=
  .orElse (h.typed .binder) (.bind h.expr_le fun _ => .pure rfl)

theorem fnBinder (h : P.Agree k later later') :
    InStep (· + P.shift) (P.At k d) (P.Same k d) (fnBinder later) (fnBinder later') :=
  .orElse (.bind (implicitly .identifier_le) fun _ => .bind h.annotation fun _ => .pure rfl)
    (.bind .binder fun _ => .bind h.annotation fun _ => .pure rfl)

theorem argument (h : P.Agree k later later') :
    InStep (· + P.shift) (P.At k d) (P.Same k d) (argument later) (argument later') :=
  .orElse (.bind (implicitly h.expr_le) fun _ => .pure rfl) (.bind h.expr_le fun _ => .pure rfl)

theorem member (h : P.Agree k later later') :
    InStep (· + P.shift) (P.At k d) (P.Same k d) (member later) (member later') := by
  refine .orElse (.bind (h.typed .identifier_le) ?_) ?_
  · rintro ⟨label, type⟩
    refine .bind (.optional (.same (.after h.expr_le (by simp))) fun _ _ hc => hc) ?_
    rintro (_ | value)
    · exact .pure rfl
    · exact .pure rfl
  · exact .bind .identifier_le fun _ =>
      .bind (.same (.after h.expr_le (by simp))) fun _ => .pure rfl

/-- Definitions stand inside of braces, so that no statement is taken for one. -/
theorem definition (h : P.Agree k later later') :
    InStep (· + P.shift) (P.Same (k + 1) d) (P.Same k d) (definition later)
      (definition later') := by
  refine .orElse (.bind (.toAt (.keyword (by decide) (by decide))) fun _ =>
    .bind .blanks fun _ => ?_)
    (.bind (.toAt (.keyword (by decide) (by decide))) fun _ => .bind .blanks fun _ => ?_)
  · exact .bind .binder fun _ => .bind h.annotation fun _ =>
      .bind (.same (.after h.expr_le (by simp))) fun _ => .pure rfl
  · exact .bind h.expr_le fun _ => .bind (.same (.after h.expr_le (by simp))) fun _ => .pure rfl

theorem parenthesized (h : P.Agree k later later') :
    InStep (· + P.shift) (P.Same (k + 1) d) (P.Same k d) (parenthesized later)
      (parenthesized later') :=
  .same <| .bind (.toAt (.mark (by simp))) fun _ => .bind .blanks fun _ =>
      .bind (.toAt h.expr_le) fun _ => .bind .blanks fun _ =>
    .bind (.mark_le (by simp)) fun _ => .pure rfl

theorem closing_le :
    InStep (· + P.shift) (P.At k (d + 1)) (P.Same k d) (Lexeme.literal "\x7d")
    (Lexeme.literal "\x7d") :=
  .le fun _ _ => .closing

theorem classLiteral (h : P.Agree k later later') :
    InStep (· + P.shift) (P.Same (k + 1) d) (P.Same k d) (classLiteral later)
      (classLiteral later') := by
  refine .bind .position fun start => .bind (.toAt (.same (.word (by simp)))) fun _ =>
      .bind .blanks fun _ =>
    .bind (.toAt (.le fun _ _ => .opening)) fun _ => .bind .blanks fun _ =>
    .bind (.commaList fun j hj => (h.mono hj).member) fun members => .bind closing_le fun _ =>
      .bind .position fun stop => ?_
  simp only [distinct_moved_iff]
  split
  · exact .pure (congrArg (Expr.mk _) (moved_classOf _ members).symm)
  · exact fun _ _ _ => .failed rfl

theorem block (h : P.Agree k later later') :
    InStep (· + P.shift) (P.Same (k + 1) d) (P.Same k d) (block later) (block later') := by
  have hdefinition {j : Nat} (hj : j ≤ k) := (h.mono hj).definition (d := d + 1)
  have hdefinitions : InStep (· + P.shift) (P.At k (d + 1)) (P.At k (d + 1))
      (Parser.sepBy (Grammar.definition later) Lexeme.blanks)
      (Parser.sepBy (Grammar.definition later') Lexeme.blanks) := .sepBy
    (.le fun j hj => .mono (hdefinition (Nat.le_of_lt hj)) (fun _ _ hc => hc.same) fun _ _ hc => hc)
    (fun j hj =>
      .same (.bind .blanks fun _ => .mono (hdefinition (Nat.le_of_lt hj)) (fun _ _ hc => hc.same)
        fun _ _ hc => hc))
  exact .bind .position fun start => .bind (.toAt (.same .opening)) fun _ => .bind .blanks fun _ =>
    .bind hdefinitions fun definitions => .bind .blanks fun _ =>
        .bind (.toAt (.word_le (by simp))) fun _ => .bind .blanks fun _ =>
    .bind (.toAt h.expr_le) fun body => .bind .blanks fun _ => .bind closing_le fun _ =>
        .bind .position fun stop =>
    .pure (moved_lets (· + P.shift) ⟨_, _⟩ definitions body).symm

theorem fields (h : P.Agree k later later') :
    InStep (· + P.shift) (P.At (k + 1) d) (P.Same k d) (fields later) (fields later') :=
  .bind (.toAt .opening) fun _ => .bind .blanks fun _ =>
      .bind (.commaList fun _ hj => (h.mono hj).typed .identifier_le) fun _ =>
    .bind closing_le fun _ => .pure rfl

theorem positional (h : P.Agree k later later') :
    InStep (· + P.shift) (P.At k d) (P.Same k d) (positional later) (positional later') :=
  .bind (.toAt (.mark_le (by simp))) fun _ => .bind .blanks fun _ =>
      .bind (.commaList fun _ hj => (h.mono hj).expr_le) fun _ =>
    .bind (.mark_le (by simp)) fun _ => .pure rfl

theorem newObject (h : P.Agree k later later') :
    InStep (· + P.shift) (P.Same (k + 1) d) (P.Same k d) (newObject later) (newObject later') := by
  refine .bind (.toAt (.same (.word (by simp)))) fun _ => .bind .blanks fun _ =>
      .bind (.toAt h.atom_le) fun target =>
    .bind .blanks fun _ =>
      .orElse (.bind h.positional fun args => .pure (moved_newWith _ target args).symm)
      (.bind (.le fun j hj => (h.mono (Nat.le_of_lt hj)).fields) fun fs =>
        .pure (moved_new _ target fs).symm)

theorem call1 {word : String} {form : Expr → Form} (h : P.Agree k later later')
    (hform : ∀ a, form (moved (· + P.shift) a) = moved (· + P.shift) (form a))
    (hword : word ∈ marks) :
    InStep (· + P.shift) (P.Same (k + 1) d) (P.Same k d) (call1 later word form)
      (call1 later' word form) :=
  .bind (.toAt (.same (.mark hword))) fun _ => .bind (.after (.toAt h.expr_le) (by simp)) fun a =>
      .bind .blanks fun _ =>
    .bind (.mark_le (by simp)) fun _ => .pure (hform a)

theorem call2 {word : String} {form : Expr → Expr → Form} (h : P.Agree k later later')
    (hform : ∀ a b, form (moved (· + P.shift) a) (moved (· + P.shift) b) =
      moved (· + P.shift) (form a b))
    (hword : word ∈ marks) :
    InStep (· + P.shift) (P.Same (k + 1) d) (P.Same k d) (call2 later word form)
      (call2 later' word form) :=
  .bind (.toAt (.same (.mark hword))) fun _ => .bind (.after (.toAt h.expr_le) (by simp)) fun a =>
    .bind (.after (.toAt h.expr_le) (by simp)) fun b =>
    .bind .blanks fun _ => .bind (.mark_le (by simp)) fun _ => .pure (hform a b)

theorem call3 {word : String} {form : Expr → Expr → Expr → Form} (h : P.Agree k later later')
    (hform : ∀ a b c, form (moved (· + P.shift) a) (moved (· + P.shift) b) (moved (· + P.shift) c) =
      moved (· + P.shift) (form a b c)) (hword : word ∈ marks) :
    InStep (· + P.shift) (P.Same (k + 1) d) (P.Same k d) (call3 later word form)
      (call3 later' word form) :=
  .bind (.toAt (.same (.mark hword))) fun _ => .bind (.after (.toAt h.expr_le) (by simp)) fun a =>
    .bind (.after (.toAt h.expr_le) (by simp)) fun b =>
    .bind (.after (.toAt h.expr_le) (by simp)) fun c => .bind .blanks fun _ =>
        .bind (.mark_le (by simp)) fun _ =>
    .pure (hform a b c)

theorem constant {word : String} {form : Form} (hform : form = moved (· + P.shift) form)
    (hword : word ∈ marks) :
    InStep (· + P.shift) (P.Same (k + 1) d) (P.Same k d) (constant word form)
      (constant word form) :=
  .bind (.same (.word hword)) fun _ => .pure hform

theorem simple (h : P.Agree k later later') :
    InStep (· + P.shift) (P.Same (k + 1) d) (P.Same k d) (simple later) (simple later') :=
  .orElse (constant rfl (by simp)) <| .orElse (constant rfl (by simp)) <|
  .orElse (constant rfl (by simp)) <| .orElse (constant rfl (by simp)) <|
  .orElse (.bind (.same .quote) fun _ => .pure rfl) <|
  .orElse (.bind (.same h.fields) fun fs => .pure (moved_object _ fs).symm) <|
  .orElse (h.call2 (fun _ _ => rfl) (by simp)) <| .orElse (h.call1 (fun _ => rfl) (by simp)) <|
  .orElse (h.call1 (fun _ => rfl) (by simp)) <| .orElse (h.call3 (fun _ _ _ => rfl) (by simp)) <|
  .orElse (h.call1 (fun _ => rfl) (by simp)) <| .orElse (h.call2 (fun _ _ => rfl) (by simp)) <|
  .bind (.same .identifier) fun _ => .pure rfl

theorem spanned {p q : Parser Form} (h : InStep (· + P.shift) (P.Same (k + 1) d) (P.Same k d) p q) :
    InStep (· + P.shift) (P.Same (k + 1) d) (P.Same k d) (spanned p) (spanned q) :=
  .bind .position fun _ => .bind h fun _ => .bind .position fun _ => .pure rfl

theorem wholeAtom (h : P.Agree k later later') :
    InStep (· + P.shift) (P.Same (k + 1) d) (P.Same k d) (Grammar.atom later)
      (Grammar.atom later') :=
  .orElse h.parenthesized <| .orElse h.classLiteral <| .orElse h.block <|
    .orElse (spanned h.newObject) (spanned h.simple)

theorem suffix (h : P.Agree k later later') (start : Nat) (target : Expr) :
    InStep (· + P.shift) (P.Same (k + 1) d) (P.Same k d) (suffix later start target)
      (suffix later' (start + P.shift) (moved (· + P.shift) target)) := by
  refine .orElse (.bind (.toAt (.same (.mark (by simp)))) fun _ => .bind .blanks fun _ =>
    .bind (.commaList fun _ hj => (h.mono hj).argument) fun args =>
        .bind (.mark_le (by simp)) fun _ =>
    .bind .position fun stop => .pure (moved_apps (· + P.shift) ⟨_, _⟩ target args).symm) ?_
  exact .bind (.toAt (.same (.mark (by simp)))) fun _ => .bind .identifier_le fun _ =>
    .bind .position fun _ => .pure rfl

theorem suffixes (h : P.Agree k later later') (start : Nat) (target : Expr) {n m : Nat}
    (hn : k ≤ n) (hm : k ≤ m) :
    InStep (· + P.shift) (P.Same k d) (P.Same k d) (suffixes later start n target)
      (suffixes later' (start + P.shift) m (moved (· + P.shift) target)) := by
  induction k generalizing target n m with
  | zero => exact fun c c' hc => absurd hc.lt (Nat.not_lt_zero _)
  | succ k ih =>
    obtain ⟨n, rfl⟩ : ∃ i, n = i + 1 := ⟨n - 1, by omega⟩
    obtain ⟨m, rfl⟩ : ∃ i, m = i + 1 := ⟨m - 1, by omega⟩
    have h' := h.mono (Nat.le_succ k)
    refine .orElse (.bind (h'.suffix start target) fun e => ?_) (.pure rfl)
    exact .mono (ih h' e (n := n) (m := m) (by omega) (by omega)) (fun _ _ hc => hc) fun _ _ hc =>
      hc.mono (Nat.le_succ k)

theorem spine {atom atom' : Parser Expr} (h : P.Agree k later later')
    (hatom : InStep (· + P.shift) (P.Same (k + 1) d) (P.Same k d) atom atom') :
    InStep (· + P.shift) (P.Same (k + 1) d) (P.Same k d) (spine later atom)
      (spine later' atom') := by
  refine .bind .position fun start => .bind hatom fun target => fun c c' hc => ?_
  have hlength : c.rest.length ≤ c'.rest.length := by rw [hc.rest, List.length_append]; omega
  have hlt := hc.lt
  have hsuffixes :=
    (h.mono (j := c.rest.length + 1) hlt).suffixes (d := d) start target (Nat.le_refl _)
    (m := c'.rest.length + 1) (by omega)
  exact (hsuffixes c c' { hc with lt := Nat.lt_succ_self _ }).mono fun _ _ hc' => hc'.mono hlt

theorem boundArrow (h : P.Agree k later later') :
    InStep (· + P.shift) (P.Same (k + 1) d) (P.Same k d) (boundArrow later) (boundArrow later') :=
  .bind .position fun _ => .bind (.toAt (.same (.mark (by simp)))) fun _ => .bind .blanks fun _ =>
    .bind (.commaList1 fun _ hj => (h.mono hj).piBinder) fun binders =>
        .bind (.toAt (.mark_le (by simp))) fun _ =>
    .bind (.after h.expr_le (by simp)) fun codomain => .bind .position fun _ =>
    .pure (moved_pis (· + P.shift) ⟨_, _⟩ binders codomain).symm

theorem arrow {spine spine' : Parser Expr} (h : P.Agree k later later')
    (hspine : InStep (· + P.shift) (P.Same (k + 1) d) (P.Same k d) spine spine') :
    InStep (· + P.shift) (P.Same (k + 1) d) (P.Same k d) (arrow later spine)
      (arrow later' spine') :=
  .bind .position fun _ => .bind (.toAt hspine) fun domain =>
      .bind (.after h.expr_le (by simp)) fun codomain =>
    .bind .position fun _ =>
      .pure (moved_pis (· + P.shift) ⟨_, _⟩ [(.explicit, Name.anonymous, domain)] codomain).symm

theorem parameters (h : P.Agree k later later') :
    InStep (· + P.shift) (P.Same (k + 1) d) (P.Same k d) (parameters later) (parameters later') :=
  .bind (.toAt (.same (.mark (by simp)))) fun _ => .bind .blanks fun _ =>
    .bind (.commaList1 fun _ hj => (h.mono hj).fnBinder) fun _ =>
      .bind (.mark_le (by simp)) fun _ => .pure rfl

theorem function (h : P.Agree k later later') :
    InStep (· + P.shift) (P.Same (k + 1) d) (P.Same k d) (function later) (function later') :=
  .orElse
    (.bind .position fun _ => .bind (.toAt h.parameters) fun binders =>
    .bind (.after (.toAt h.expr_le) (by simp)) fun type =>
      .bind (.after h.expr_le (by simp)) fun body => .bind .position fun _ =>
      .pure (moved_typedFns (· + P.shift) ⟨_, _⟩ binders type body).symm)
    (.bind .position fun _ => .bind (.toAt h.parameters) fun binders =>
        .bind (.after h.expr_le (by simp)) fun body =>
      .bind .position fun _ => .pure (moved_fns (· + P.shift) ⟨_, _⟩ binders body).symm)

theorem sigma (h : P.Agree k later later') :
    InStep (· + P.shift) (P.Same (k + 1) d) (P.Same k d) (sigma later) (sigma later') :=
  .bind .position fun _ => .bind (.toAt (.same (.word (by simp)))) fun _ => .bind .blanks fun _ =>
    .bind (.toAt (.mark_le (by simp))) fun _ => .bind .blanks fun _ =>
    .bind (.commaList1 fun _ hj => (h.mono hj).sigmaBinder) fun binders =>
        .bind (.toAt (.mark_le (by simp))) fun _ =>
    .bind .blanks fun _ => .bind h.expr_le fun cdrType => .bind .position fun _ =>
    .pure (moved_sigmas (· + P.shift) ⟨_, _⟩ binders cdrType).symm

theorem wholeExpr {spine spine' : Parser Expr} (h : P.Agree k later later')
    (hspine : InStep (· + P.shift) (P.Same (k + 1) d) (P.Same k d) spine spine') :
    InStep (· + P.shift) (P.Same (k + 1) d) (P.Same k d) (Grammar.expr later spine)
      (Grammar.expr later' spine') :=
  .orElse h.boundArrow <| .orElse (h.arrow hspine) <| .orElse h.function <| .orElse h.sigma hspine

theorem equation (h : P.Agree k later later') {j : Nat} (hj : j < k) :
    InStep (· + P.shift) (P.At (j + 1) d) (P.Same j d) (equation later) (equation later') :=
  have hle := h.mono (Nat.le_of_lt hj)
  .bind (h.expr hj) fun _ => .bind (.same (.after hle.expr_le (by simp))) fun _ =>
    .bind hle.annotation fun _ => .pure rfl

theorem statement (h : P.Agree k later later') :
    InStep (· + P.shift) (P.Same (k + 1) d) (P.Same k d) (statement later) (statement later') := by
  have hequations : InStep (· + P.shift) (P.At k (d + 1)) (P.At k (d + 1))
      (Parser.sepBy (Grammar.equation later) Lexeme.blanks)
      (Parser.sepBy (Grammar.equation later') Lexeme.blanks) := .sepBy
    (.le fun j hj => h.equation hj) fun j hj => .same (.bind .blanks fun _ => h.equation hj)
  have hword {text : String} (hne : text.toList ≠ []) (hplain : text.toList.all isPlain) :=
    InStep.toAt (InStep.keyword (P := P) (k := k) (d := d) hne hplain)
  refine .orElse ?_ <| .orElse ?_ <| .orElse ?_ ?_
  · exact .bind (hword (by decide) (by decide)) fun _ => .bind .blanks fun _ =>
        .bind .identifier_le fun _ =>
      .bind h.annotation fun _ => .bind (.same (.after h.expr_le (by simp))) fun _ => .pure rfl
  · exact .bind (hword (by decide) (by decide)) fun _ => .bind .blanks fun _ =>
        .bind h.expr_le fun _ =>
      .bind (.same (.after h.expr_le (by simp))) fun _ => .pure rfl
  · exact .bind (hword (by decide) (by decide)) fun _ => .bind .blanks fun _ =>
      .bind h.expr_le fun _ => .pure rfl
  · exact .bind (.toAt (.literal (by decide) (by decide))) fun _ => .bind .blanks fun _ =>
      .bind (.toAt (.mark_le (by simp))) fun _ => .bind .blanks fun _ =>
      .bind (.commaList fun _ hj => (h.mono hj).typed .identifier_le) fun _ =>
          .bind (.toAt (.mark_le (by simp))) fun _ =>
      .bind .blanks fun _ => .bind (.toAt (.le fun _ _ => .opening)) fun _ => .bind .blanks fun _ =>
          .bind hequations fun _ =>
      .bind .blanks fun _ => .bind closing_le fun _ => .pure rfl

/-- The end of a whole source is also the end of its statements. -/
theorem statements (h : P.Agree k later later') (htail : P.tail = []) :
    InStep (· + P.shift) (P.At k d) (P.At k d) (statements later) (statements later') := by
  have hstatement (j : Nat) (hj : j < k) :
      InStep (· + P.shift) (P.At (j + 1) d) (P.Same j d) (Grammar.statement later)
      (Grammar.statement later') :=
    .mono (h.mono (Nat.le_of_lt hj)).statement (fun _ _ hc => hc.same_of_tail htail)
      fun _ _ hc => hc
  exact .bind .blanks fun _ =>
      .bind (.sepBy (.le hstatement) fun j hj => .same (.bind .blanks fun _ => hstatement j hj))
          fun _ =>
    .bind .blanks fun _ => .pure rfl

end Placement.Agree

end DependentClasses
