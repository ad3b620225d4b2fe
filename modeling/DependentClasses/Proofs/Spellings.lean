import DependentClasses.Proofs.Parts
import DependentClasses.Proofs.Subexpressions
import DependentClasses.Proofs.TextReadings
import DependentClasses.Term.Printer

/-! Terms that can be written down, and the expressions that their texts are meant to be. -/
namespace DependentClasses

open Lexeme
open Form (bare)
open DependentClasses.Parser (Reads Refuses)

theorem Lexeme.afterBlanks_word {w : List Char} (hw : ∀ c ∈ w, isWordChar c) (hne : w ≠ [])
    (r : List Char) :
    afterBlanks (w ++ r) = w ++ r := by
  obtain _ | ⟨c, w⟩ := w
  · exact absurd rfl hne
  · obtain ⟨hblank, hslash, -⟩ := not_isBlank_of_isWordChar (hw c List.mem_cons_self)
    exact afterBlanks_cons hblank hslash _

theorem Lexeme.ne_of_isIdentifier {w : List Char} (h : isIdentifier w) {text : String}
    (htext : text ∈ reserved) :
    w ≠ text.toList := by
  rintro rfl
  revert h
  unfold isIdentifier
  split
  · simp
  · simp [htext]

theorem Lexeme.not_isIdentifier {text : String} (htext : text ∈ reserved) :
    isIdentifier text.toList = false :=
  Bool.eq_false_iff.2 fun h => ne_of_isIdentifier h htext rfl

theorem Lexeme.word_text {text : String} {r : List Char} (hr : word r = []) (htext : text ∈ words) :
    word (text.toList ++ r) = text.toList :=
  word_append (words_spec text htext).1 hr

theorem Lexeme.afterBlanks_keyword {text : String} (r : List Char) (htext : text ∈ words) :
    afterBlanks (text.toList ++ r) = text.toList ++ r :=
  afterBlanks_word (words_spec text htext).1 (words_spec text htext).2 r

namespace Name

/-- The name can be read: it has no subscript, and its symbol is an identifier. -/
def Written (x : Name) : Prop := x.subscript = 0 ∧ (∀ c ∈ x.symbol.toList, isWordChar c) ∧
  isIdentifier x.symbol.toList

instance (x : Name) : Decidable x.Written :=
  decidable_of_iff (x.subscript = 0 ∧ x.symbol.toList.all isWordChar ∧
      isIdentifier x.symbol.toList) (by
    rw [List.all_eq_true]
    rfl)

section
variable {x : Name} {r : List Char}

theorem Written.text_eq (h : x.Written) : x.text = x.symbol := if_pos h.1

theorem Written.word_eq (h : x.Written) (hr : word r = []) :
    word (x.text.toList ++ r) = x.symbol.toList := by
  rw [h.text_eq, word_append h.2.1 hr]

theorem Written.ne_nil (h : x.Written) : x.symbol.toList ≠ [] := by
  intro hnil
  have := h.2.2
  rw [hnil] at this
  cases this

theorem Written.identifier_reads (h : x.Written) (hr : word r = []) :
    Reads identifier (x.text.toList ++ r) r x := by
  have hreads := Lexeme.identifier_reads h.2.1 h.2.2 hr
  rw [String.ofList_toList] at hreads
  obtain ⟨symbol, subscript⟩ := x
  obtain rfl : subscript = 0 := h.1
  exact hreads

theorem binder_reads (h : x.Written ∨ x = anonymous) (hr : word r = []) :
    Reads binder (x.text.toList ++ r) r x := by
  rcases h with h | rfl
  · exact .orElse_left (h.identifier_reads hr)
  · refine .orElse_right (identifier_refuses ?_) ?_
    · rw [show anonymous.text = "_" from rfl, word_text hr List.mem_cons_self]
      rfl
    · exact .bind (keyword_reads "_" hr) fun _ _ => .pure anonymous r

theorem afterBlanks_text (h : x.Written ∨ x = anonymous) (r : List Char) :
    afterBlanks (x.text.toList ++ r) = x.text.toList ++ r := by
  rcases h with h | rfl
  · rw [h.text_eq, afterBlanks_word h.2.1 h.ne_nil]
  · exact afterBlanks_keyword r (List.mem_cons_self : "_" ∈ words)

end

end Name

namespace Term

mutual

/-- The term can be read back from its text. What is printed of a binder is a name or, where the
language allows it, an underscore; quoted texts end where they should; classes go on with classes,
and have distinct labels. -/
def Printable : Term → Prop
  | .var x => x.Written
  | .pi .explicit x domain codomain =>
    (x ∈ codomain.freeNames → x.Written) ∧ domain.Printable ∧ codomain.Printable
  | .pi .implicit x domain codomain => x.Written ∧ domain.Printable ∧ codomain.Printable
  | .fn .explicit x domain body => (x.Written ∨ x = .anonymous) ∧ domain.Printable ∧ body.Printable
  | .fn .implicit x domain body => x.Written ∧ domain.Printable ∧ body.Printable
  | .app _ target arg => target.Printable ∧ arg.Printable
  | .sigma x carType cdrType =>
    (x ∈ cdrType.freeNames → x.Written) ∧ carType.Printable ∧ cdrType.Printable
  | .cons a b => a.Printable ∧ b.Printable
  | .car pair => pair.Printable
  | .cdr pair => pair.Printable
  | .quote text => Expected.quotationMark ∉ text.toList
  | .equal ty left right => ty.Printable ∧ left.Printable ∧ right.Printable
  | .same value => value.Printable
  | .declared label _ ty rest =>
    label.Written ∧ label ∉ rest.classLabels ∧ rest.IsClass ∧ ty.Printable ∧ rest.Printable
  | .fulfilled label _ ty value rest =>
    label.Written ∧ label ∉ rest.classLabels ∧ rest.IsClass ∧ ty.Printable ∧
      value.Printable ∧ rest.Printable
  | .object fields => FieldsPrintable fields
  | .dot target label => target.Printable ∧ label.Written
  | .letIn x ty value body =>
    (x.Written ∨ x = .anonymous) ∧ ty.Printable ∧ value.Printable ∧ body.Printable
  | .type | .string | .trivial | .sole | .emptyClass => True

def FieldsPrintable : List (Name × Term) → Prop
  | [] => True
  | (label, value) :: fields => label.Written ∧ value.Printable ∧ FieldsPrintable fields

end

instance : (t : Term) → Decidable t.IsClass
  | .emptyClass | .declared .. | .fulfilled .. => isTrue ⟨⟩
  | .var _ | .type | .pi .. | .fn .. | .app .. | .sigma .. | .cons .. | .car _ | .cdr
      _ | .string | .quote _ | .trivial | .sole
  | .equal .. | .same _ | .object _ | .dot .. | .letIn .. => isFalse id

mutual

def decidePrintable : (t : Term) → Decidable t.Printable
  | .var x => inferInstanceAs (Decidable x.Written)
  | .pi .explicit x a b | .sigma x a b =>
    have := a.decidePrintable
    have := b.decidePrintable
    inferInstanceAs (Decidable ((x ∈ b.freeNames → x.Written) ∧ a.Printable ∧ b.Printable))
  | .pi .implicit x a b | .fn .implicit x a b =>
    have := a.decidePrintable
    have := b.decidePrintable
    inferInstanceAs (Decidable (x.Written ∧ a.Printable ∧ b.Printable))
  | .fn .explicit x a b =>
    have := a.decidePrintable
    have := b.decidePrintable
    inferInstanceAs (Decidable ((x.Written ∨ x = .anonymous) ∧ a.Printable ∧ b.Printable))
  | .app _ a b | .cons a b =>
    have := a.decidePrintable
    have := b.decidePrintable
    inferInstanceAs (Decidable (a.Printable ∧ b.Printable))
  | .car a | .cdr a | .same a => a.decidePrintable
  | .quote text => inferInstanceAs (Decidable (Expected.quotationMark ∉ text.toList))
  | .equal a b c =>
    have := a.decidePrintable
    have := b.decidePrintable
    have := c.decidePrintable
    inferInstanceAs (Decidable (a.Printable ∧ b.Printable ∧ c.Printable))
  | .declared label _ a c =>
    have := a.decidePrintable
    have := c.decidePrintable
    inferInstanceAs (Decidable (label.Written ∧ label ∉ c.classLabels ∧ c.IsClass ∧
      a.Printable ∧ c.Printable))
  | .fulfilled label _ a b c =>
    have := a.decidePrintable
    have := b.decidePrintable
    have := c.decidePrintable
    inferInstanceAs (Decidable (label.Written ∧ label ∉ c.classLabels ∧ c.IsClass ∧ a.Printable ∧
      b.Printable ∧ c.Printable))
  | .object fields => decideFieldsPrintable fields
  | .dot a label =>
    have := a.decidePrintable
    inferInstanceAs (Decidable (a.Printable ∧ label.Written))
  | .letIn x a b c =>
    have := a.decidePrintable
    have := b.decidePrintable
    have := c.decidePrintable
    inferInstanceAs
      (Decidable ((x.Written ∨ x = .anonymous) ∧ a.Printable ∧ b.Printable ∧ c.Printable))
  | .type | .string | .trivial | .sole | .emptyClass => isTrue ⟨⟩

def decideFieldsPrintable : (fields : List (Name × Term)) → Decidable (FieldsPrintable fields)
  | [] => isTrue ⟨⟩
  | (label, value) :: fields =>
    have := value.decidePrintable
    have := decideFieldsPrintable fields
    inferInstanceAs (Decidable (label.Written ∧ value.Printable ∧ FieldsPrintable fields))

end

instance (t : Term) : Decidable t.Printable := t.decidePrintable

mutual

/-- The expression that a term is written as, at no place. A binder of an explicit function type or
of a pair type is left out where it is not mentioned. -/
def surface : Term → Expr
  | .var x => bare (.var x)
  | .type => bare .type
  | .pi .explicit x domain codomain =>
    bare (.pi .explicit (if x ∈ codomain.freeNames then x else .anonymous) domain.surface
      codomain.surface)
  | .pi .implicit x domain codomain => bare (.pi .implicit x domain.surface codomain.surface)
  | .fn p x domain body => bare (.fn p x (some domain.surface) body.surface)
  | .app p target arg => bare (.app p target.surface arg.surface)
  | .sigma x carType cdrType =>
    bare (.sigma (if x ∈ cdrType.freeNames then x else .anonymous) carType.surface cdrType.surface)
  | .cons a b => bare (.cons a.surface b.surface)
  | .car pair => bare (.car pair.surface)
  | .cdr pair => bare (.cdr pair.surface)
  | .string => bare .string
  | .quote text => bare (.quote text)
  | .trivial => bare .trivial
  | .sole => bare .sole
  | .equal ty left right => bare (.equal ty.surface left.surface right.surface)
  | .same value => bare (.same value.surface)
  | .emptyClass => bare (.classOf [])
  | .declared label _ ty rest => bare (.classOf (.declared label ty.surface :: surfaceMembers rest))
  | .fulfilled label _ ty value rest =>
    bare (.classOf (.fulfilled label (some ty.surface) value.surface :: surfaceMembers rest))
  | .object fields => bare (.object (surfaceFields fields))
  | .dot target label => bare (.dot target.surface label)
  | .letIn x ty value body => bare (.letIn x (some ty.surface) value.surface body.surface)

def surfaceMembers : Term → List Member
  | .declared label _ ty rest => .declared label ty.surface :: surfaceMembers rest
  | .fulfilled label _ ty value rest =>
    .fulfilled label (some ty.surface) value.surface :: surfaceMembers rest
  | _ => []

def surfaceFields : List (Name × Term) → List (Name × Expr)
  | [] => []
  | (label, value) :: fields => (label, value.surface) :: surfaceFields fields

end

def textBefore (operand : Bool) (t : Term) (r : List Char) : List Char :=
  (t.textAs operand).toList ++ r

def bracedBefore (items : List String) (r : List Char) : List Char := (braced items).toList ++ r

def commasBefore : List String → List Char → List Char
  | [], r => r
  | item :: items, r => ',' :: ' ' :: (item.toList ++ commasBefore items r)

theorem toList_intercalate (item : String) (items : List String) (r : List Char) :
    (", ".intercalate (item :: items)).toList ++ r = item.toList ++ commasBefore items r := by
  induction items generalizing item with
  | nil => simp [commasBefore]
  | cons next items ih =>
    rw [commasBefore, ← ih next]
    simp

theorem bracedBefore_cons (item : String) (items : List String) (r : List Char) :
    bracedBefore (item :: items) r = '\x7b' :: ' ' ::
      (item.toList ++ commasBefore items (' ' :: '\x7d' :: r)) := by
  rw [← toList_intercalate]
  simp only [bracedBefore, braced, String.toList_append, List.append_assoc]
  rfl

section
variable (operand : Bool) (x label : Name) (t a b c : Term) (r : List Char)

theorem textBefore_var : (var x).textBefore operand r = x.text.toList ++ r := rfl

theorem textBefore_type : type.textBefore operand r = "Type".toList ++ r := rfl

theorem textBefore_string : string.textBefore operand r = "String".toList ++ r := rfl

theorem textBefore_trivial : trivial.textBefore operand r = "Trivial".toList ++ r := rfl

theorem textBefore_sole : sole.textBefore operand r = "sole".toList ++ r := rfl

theorem textBefore_pi_used (h : x ∈ b.freeNames) : (pi .explicit x a b).textBefore false r =
    '(' :: (x.text.toList ++ ':' :: ' ' :: a.textBefore false (')' :: ' ' :: '-' :: '>' :: ' ' ::
      b.textBefore false r)) := by
  change (if x ∈ b.freeNames then _ else _ : String).toList ++ r = _
  rw [if_pos h]
  simp only [String.toList_append, List.append_assoc]
  rfl

theorem textBefore_pi_unused (h : x ∉ b.freeNames) : (pi .explicit x a b).textBefore false r =
    a.textBefore true (' ' :: '-' :: '>' :: ' ' :: b.textBefore false r) := by
  change (if x ∈ b.freeNames then _ else _ : String).toList ++ r = _
  rw [if_neg h]
  simp only [String.toList_append, List.append_assoc]
  rfl

theorem textBefore_pi_implicit : (pi .implicit x a b).textBefore false r =
    '(' :: ("implicit".toList ++ ' ' :: (x.text.toList ++ ':' :: ' ' ::
      a.textBefore false (')' :: ' ' :: '-' :: '>' :: ' ' :: b.textBefore false r))) := by
  change (_ ++ _ ++ _ ++ _ ++ _ ++ _ : String).toList ++ r = _
  simp only [String.toList_append, List.append_assoc]
  rfl

theorem textBefore_fn_explicit : (fn .explicit x a b).textBefore false r =
    '(' :: (x.text.toList ++ ':' :: ' ' :: a.textBefore false (')' :: ' ' :: '=' :: '>' :: ' ' ::
      b.textBefore false r)) := by
  change (_ ++ _ ++ _ ++ _ ++ _ ++ _ : String).toList ++ r = _
  simp only [String.toList_append, List.append_assoc]
  rfl

theorem textBefore_fn_implicit : (fn .implicit x a b).textBefore false r =
    '(' :: ("implicit".toList ++ ' ' :: (x.text.toList ++ ':' :: ' ' ::
      a.textBefore false (')' :: ' ' :: '=' :: '>' :: ' ' :: b.textBefore false r))) := by
  change (_ ++ _ ++ _ ++ _ ++ _ ++ _ : String).toList ++ r = _
  simp only [String.toList_append, List.append_assoc]
  rfl

theorem textBefore_app_explicit : (app .explicit a b).textBefore operand r =
    a.textBefore true ('(' :: b.textBefore false (')' :: r)) := by
  change (_ ++ _ ++ _ ++ _ : String).toList ++ r = _
  simp only [String.toList_append, List.append_assoc]
  rfl

theorem textBefore_app_implicit : (app .implicit a b).textBefore operand r =
    a.textBefore true ('(' :: ("implicit".toList ++ ' ' :: b.textBefore false (')' :: r))) := by
  change (_ ++ _ ++ _ ++ _ : String).toList ++ r = _
  simp only [String.toList_append, List.append_assoc]
  rfl

theorem textBefore_sigma_used (h : x ∈ b.freeNames) : (sigma x a b).textBefore false r =
    "exists".toList ++ ' ' :: '(' ::
      (x.text.toList ++ ':' :: ' ' :: a.textBefore false (')' :: ' ' :: b.textBefore false r)) := by
  change ((if x ∈ b.freeNames then _ else _) ++ _ ++ _ ++ _ : String).toList ++ r = _
  rw [if_pos h]
  simp only [String.toList_append, List.append_assoc]
  rfl

theorem textBefore_sigma_unused (h : x ∉ b.freeNames) : (sigma x a b).textBefore false r =
    "exists".toList ++ ' ' :: '(' :: a.textBefore false (')' :: ' ' :: b.textBefore false r) := by
  change ((if x ∈ b.freeNames then _ else _) ++ _ ++ _ ++ _ : String).toList ++ r = _
  rw [if_neg h]
  simp only [String.toList_append, List.append_assoc]
  rfl

theorem textBefore_cons : (cons a b).textBefore operand r =
    "cons".toList ++ '(' :: a.textBefore false (',' :: ' ' :: b.textBefore false (')' :: r)) := by
  change (_ ++ _ ++ _ ++ _ ++ _ : String).toList ++ r = _
  simp only [String.toList_append, List.append_assoc]
  rfl

theorem textBefore_car :
    (car a).textBefore operand r = "car".toList ++ '(' :: a.textBefore false (')' :: r) := by
  change (_ ++ _ ++ _ : String).toList ++ r = _
  simp only [String.toList_append, List.append_assoc]
  rfl

theorem textBefore_cdr :
    (cdr a).textBefore operand r = "cdr".toList ++ '(' :: a.textBefore false (')' :: r) := by
  change (_ ++ _ ++ _ : String).toList ++ r = _
  simp only [String.toList_append, List.append_assoc]
  rfl

theorem textBefore_equal : (equal a b c).textBefore operand r =
    "Equal".toList ++ '(' :: a.textBefore false (',' :: ' ' ::
      b.textBefore false (',' :: ' ' :: c.textBefore false (')' :: r))) := by
  change (_ ++ _ ++ _ ++ _ ++ _ ++ _ ++ _ : String).toList ++ r = _
  simp only [String.toList_append, List.append_assoc]
  rfl

theorem textBefore_same :
    (same a).textBefore operand r = "same".toList ++ '(' :: a.textBefore false (')' :: r) := by
  change (_ ++ _ ++ _ : String).toList ++ r = _
  simp only [String.toList_append, List.append_assoc]
  rfl

theorem textBefore_quote (text : String) :
    (quote text).textBefore operand r = '"' :: (text.toList ++ '"' :: r) := by
  change (_ ++ _ ++ _ : String).toList ++ r = _
  simp only [String.toList_append, List.append_assoc]
  rfl

theorem textBefore_class (h : t.IsClass) :
    t.textBefore operand r = "class".toList ++ ' ' :: bracedBefore t.memberTexts r := by
  cases t with
  | emptyClass | declared | fulfilled =>
    change (_ ++ _ : String).toList ++ r = _
    simp only [String.toList_append, List.append_assoc]
    rfl
  | _ => cases h

theorem textBefore_object (fields : List (Name × Term)) :
    (object fields).textBefore operand r = bracedBefore (fieldTexts fields) r := rfl

theorem textBefore_dot :
    (dot a label).textBefore operand r = a.textBefore true ('.' :: (label.text.toList ++ r)) := by
  change (_ ++ _ ++ _ : String).toList ++ r = _
  simp only [String.toList_append, List.append_assoc]
  rfl

theorem textBefore_letIn : (letIn x a b c).textBefore false r =
    '\x7b' :: ' ' ::
      ("let".toList ++ ' ' ::
        (x.text.toList ++ ':' :: ' ' :: a.textBefore false (' ' :: '=' :: ' ' ::
      b.textBefore false
        (' ' :: ("return".toList ++ ' ' :: c.textBefore false (' ' :: '\x7d' :: r)))))) := by
  change (_ ++ _ ++ _ ++ _ ++ _ ++ _ ++ _ ++ _ ++ _ : String).toList ++ r = _
  simp only [String.toList_append, List.append_assoc]
  rfl

/-- Function types, functions, pair types and definitions stand in parentheses as operands. -/
def IsCompound : Term → Prop
  | .pi .. | .fn .. | .sigma .. | .letIn .. => True
  | _ => False

theorem textBefore_parens (h : t.IsCompound) :
    t.textBefore true r = '(' :: t.textBefore false (')' :: r) := by
  have hparens (s : String) : (parens true s).toList ++ r = '(' ::
      ((parens false s).toList ++ ')' :: r) := by
    simp only [parens, if_true, Bool.false_eq_true, if_false, String.toList_append,
      List.append_assoc]
    rfl
  cases t with
  | pi p | fn p => cases p <;> exact hparens _
  | sigma | letIn => exact hparens _
  | _ => cases h

end

end Term

/-- The text starts like an expression, and not like a binder. If it starts with an identifier, what
follows that is none of `stops`. -/
structure OpensExpression (stops s : List Char) : Prop where
  blanks : afterBlanks s = s
  implicit : word s ≠ "implicit".toList
  anonymous : word s ≠ "_".toList
  named : isIdentifier (word s) → ∀ c ∈ stops, (afterBlanks (s.drop (word s).length)).head? ≠ some c

namespace OpensExpression

variable {stops s r : List Char}

/-- No word starts with a mark. -/
theorem of_mark {c : Char} (s : List Char) (hword : isWordChar c = false)
    (hblank : isBlank c = false) (hslash : c ≠ '/') :
    OpensExpression stops (c :: s) := by
  have hnil := word_cons_of_not hword s
  refine ⟨afterBlanks_cons hblank hslash s, ?_, ?_, ?_⟩
  · rw [hnil]; decide
  · rw [hnil]; decide
  · rw [hnil]; exact fun h => by cases h

theorem paren (s : List Char) : OpensExpression stops ('(' :: s) := .of_mark s rfl rfl (by simp)

theorem brace (s : List Char) : OpensExpression stops ('\x7b' :: s) := .of_mark s rfl rfl (by simp)

theorem quote (s : List Char) : OpensExpression stops ('"' :: s) := .of_mark s rfl rfl (by simp)

theorem of_word {w : List Char} (hw : ∀ c ∈ w, isWordChar c) (hne : w ≠ [])
    (himplicit : w ≠ "implicit".toList) (hanonymous : w ≠ "_".toList) (hr : word r = [])
    (h : isIdentifier w → ∀ c ∈ stops, (afterBlanks r).head? ≠ some c) :
    OpensExpression stops (w ++ r) := by
  have hword := word_append hw hr
  refine ⟨afterBlanks_word hw hne r, by rwa [hword], by rwa [hword], ?_⟩
  rw [hword, List.drop_left]
  exact h

/-- A word of the language is no identifier. -/
theorem of_keyword (text : String) (hr : word r = [])
    (htext : text ∈ reserved ∧ text ≠ "implicit") :
    OpensExpression stops (text.toList ++ r) := by
  obtain ⟨htext, himplicit⟩ := htext
  obtain ⟨hw, hne⟩ := words_spec text (List.mem_cons_of_mem _ htext)
  refine of_word hw hne (fun heq => himplicit (String.toList_inj.1 heq)) ?_ hr fun h => ?_
  · intro heq
    cases String.toList_inj.1 heq
    revert htext
    decide
  · rw [not_isIdentifier htext] at h
    cases h

theorem of_name {x : Name} (hx : x.Written) (hr : word r = [])
    (h : ∀ c ∈ stops, (afterBlanks r).head? ≠ some c) :
    OpensExpression stops (x.text.toList ++ r) := by
  rw [hx.text_eq]
  refine of_word hx.2.1 hx.ne_nil (ne_of_isIdentifier hx.2.2 (by decide)) ?_ hr fun _ => h
  intro heq
  have hident := hx.2.2
  rw [heq] at hident
  revert hident
  decide

end OpensExpression

namespace Term

theorem opens_parens {stops : List Char} {t : Term} (r : List Char) (h : t.IsCompound) :
    OpensExpression stops (t.textBefore true r) := by
  rw [textBefore_parens t r h]
  exact .paren _

theorem opens_class {stops : List Char} {t : Term} (operand : Bool) (r : List Char)
    (h : t.IsClass) :
    OpensExpression stops (t.textBefore operand r) := by
  rw [textBefore_class operand t r h]
  exact .of_keyword "class" rfl (by simp [reserved])

/-- The text of a term starts like an expression. -/
theorem opens {stops : List Char} (hstops : '(' ∉ stops ∧ '.' ∉ stops ∧ '-' ∉ stops) :
    ∀ (t : Term), t.Printable →
    ∀ (operand : Bool) (r : List Char), word r = [] →
    (¬ t.IsCompound → ∀ c ∈ stops, (afterBlanks r).head? ≠ some c) →
    OpensExpression stops (t.textBefore operand r)
  | .var x, ht, operand, r, hr, hstop => .of_name (by simpa [Printable] using ht) hr (hstop id)
  | .type, _, operand, r, hr, _ => .of_keyword "Type" hr (by simp [reserved])
  | .string, _, operand, r, hr, _ => .of_keyword "String" hr (by simp [reserved])
  | .trivial, _, operand, r, hr, _ => .of_keyword "Trivial" hr (by simp [reserved])
  | .sole, _, operand, r, hr, _ => .of_keyword "sole" hr (by simp [reserved])
  | .quote text, _, operand, r, _, _ => by rw [textBefore_quote]; exact .quote _
  | .pi .explicit x a b, ht, true, r, _, _ => opens_parens r ⟨⟩
  | .pi .explicit x a b, ht, false, r, _, _ => by
    by_cases hx : x ∈ b.freeNames
    · rw [textBefore_pi_used x a b r hx]
      exact .paren _
    · rw [textBefore_pi_unused x a b r hx]
      refine opens hstops a ht.2.1 true _ rfl fun _ c hc heq => ?_
      cases heq
      exact hstops.2.2 hc
  | .pi .implicit x a b, _, true, r, _, _ => opens_parens r ⟨⟩
  | .pi .implicit x a b, _, false, r, _, _ => by rw [textBefore_pi_implicit]; exact .paren _
  | .fn p x a b, _, true, r, _, _ => opens_parens r ⟨⟩
  | .fn .explicit x a b, _, false, r, _, _ => by rw [textBefore_fn_explicit]; exact .paren _
  | .fn .implicit x a b, _, false, r, _, _ => by rw [textBefore_fn_implicit]; exact .paren _
  | .app .explicit a b, ht, operand, r, _, _ => by
    rw [textBefore_app_explicit]
    refine opens hstops a ht.1 true _ rfl fun _ c hc heq => ?_
    cases heq
    exact hstops.1 hc
  | .app .implicit a b, ht, operand, r, _, _ => by
    rw [textBefore_app_implicit]
    refine opens hstops a ht.1 true _ rfl fun _ c hc heq => ?_
    cases heq
    exact hstops.1 hc
  | .sigma x a b, _, true, r, _, _ => opens_parens r ⟨⟩
  | .sigma x a b, _, false, r, _, _ => by
    by_cases hx : x ∈ b.freeNames
    · rw [textBefore_sigma_used x a b r hx]
      exact .of_keyword "exists" rfl (by simp [reserved])
    · rw [textBefore_sigma_unused x a b r hx]
      exact .of_keyword "exists" rfl (by simp [reserved])
  | .cons a b, _, operand, r, _, _ =>
    by rw [textBefore_cons]; exact .of_keyword "cons" rfl (by simp [reserved])
  | .car a, _, operand, r, _, _ =>
    by rw [textBefore_car]; exact .of_keyword "car" rfl (by simp [reserved])
  | .cdr a, _, operand, r, _, _ =>
    by rw [textBefore_cdr]; exact .of_keyword "cdr" rfl (by simp [reserved])
  | .equal a b c, _, operand, r, _, _ =>
    by rw [textBefore_equal]; exact .of_keyword "Equal" rfl (by simp [reserved])
  | .same a, _, operand, r, _, _ =>
    by rw [textBefore_same]; exact .of_keyword "same" rfl (by simp [reserved])
  | .emptyClass, _, operand, r, _, _ => opens_class operand r ⟨⟩
  | .declared .., _, operand, r, _, _ => opens_class operand r ⟨⟩
  | .fulfilled .., _, operand, r, _, _ => opens_class operand r ⟨⟩
  | .object fields, _, operand, r, _, _ => by
    rw [textBefore_object]
    cases fieldTexts fields with
    | nil => exact .brace _
    | cons item items => rw [bracedBefore_cons]; exact .brace _
  | .dot a label, ht, operand, r, _, _ => by
    rw [textBefore_dot]
    refine opens hstops a ht.1 true _ rfl fun _ c hc heq => ?_
    cases heq
    exact hstops.2.1 hc
  | .letIn x a b c, _, true, r, _, _ => opens_parens r ⟨⟩
  | .letIn x a b c, _, false, r, _, _ => by rw [textBefore_letIn]; exact .brace _

end Term

end DependentClasses
