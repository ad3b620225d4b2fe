import DependentClasses.Proofs.RuleReadings

/-! Terms are read back from their texts. Every form is printed so that the rule meant for it reads
it, whatever stands around it: as it is, or in parentheses where it is an operand. -/
namespace DependentClasses

open Lexeme Grammar
open Form (bare)
open DependentClasses.Parser (Reads Refuses)

namespace Grammar

variable {s r u v : List Char} {e a b : Expr} {x : Name}

/-- A spine that no rule before that of spines reads. -/
structure Spelled (s r : List Char) (e : Expr) : Prop where
  spine : Spine s r e
  parameters : Refuses (parameters places) s
  boundArrow : Refuses (boundArrow places) s
  pair : word s ≠ "exists".toList

/-- A spine, or any expression in parentheses. -/
inductive Operand : List Char → List Char → Expr → Prop
  | spelled {s r : List Char} {e : Expr} : Spelled s r e → Operand s r e
  | enclosed {u r : List Char} {e : Expr} : OpensExpression [':', ',', ')'] u →
      Reads exprAt u (')' :: r) e → Operand ('(' :: u) r e

theorem Spelled.of_atom (h : Reads (atom places) s r e) (hparen : s.head? ≠ some '(')
    (hpair : word s ≠ "exists".toList) :
    Spelled s r e :=
  ⟨.of_atom h, parameters_refuses_of_head hparen, boundArrow_refuses_of_head hparen, hpair⟩

theorem Spelled.of_word {form : Form} (h : Reads (simple places) s r form)
    (hother : ∀ text ∈ ["exists", "class", "new"], word s ≠ text.toList) (hne : word s ≠ []) :
    Spelled s r (bare form) := by
  refine .of_atom ?_ (head_ne_of_word hne rfl) (hother _ (by simp))
  exact atom_reads_simple h (head_ne_of_word hne rfl) (block_refuses (head_ne_of_word hne rfl))
    (hother _ (by simp)) (hother _ (by simp))

theorem Spelled.of_form {form : Form} (text : String) (htext : text ∈ constants ++ calls)
    (hu : word u = []) (h : Reads (simple places) (text.toList ++ u) r form) :
    Spelled (text.toList ++ u) r (bare form) := by
  obtain ⟨hword, hother⟩ := formWords_spec text htext
  have hw : word (text.toList ++ u) = text.toList := word_text hu hword
  have hne : word (text.toList ++ u) ≠ [] := by
    rw [hw]
    exact (words_spec text hword).2
  refine .of_word h (fun other hmem heq => hother ?_) hne
  rwa [String.toList_inj.1 (hw.symm.trans heq)]

/-- Where nothing follows, a spine is a whole expression. -/
theorem Spelled.expr (h : Spelled s r e) (hr : EndsHere r) : Reads exprAt s r e := by
  have hspine := spineAt_reads h.spine hr.call hr.dot
  refine exprAt_reads <| .orElse_right h.boundArrow <|
    .orElse_right (arrow_refuses hspine hr.arrow) <|
    .orElse_right (function_refuses h.parameters) <| .orElse_right (sigma_refuses h.pair) hspine

namespace Operand

theorem spine (h : Operand s r e) : Spine s r e := by
  cases h with
  | spelled h => exact h.spine
  | enclosed hu h => exact .of_atom (.orElse_left (parenthesized_reads hu.blanks h))

/-- With a suffix, an expression in parentheses is a spine. -/
theorem suffix {r' : List Char} {e' : Expr} (h : Operand s r e) (hsuffix : Suffixed (r, e) (r', e'))
    (hr : (afterBlanks r).head? ≠ some '-') : Spelled s r' e' := by
  refine ⟨h.spine.suffix hsuffix, ?_, ?_, ?_⟩
  · cases h with
    | spelled h => exact h.parameters
    | enclosed hu h => exact parameters_refuses hu (by simp)
  · cases h with
    | spelled h => exact h.boundArrow
    | enclosed hu h => exact boundArrow_refuses (piBinder_reads_type hu (by simp) h) hu.blanks hr
  · cases h with
    | spelled h => exact h.pair
    | enclosed hu h => exact fun heq => by cases heq

/-- An expression in parentheses may be taken for a binder without a name, which is the same before
an arrow. -/
theorem arrow (h : Operand s (' ' :: '-' :: '>' :: ' ' :: v) a) (hv : afterBlanks v = v)
    (hb : Reads exprAt v r b) :
    Reads exprAt s r (bare (.pi .explicit .anonymous a b)) := by
  have hspine := spineAt_reads h.spine (by simp) (by simp)
  cases h with
  | spelled h =>
    exact exprAt_reads <| .orElse_right h.boundArrow <| .orElse_left (arrow_reads hspine hv hb)
  | enclosed hu h =>
    exact exprAt_reads <|
      .orElse_left (boundArrow_reads (piBinder_reads_type hu (by simp) h) hu.blanks hv hb)

end Operand

theorem exprAt_refuses_of_word (text : String) (htext : text ∈ binderWords) (hne : text ≠ "exists")
    (hu : word u = []) :
    Refuses exprAt (text.toList ++ u) := by
  have hword := (binderWords_spec text htext).1
  have hw : word (text.toList ++ u) = text.toList := word_text hu hword
  have hparen : (text.toList ++ u).head? ≠ some '(' := by
    refine head_ne_of_word ?_ rfl
    rw [hw]
    exact (words_spec text hword).2
  have hspine :=
    spineAt_refuses (atom_refuses (.of_word hw htext) (.bind (mark_refuses hparen rfl)))
  exact exprAt_refuses <| .orElse (boundArrow_refuses_of_head hparen) <|
    .orElse (.position fun _ => .bind hspine) <|
    .orElse (function_refuses (parameters_refuses_of_head hparen)) <|
      .orElse (sigma_refuses (word_ne hw hne)) hspine

/-- A function is neither a function type nor a spine. -/
theorem exprAt_reads_function {p : Plicity}
    (hpi : Reads (piBinder places) u (')' :: ' ' :: '=' :: '>' :: ' ' :: v) (p, x, a))
    (hfn : Reads (fnBinder places) u (')' :: ' ' :: '=' :: '>' :: ' ' :: v) (p, x, some a))
    (hu : afterBlanks u = u) (hparen : Refuses (parenthesized places) ('(' :: u))
    (hv : afterBlanks v = v) (hb : Reads exprAt v r b) :
    Reads exprAt ('(' :: u) r (bare (.fn p x (some a) b)) := by
  have hspine := spineAt_refuses (atom_refuses (.of_paren u) hparen)
  refine exprAt_reads <| .orElse_right (boundArrow_refuses hpi hu ?_) <|
    .orElse_right (.position fun _ => .bind hspine) <|
    .orElse_left (function_reads (parameters_reads hfn hu) hv hb)
  exact fun heq => by cases heq

theorem exprAt_reads_sigma (hbinder : Reads (sigmaBinder places) u (')' :: ' ' :: v) (x, a))
    (hu : afterBlanks u = u) (hv : afterBlanks v = v) (hb : Reads exprAt v r b) :
    Reads exprAt ("exists".toList ++ ' ' :: '(' :: u) r (bare (.sigma x a b)) := by
  have hword : word ("exists".toList ++ ' ' :: '(' :: u) = "exists".toList :=
    word_text rfl (by simp [reserved])
  have hparen : ("exists".toList ++ ' ' :: '(' :: u).head? ≠ some '(' := fun heq => by cases heq
  have hspine :=
    spineAt_refuses
      (atom_refuses (.of_word hword (by simp [binderWords])) (.bind (mark_refuses hparen rfl)))
  exact exprAt_reads <| .orElse_right (boundArrow_refuses_of_head hparen) <|
    .orElse_right (.position fun _ => .bind hspine) <|
    .orElse_right (function_refuses (parameters_refuses_of_head hparen)) <|
      .orElse_left (sigma_reads hbinder hu hv hb)

end Grammar

namespace Term

variable {x label : Name} {t a b c : Term}

theorem Printable.blanks (h : t.Printable) (operand : Bool) {r : List Char} (hr : word r = []) :
    afterBlanks (t.textBefore operand r) = t.textBefore operand r := by
  have hopens : OpensExpression [] (t.textBefore operand r) :=
    opens (by simp) t h operand r hr fun _ c hc => by cases hc
  exact hopens.blanks

/-- The text of a term is read as the expression that it is meant to be. -/
structure Readable (t : Term) : Prop where
  printable : t.Printable
  expr (r : List Char) : EndsHere r → Reads exprAt (t.textBefore false r) r t.surface
  operand (r : List Char) : word r = [] → Operand (t.textBefore true r) r t.surface

namespace Readable

/-- A term that stands in parentheses as an operand. -/
theorem of_compound (hcompound : t.IsCompound) (ht : t.Printable)
    (hexpr : ∀ r, EndsHere r → Reads exprAt (t.textBefore false r) r t.surface) : Readable t := by
  refine ⟨ht, hexpr, fun r hr => ?_⟩
  rw [textBefore_parens t r hcompound]
  refine .enclosed (opens (by simp) t ht false _ rfl fun h => absurd hcompound h)
    (hexpr _ (.closed r))

/-- A term that stands as it is. -/
theorem of_spelled (htext : ∀ r, t.textBefore false r = t.textBefore true r) (ht : t.Printable)
    (h : ∀ r, word r = [] → Spelled (t.textBefore true r) r t.surface) : Readable t :=
  ⟨ht, fun r hr => htext r ▸ (h r hr.word).expr hr, fun r hr => .spelled (h r hr)⟩

/-- Before a closing parenthesis. -/
theorem closed (h : t.Readable) (r : List Char) :
    Reads exprAt (t.textBefore false (')' :: r)) (')' :: r) t.surface :=
  h.expr _ (.closed r)

theorem opens_closed (h : t.Readable) (r : List Char) :
    OpensExpression [':'] (t.textBefore false (')' :: r)) := by
  refine opens (by simp) t h.printable false _ rfl fun _ c hc heq => ?_
  cases List.mem_singleton.1 hc
  cases heq

theorem var (hx : x.Written) : Readable (.var x) := by
  have hreserved : ∀ text ∈ ["exists", "class", "new"], text ∈ reserved := by simp [reserved]
  refine .of_spelled (fun _ => rfl) hx fun r hr =>
    .of_word (simple_reads_var hx hr) (fun text htext => ?_) ?_
  · rw [textBefore_var, hx.word_eq hr]
    exact ne_of_isIdentifier hx.2.2 (hreserved text htext)
  · rw [textBefore_var, hx.word_eq hr]
    exact hx.ne_nil

theorem type : Readable .type := by
  refine .of_spelled (fun _ => rfl) ⟨⟩ fun r hr => ?_
  rw [textBefore_type]
  exact .of_form "Type" (by simp [constants]) hr (simple_reads_type hr)

theorem string : Readable .string := by
  refine .of_spelled (fun _ => rfl) ⟨⟩ fun r hr => ?_
  rw [textBefore_string]
  exact .of_form "String" (by simp [constants]) hr (simple_reads_string hr)

theorem trivial : Readable .trivial := by
  refine .of_spelled (fun _ => rfl) ⟨⟩ fun r hr => ?_
  rw [textBefore_trivial]
  exact .of_form "Trivial" (by simp [constants]) hr (simple_reads_trivial hr)

theorem sole : Readable .sole := by
  refine .of_spelled (fun _ => rfl) ⟨⟩ fun r hr => ?_
  rw [textBefore_sole]
  exact .of_form "sole" (by simp [constants]) hr (simple_reads_sole hr)

theorem quote {text : String} (h : Expected.quotationMark ∉ text.toList) :
    Readable (.quote text) := by
  refine .of_spelled (fun _ => rfl) h fun r _ => ?_
  rw [textBefore_quote]
  refine .of_atom (atom_reads_simple (simple_reads_quote h r) ?_ (block_refuses ?_) ?_ ?_) ?_ ?_
  all_goals exact fun heq => by cases heq

theorem cons (ha : a.Readable) (hb : b.Readable) : Readable (.cons a b) := by
  refine .of_spelled (fun _ => rfl) ⟨ha.printable, hb.printable⟩ fun r hr => ?_
  rw [textBefore_cons]
  refine .of_form "cons" (by simp [calls]) rfl
    (simple_reads_cons (ha.expr _ (.comma _)) ?_ (hb.closed r) ?_)
  · exact ha.printable.blanks false rfl
  · exact hb.printable.blanks false rfl

theorem car (ha : a.Readable) : Readable (.car a) := by
  refine .of_spelled (fun _ => rfl) ha.printable fun r hr => ?_
  rw [textBefore_car]
  exact .of_form "car" (by simp [calls]) rfl
    (simple_reads_car (ha.closed r) (ha.opens_closed r).blanks)

theorem cdr (ha : a.Readable) : Readable (.cdr a) := by
  refine .of_spelled (fun _ => rfl) ha.printable fun r hr => ?_
  rw [textBefore_cdr]
  exact .of_form "cdr" (by simp [calls]) rfl
    (simple_reads_cdr (ha.closed r) (ha.opens_closed r).blanks)

theorem same (ha : a.Readable) : Readable (.same a) := by
  refine .of_spelled (fun _ => rfl) ha.printable fun r hr => ?_
  rw [textBefore_same]
  exact .of_form "same" (by simp [calls]) rfl
    (simple_reads_same (ha.closed r) (ha.opens_closed r).blanks)

theorem equal (ha : a.Readable) (hb : b.Readable) (hc : c.Readable) : Readable (.equal a b c) := by
  refine .of_spelled (fun _ => rfl) ⟨ha.printable, hb.printable, hc.printable⟩ fun r hr => ?_
  rw [textBefore_equal]
  refine .of_form "Equal" (by simp [calls]) rfl <|
    simple_reads_equal (ha.expr _ (.comma _)) ?_ (hb.expr _ (.comma _)) ?_ (hc.closed r) ?_
  · exact ha.printable.blanks false rfl
  · exact hb.printable.blanks false rfl
  · exact hc.printable.blanks false rfl

theorem length_textBefore (operand : Bool) (t : Term) (r : List Char) :
    r.length ≤ (t.textBefore operand r).length := by
  rw [textBefore, List.length_append]
  omega

theorem app (p : Plicity) (ha : a.Readable) (hb : b.Readable) : Readable (.app p a b) := by
  have hlength (r : List Char) := length_textBefore false b (')' :: r)
  cases p with
  | explicit =>
    refine .of_spelled (fun _ => rfl) ⟨ha.printable, hb.printable⟩ fun r hr => ?_
    rw [textBefore_app_explicit]
    have hargument := argument_reads_explicit (hb.opens_closed r) (hb.closed r)
    refine (ha.operand _ rfl).suffix
      (suffixed_call hargument (hb.opens_closed r).blanks (hlength r) a.surface) ?_
    exact fun heq => by cases heq
  | implicit =>
    refine .of_spelled (fun _ => rfl) ⟨ha.printable, hb.printable⟩ fun r hr => ?_
    rw [textBefore_app_implicit]
    have hargument := argument_reads_implicit (hb.opens_closed r).blanks (hb.closed r)
    refine (ha.operand _ rfl).suffix (suffixed_call hargument ?_ ?_ a.surface) ?_
    · exact afterBlanks_keyword _ (by simp [reserved])
    · have := hlength r
      simp only [List.length_append, List.length_cons] at this ⊢
      omega
    · exact fun heq => by cases heq

theorem dot (ha : a.Readable) (hx : label.Written) : Readable (.dot a label) := by
  refine .of_spelled (fun _ => rfl) ⟨ha.printable, hx⟩ fun r hr => ?_
  rw [textBefore_dot]
  exact (ha.operand _ rfl).suffix (suffixed_dot hx hr a.surface) fun heq => by cases heq

theorem pi_explicit (hx : x ∈ b.freeNames → x.Written) (ha : a.Readable) (hb : b.Readable) :
    Readable (.pi .explicit x a b) := by
  refine .of_compound ⟨⟩ ⟨hx, ha.printable, hb.printable⟩ fun r hr => ?_
  have hblanks := hb.printable.blanks false hr.word
  change Reads exprAt _ r
    (bare (.pi .explicit (if x ∈ b.freeNames then x else .anonymous) a.surface b.surface))
  by_cases hfree : x ∈ b.freeNames
  · rw [textBefore_pi_used x a b r hfree, if_pos hfree]
    refine exprAt_reads <| .orElse_left <|
      boundArrow_reads ?_ (Name.afterBlanks_text (.inl (hx hfree)) _) hblanks (hb.expr r hr)
    exact piBinder_reads_explicit (.inl (hx hfree)) (ha.opens_closed _).blanks (ha.closed _)
  · rw [textBefore_pi_unused x a b r hfree, if_neg hfree]
    exact (ha.operand _ rfl).arrow hblanks (hb.expr r hr)

theorem pi_implicit (hx : x.Written) (ha : a.Readable) (hb : b.Readable) :
    Readable (.pi .implicit x a b) := by
  refine .of_compound ⟨⟩ ⟨hx, ha.printable, hb.printable⟩ fun r hr => ?_
  rw [textBefore_pi_implicit]
  refine exprAt_reads <| .orElse_left <|
    boundArrow_reads ?_ (afterBlanks_keyword _ (by simp [reserved]))
    (hb.printable.blanks false hr.word) (hb.expr r hr)
  exact piBinder_reads_implicit hx (ha.opens_closed _).blanks (ha.closed _)

/-- A binder in parentheses is no expression: a name alone is, but the colon is left, and the
underscore is none. -/
theorem parenthesized_refuses_binder (hx : x.Written ∨ x = .anonymous) (r : List Char) :
    Refuses (parenthesized places) ('(' :: (x.text.toList ++ ':' :: r)) := by
  have hblanks := Name.afterBlanks_text hx (':' :: r)
  rcases hx with hx | rfl
  · exact parenthesized_refuses_of_rest hblanks ((Readable.var hx).expr _ (.colon r)) fun heq => by
      cases heq
  · exact parenthesized_refuses hblanks
      (exprAt_refuses_of_word "_" (by simp [binderWords]) (by simp) rfl)

theorem parenthesized_refuses_implicit (r : List Char) :
    Refuses (parenthesized places) ('(' :: ("implicit".toList ++ ' ' :: r)) :=
  parenthesized_refuses (afterBlanks_keyword _ (by simp [reserved])) <|
    exprAt_refuses_of_word "implicit" (by simp [binderWords]) (by simp) rfl

theorem fn_explicit (hx : x.Written ∨ x = .anonymous) (ha : a.Readable) (hb : b.Readable) :
    Readable (.fn .explicit x a b) := by
  refine .of_compound ⟨⟩ ⟨hx, ha.printable, hb.printable⟩ fun r hr => ?_
  rw [textBefore_fn_explicit]
  refine exprAt_reads_function ?_ ?_
    (Name.afterBlanks_text hx _) (parenthesized_refuses_binder hx _)
    (hb.printable.blanks false hr.word) (hb.expr r hr)
  · exact piBinder_reads_explicit hx (ha.opens_closed _).blanks (ha.closed _)
  · exact fnBinder_reads_explicit hx (ha.opens_closed _).blanks (ha.closed _)

theorem fn_implicit (hx : x.Written) (ha : a.Readable) (hb : b.Readable) :
    Readable (.fn .implicit x a b) := by
  refine .of_compound ⟨⟩ ⟨hx, ha.printable, hb.printable⟩ fun r hr => ?_
  rw [textBefore_fn_implicit]
  refine exprAt_reads_function ?_ ?_ (afterBlanks_keyword _ (by simp [reserved]))
    (parenthesized_refuses_implicit _) (hb.printable.blanks false hr.word) (hb.expr r hr)
  · exact piBinder_reads_implicit hx (ha.opens_closed _).blanks (ha.closed _)
  · exact fnBinder_reads_implicit hx (ha.opens_closed _).blanks (ha.closed _)

theorem sigma (hx : x ∈ b.freeNames → x.Written) (ha : a.Readable) (hb : b.Readable) :
    Readable (.sigma x a b) := by
  refine .of_compound ⟨⟩ ⟨hx, ha.printable, hb.printable⟩ fun r hr => ?_
  have hblanks := hb.printable.blanks false hr.word
  change Reads exprAt _ r
    (bare (.sigma (if x ∈ b.freeNames then x else .anonymous) a.surface b.surface))
  by_cases hfree : x ∈ b.freeNames
  · rw [textBefore_sigma_used x a b r hfree, if_pos hfree]
    refine exprAt_reads_sigma (.orElse_left ?_)
      (Name.afterBlanks_text (.inl (hx hfree)) _) hblanks (hb.expr r hr)
    exact typed_reads (Name.binder_reads (.inl (hx hfree)) rfl)
      (ha.opens_closed _).blanks (ha.closed _)
  · rw [textBefore_sigma_unused x a b r hfree, if_neg hfree]
    refine exprAt_reads_sigma ?_ (ha.opens_closed _).blanks hblanks (hb.expr r hr)
    exact sigmaBinder_reads_type (ha.opens_closed _) List.mem_cons_self (ha.closed _)

theorem letIn (hx : x.Written ∨ x = .anonymous) (ha : a.Readable) (hb : b.Readable)
    (hc : c.Readable) :
    Readable (.letIn x a b c) := by
  refine .of_compound ⟨⟩ ⟨hx, ha.printable, hb.printable, hc.printable⟩ fun r hr => ?_
  rw [textBefore_letIn]
  refine Spelled.expr (.of_atom ?_ ?_ ?_) hr
  · refine .orElse_right (.bind (mark_refuses (c := '(') (fun heq => by cases heq) rfl)) <|
      .orElse_right
        (.position fun _ =>
        .bind (keyword_refuses (fun heq => by cases heq) (by simp [reserved]))) <| .orElse_left ?_
    exact block_reads hx (ha.expr _ (.equals _)) (ha.printable.blanks false rfl)
      (hb.expr _ (.returns _))
      (hb.printable.blanks false rfl) (hc.expr _ (.brace _)) (hc.printable.blanks false rfl)
  · exact fun heq => by cases heq
  · exact fun heq => by cases heq

section Items

theorem toList_typed (label : Name) (a : Term) (r : List Char) :
    (label.text ++ ": " ++ a.textAs false).toList ++ r = label.text.toList ++ ':' :: ' ' ::
      a.textBefore false r := by
  simp only [String.toList_append, List.append_assoc]
  rfl

theorem toList_defined (label : Name) (a b : Term) (r : List Char) :
    (label.text ++ ": " ++ a.textAs false ++ " = " ++ b.textAs false).toList ++ r =
      label.text.toList ++ ':' :: ' ' :: a.textBefore false
        (' ' :: '=' :: ' ' :: b.textBefore false r) := by
  simp only [String.toList_append, List.append_assoc]
  rfl

theorem typed (hx : label.Written) (ha : a.Readable) {r : List Char} (hr : EndsHere r) :
    Reads (Grammar.typed places identifier)
      (label.text.toList ++ ':' :: ' ' :: a.textBefore false r) r (label, a.surface) :=
  typed_reads (hx.identifier_reads rfl) (ha.printable.blanks false hr.word) (ha.expr r hr)

theorem fieldItem (hx : label.Written) (ha : a.Readable) :
    ReadsItem (field places) (label.text ++ ": " ++ a.textAs false) (label, a.surface) := by
  refine .of_ends (fun r => ?_) fun r hr _ => ?_
  · rw [toList_typed]
    exact Name.afterBlanks_text (.inl hx) _
  · rw [toList_typed]
    exact typed hx ha hr

theorem declaredItem (hx : label.Written) (ha : a.Readable) :
    ReadsItem (member places) (label.text ++ ": " ++ a.textAs false)
      (.declared label a.surface) := by
  refine .of_ends (fun r => ?_) fun r hr hequals => ?_
  · rw [toList_typed]
    exact Name.afterBlanks_text (.inl hx) _
  · rw [toList_typed]
    refine .orElse_left (.bind (typed hx ha hr) fun ⟨x', a'⟩ htyped => ?_)
    refine .bind (.optional_none (after_refuses hequals rfl)) fun value hvalue => ?_
    obtain ⟨rfl, ha'⟩ := Prod.mk.inj htyped
    obtain rfl := Option.map_eq_none_iff.1 hvalue
    exact .pure_of (congrArg (Member.declared x') ha') r

theorem fulfilledItem (hx : label.Written) (ha : a.Readable) (hb : b.Readable) :
    ReadsItem (member places) (label.text ++ ": " ++ a.textAs false ++ " = " ++ b.textAs false)
      (.fulfilled label (some a.surface) b.surface) := by
  refine .of_ends (fun r => ?_) fun r hr _ => ?_
  · rw [toList_defined]
    exact Name.afterBlanks_text (.inl hx) _
  · rw [toList_defined]
    have hafter : Reads (after "=" exprAt)
        (' ' :: '=' :: ' ' :: b.textBefore false r) r b.surface :=
      after_reads_space (r := b.textBefore false r) rfl
        (hb.printable.blanks false hr.word) (hb.expr r hr)
    refine .orElse_left (.bind (typed hx ha (.equals _)) fun ⟨x', a'⟩ htyped => ?_)
    refine .bind (.optional_some hafter) fun value hvalue => ?_
    obtain ⟨rfl, ha'⟩ := Prod.mk.inj htyped
    obtain ⟨b', rfl, hb'⟩ := Option.map_eq_some_iff.1 hvalue
    refine .pure_of ?_ r
    rw [moved_fulfilled, moved_some]
    exact congrArg₂ (fun a b => Member.fulfilled x' (some a) b) ha' hb'

end Items

end Readable

theorem labels_surfaceMembers : ∀ t : Term, (surfaceMembers t).map Member.label = t.classLabels
  | .declared label _ _ rest => congrArg (label :: ·) (labels_surfaceMembers rest)
  | .fulfilled label _ _ _ rest => congrArg (label :: ·) (labels_surfaceMembers rest)
  | .var _ | .type | .pi .. | .fn .. | .app .. | .sigma .. | .cons .. | .car _ | .cdr
      _ | .string | .quote _ | .trivial | .sole
  | .equal .. | .same _ | .emptyClass | .object _ | .dot .. | .letIn .. => rfl

theorem Printable.nodup_classLabels : ∀ {t : Term}, t.Printable → t.classLabels.Nodup
  | .declared .., ⟨_, hlabel, _, _, hrest⟩ => List.nodup_cons.2 ⟨hlabel, hrest.nodup_classLabels⟩
  | .fulfilled .., ⟨_, hlabel, _, _, _, hrest⟩ =>
    List.nodup_cons.2 ⟨hlabel, hrest.nodup_classLabels⟩
  | .var _, _ | .type, _ | .pi .., _ | .fn .., _ | .app .., _ | .sigma .., _ | .cons .., _ | .car _,
      _ | .cdr _, _ | .string, _
  | .quote _, _ | .trivial, _ | .sole, _ | .equal .., _ | .same _, _ | .emptyClass,
      _ | .object _, _ | .dot .., _
  | .letIn .., _ => List.nodup_nil

def MembersReadable (t : Term) : Prop :=
  List.Forall₂ (ReadsItem (member places)) t.memberTexts (surfaceMembers t)

def FieldsReadable (fields : List (Name × Term)) : Prop :=
  List.Forall₂ (ReadsItem (field places)) (fieldTexts fields) (surfaceFields fields)

namespace Readable

theorem of_class (h : t.IsClass) (ht : t.Printable) (hmembers : MembersReadable t) :
    Readable t := by
  have hdistinct : Member.Distinct (surfaceMembers t) := by
    rw [Member.Distinct, labels_surfaceMembers]
    exact ht.nodup_classLabels
  have hsurface : t.surface = bare (.classOf (surfaceMembers t)) := by
    cases t with
    | emptyClass | declared | fulfilled => rfl
    | _ => cases h
  have htext (operand : Bool) (r : List Char) := textBefore_class operand t r h
  refine .of_spelled (fun r => (htext false r).trans (htext true r).symm) ht fun r _ => ?_
  rw [htext, hsurface]
  have hliteral := classLiteral_reads hmembers hdistinct r
  refine .of_atom (.orElse_right (.bind (mark_refuses (c := '(') ?_ rfl)) (.orElse_left hliteral))
    ?_ ?_
  all_goals exact fun heq => by cases heq

theorem bracedBefore_eq (items : List String) (r : List Char) :
    ∃ u, bracedBefore items r = '\x7b' :: u := by
  cases items with
  | nil => exact ⟨_, rfl⟩
  | cons item items => exact ⟨_, bracedBefore_cons item items r⟩

/-- No field starts like a definition. -/
theorem block_refuses_fields {fields : List (Name × Term)} (h : FieldsPrintable fields)
    (r : List Char) :
    Refuses (block places) (bracedBefore (fieldTexts fields) r) := by
  have hreserved : ∀ text ∈ ["let", "check", "return"], text ∈ reserved := by simp [reserved]
  obtain _ | ⟨⟨label, value⟩, fields⟩ := fields
  · exact block_refuses_of_word fun text htext =>
      (words_spec text (List.mem_cons_of_mem _ (hreserved text htext))).2.symm
  · rw [fieldTexts, bracedBefore_cons]
    refine block_refuses_of_word fun text htext => ?_
    rw [afterBlanks_space, toList_typed, Name.afterBlanks_text (.inl h.1), h.1.word_eq rfl]
    exact ne_of_isIdentifier h.1.2.2 (hreserved text htext)

theorem object {fields : List (Name × Term)} (h : FieldsPrintable fields)
    (hfields : FieldsReadable fields) :
    Readable (.object fields) := by
  refine .of_spelled (fun _ => rfl) h fun r _ => ?_
  have hreads := fields_reads hfields r
  have hblock := block_refuses_fields h r
  obtain ⟨u, hu⟩ := bracedBefore_eq (fieldTexts fields) r
  rw [textBefore_object, hu]
  rw [hu] at hreads hblock
  refine .of_atom (atom_reads_simple (simple_reads_object hreads) ?_ hblock ?_ ?_) ?_ ?_
  all_goals exact fun heq => by cases heq

end Readable

theorem MembersReadable.declared (hx : label.Written) (ha : a.Readable)
    (hc : c.MembersReadable) (x : Name) :
    MembersReadable (.declared label x a c) := .cons (Readable.declaredItem hx ha) hc

theorem MembersReadable.fulfilled (hx : label.Written) (ha : a.Readable) (hb : b.Readable)
    (hc : c.MembersReadable) (x : Name) :
    MembersReadable (.fulfilled label x a b c) := .cons (Readable.fulfilledItem hx ha hb) hc

mutual

/-- Every term that can be written down is read back, whatever it is a part of. -/
theorem Printable.readable : ∀ {t : Term}, t.Printable → t.Readable
  | .var _, h => .var h
  | .type, _ => .type
  | .string, _ => .string
  | .trivial, _ => .trivial
  | .sole, _ => .sole
  | .quote _, h => .quote h
  | .pi .explicit .., ⟨hx, ha, hb⟩ => .pi_explicit hx ha.readable hb.readable
  | .pi .implicit .., ⟨hx, ha, hb⟩ => .pi_implicit hx ha.readable hb.readable
  | .fn .explicit .., ⟨hx, ha, hb⟩ => .fn_explicit hx ha.readable hb.readable
  | .fn .implicit .., ⟨hx, ha, hb⟩ => .fn_implicit hx ha.readable hb.readable
  | .app p .., ⟨ha, hb⟩ => .app p ha.readable hb.readable
  | .sigma .., ⟨hx, ha, hb⟩ => .sigma hx ha.readable hb.readable
  | .cons .., ⟨ha, hb⟩ => .cons ha.readable hb.readable
  | .car _, h => .car (Printable.readable h)
  | .cdr _, h => .cdr (Printable.readable h)
  | .same _, h => .same (Printable.readable h)
  | .equal .., ⟨ha, hb, hc⟩ => .equal ha.readable hb.readable hc.readable
  | .dot .., ⟨ha, hx⟩ => .dot ha.readable hx
  | .letIn .., ⟨hx, ha, hb, hc⟩ => .letIn hx ha.readable hb.readable hc.readable
  | .emptyClass, h => .of_class ⟨⟩ h .nil
  | .declared _ x .., h =>
    .of_class ⟨⟩ h (.declared h.1 h.2.2.2.1.readable h.2.2.2.2.members_readable x)
  | .fulfilled _ x .., h =>
    .of_class ⟨⟩ h
      (.fulfilled h.1 h.2.2.2.1.readable h.2.2.2.2.1.readable h.2.2.2.2.2.members_readable x)
  | .object _, h => .object h (fields_readable h)

theorem Printable.members_readable : ∀ {t : Term}, t.Printable → t.MembersReadable
  | .declared _ x .., h => .declared h.1 h.2.2.2.1.readable h.2.2.2.2.members_readable x
  | .fulfilled _ x .., h =>
    .fulfilled h.1 h.2.2.2.1.readable h.2.2.2.2.1.readable h.2.2.2.2.2.members_readable x
  | .var _, _ | .type, _ | .pi .., _ | .fn .., _ | .app .., _ | .sigma .., _ | .cons .., _ | .car _,
      _ | .cdr _, _ | .string, _
  | .quote _, _ | .trivial, _ | .sole, _ | .equal .., _ | .same _, _ | .emptyClass,
      _ | .object _, _ | .dot .., _
  | .letIn .., _ => .nil

theorem fields_readable :
    ∀ {fields : List (Name × Term)}, FieldsPrintable fields → FieldsReadable fields
  | [], _ => .nil
  | (_, _) :: _, ⟨hx, ha, hfields⟩ =>
    .cons (Readable.fieldItem hx ha.readable) (fields_readable hfields)

end

end Term

namespace Expr

open DependentClasses.Grammar

theorem ofSource_alike (s : String) :
    (wholeExpr (Entry.rules (Entry.table 0 s.toList)) ⟨0, s.toList⟩).Alike
      (wholeExpr places ⟨0, s.toList⟩) :=
  Reading.alike_places s fun _ _ _ _ _ h =>
    .bind .blanks fun _ => .bind (.toAt h.expr_le) fun _ => .bind .blanks fun _ => .pure rfl

/-- A source is read as what is read from its text, if that uses up the text. -/
theorem outcome_ofSource {s : String} {e : Expr} (h : Reads (wholeExpr places) s.toList [] e) :
    ∃ e', (ofSource s).outcome = .ok e' ∧ moved nowhere e' = e := by
  obtain ⟨e', o, hresult, he⟩ := h 0
  refine ⟨e', ?_, he⟩
  rw [(ofSource_alike s).result] at hresult
  unfold ofSource Reading.ofSource Reading.ofReply
  rw [hresult]
  rfl

end Expr

/-- The text of a term is read, and but for its places what is read is the expression that the term
is written as. -/
theorem printed_terms_read_back {t : Term} (ht : t.Printable) :
    ∃ e, (Expr.ofSource t.text).outcome = .ok e ∧ moved nowhere e = t.surface := by
  refine Expr.outcome_ofSource ?_
  have htext : t.text.toList = t.textBefore false [] := (List.append_nil _).symm
  rw [htext]
  refine .bind (blanks_reads _) fun _ _ => ?_
  rw [ht.blanks false rfl]
  exact .bind (ht.readable.expr [] .nil) fun e he =>
    .bind (blanks_reads []) fun _ _ => .pure_of he []

namespace PrintedFunction

def point : Name := ⟨"point", 0⟩
def value : Name := ⟨"value", 0⟩
def twin : Name := ⟨"twin", 0⟩

/-- The type `A -> A`, for an `A`. -/
def endomap : Term := .pi .explicit .anonymous (.var ⟨"A", 0⟩) (.var ⟨"A", 0⟩)

def pointClass : Term :=
  .declared value value .string (.fulfilled twin twin .string (.var value) .emptyClass)

/-- A function with an implicit parameter and one that it does not mention, a definition in its
body, and a class. -/
def term : Term :=
  .fn .implicit ⟨"A", 0⟩ .type <|
    .fn .explicit .anonymous (.pi .explicit ⟨"f", 0⟩ endomap .string) <|
    .letIn point pointClass (.object [(value, .quote "a"), (twin, .quote "a")])
      (.dot (.var point) value)

end PrintedFunction

theorem printed_function_reads_back :
    PrintedFunction.term.text =
        "(implicit A: Type) => (_: (A -> A) -> String) => \x7b let point: class \x7b value: String, " ++
        "twin: String = value \x7d = \x7b value: \"a\", twin: \"a\" \x7d return point.value \x7d" ∧
      PrintedFunction.term.Printable ∧
      ∃ e, (Expr.ofSource PrintedFunction.term.text).outcome = .ok e ∧
      moved nowhere e = PrintedFunction.term.surface :=
  ⟨rfl, by decide, printed_terms_read_back (by decide)⟩

end DependentClasses
