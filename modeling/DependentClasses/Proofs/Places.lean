import DependentClasses.Proofs.RulesInStep
import DependentClasses.Surface.Source

/-! Expressions at the places of a source. Each place of a source has an entry in its table, and
there the rules are read with the entries of later places. So an expression is read alike wherever
its text stands, and whatever statements follow it. -/
namespace DependentClasses

open Lexeme
open DependentClasses.Parser (InStep)

namespace Cursor

def laterEntries (c : Cursor) : List Entry :=
  match c.rest with
  | [] => []
  | ch :: rest => Entry.table (c.offset + ch.utf8Size) rest

def entry (c : Cursor) : Entry := Entry.read c.laterEntries c

end Cursor

namespace Entry

theorem table_eq (c : Cursor) : table c.offset c.rest = c.entry :: c.laterEntries := by
  obtain ⟨o, _ | ⟨ch, rest⟩⟩ := c <;> rfl

/-- Offsets grow along a source, so that a place is found by its offset. -/
theorem find?_table {c c' : Cursor} (h : c.Leads c') :
    (table c.offset c.rest).find? (fun e => e.offset == c'.offset) = some c'.entry := by
  obtain ⟨n, rfl⟩ := h
  induction n generalizing c with
  | zero =>
    rw [table_eq]
    exact List.find?_cons_of_pos (beq_self_eq_true c.offset)
  | succ n ih =>
    obtain ⟨o, _ | ⟨ch, rest⟩⟩ := c
    · rw [table_eq]
      exact List.find?_cons_of_pos (beq_self_eq_true o)
    · have hlt : o < (Cursor.skip (n + 1) ⟨o, ch :: rest⟩).offset := by
        have := ch.utf8Size_pos
        simp only [Cursor.skip, Cursor.offset_skip]
        omega
      rw [table_eq, List.find?_cons_of_neg (by rw [beq_iff_eq]; exact Nat.ne_of_lt hlt)]
      exact ih (c := ⟨o + ch.utf8Size, rest⟩)

end Entry

namespace Grammar

def exprAt : Parser Expr := fun c => c.entry.expr.get

def atomAt : Parser Expr := fun c => c.entry.atom.get

def places : Rules := ⟨exprAt, atomAt⟩

def spineAt : Parser Expr := spine places (atom places)

theorem rules_table {c c' : Cursor} (h : c.Leads c') :
    (Entry.rules (Entry.table c.offset c.rest)).expr c' = exprAt c' ∧
      (Entry.rules (Entry.table c.offset c.rest)).atom c' = atomAt c' := by
  simp [Entry.rules, Entry.find?_table h, exprAt, atomAt]

theorem rules_laterEntries {c c' : Cursor} (h : c.Leads c') (hlt : c'.rest.length < c.rest.length) :
    (Entry.rules c.laterEntries).expr c' = exprAt c' ∧
      (Entry.rules c.laterEntries).atom c' = atomAt c' := by
  obtain ⟨n, rfl⟩ := h
  obtain ⟨o, _ | ⟨ch, rest⟩⟩ := c
  · cases hlt
  · cases n with
    | zero => exact absurd hlt (Nat.lt_irrefl _)
    | succ n => exact rules_table (c := ⟨o + ch.utf8Size, rest⟩) ⟨n, rfl⟩

end Grammar

section
variable {α : Type} [Movable α]

structure Reply.Alike (r r' : Reply α) : Prop where
  result : r'.result = r.result
  symbols : r'.trace.symbols = r.trace.symbols

def Placement.alone (c : Cursor) (d : Nat) : Placement :=
  ⟨c, 0, [], closes .plain d c.rest, .inl rfl⟩

namespace Placement

variable {P : Placement} {c c' : Cursor} {k d : Nat} {mode : Mode}

theorem alone_same (c : Cursor) (d : Nat) : (alone c d).Same (c.rest.length + 1) d c c :=
  ⟨.refl c, Nat.lt_succ_self _, rfl, (List.append_nil _).symm, rfl⟩

theorem Inside.eq (h : P.Inside mode k d c c') (hshift : P.shift = 0)
    (htail : P.tail = []) : c' = c := by
  obtain ⟨o, r⟩ := c
  obtain ⟨o', r'⟩ := c'
  have hoffset := h.offset
  have hrest := h.rest
  simp only [hshift, htail, Nat.add_zero, List.append_nil] at hoffset hrest
  rw [hoffset, hrest]

end Placement

namespace Reply.InStep

variable {P : Placement} {k d : Nat} {r r' : Reply α}

theorem alike {R : Cursor → Cursor → Prop} (h : r.InStep (· + 0) R r')
    (hR : ∀ c c', R c c' → c' = c) : r.Alike r' := by
  cases h with
  | failed ht => exact ⟨rfl, ht⟩
  | read a ht hc =>
    rw [hR _ _ hc]
    exact ⟨congrArg some (congrArg (·, _) (moved_id a)), ht⟩

/-- A reply is in step with itself if the place where it stops is in its own source. -/
theorem self {R : Cursor → Cursor → Prop} (h : r.InStep (· + P.shift) (P.Same k d) r')
    (hR : ∀ c c', P.Same k d c c' → R c c) :
    r.InStep (· + 0) R r := by
  cases h with
  | failed _ => exact .failed rfl
  | @read t _ a c c' _ hc =>
    have hread : InStep (· + 0) R ⟨some (a, c), t⟩ ⟨some (moved (· + 0) a, c), t⟩ :=
      .read a rfl (hR c c' hc)
    rwa [show moved (· + 0) a = a from moved_id a] at hread

end Reply.InStep

end

namespace Grammar

theorem arrow_congr {later : Rules} {s s' : Parser Expr} {c : Cursor} (h : s c = s' c) :
    arrow later s c = arrow later s' c := by
  change Reply.after _ (Parser.bind s _ c) = Reply.after _ (Parser.bind s' _ c)
  simp only [Parser.bind, h]

theorem spine_congr {later : Rules} {a a' : Parser Expr} {c : Cursor} (h : a c = a' c) :
    spine later a c = spine later a' c := by
  change Reply.after _ (Parser.bind a _ c) = Reply.after _ (Parser.bind a' _ c)
  simp only [Parser.bind, h]

/-- The rule of expressions takes the spine at its own place only. -/
theorem expr_congr {later : Rules} {s s' : Parser Expr} {c : Cursor} (h : s c = s' c) :
    expr later s c = expr later s' c := by
  have horElse {p p' q q' : Parser Expr} (hp : p c = p' c) (hq : q c = q' c) : (p <|> q) c =
      (p' <|> q') c := by
    change Parser.orElse p q c = Parser.orElse p' q' c
    simp only [Parser.orElse, hp, hq]
  exact horElse rfl (horElse (arrow_congr h) (horElse rfl (horElse rfl h)))

theorem exprAt_eq (c : Cursor) : exprAt c =
    expr (Entry.rules c.laterEntries)
      (spine (Entry.rules c.laterEntries) (atom (Entry.rules c.laterEntries))) c :=
  expr_congr (spine_congr rfl)

/-- What is read at a place is what the rules read there with the readers of all places. -/
theorem exprAt_inStep (c : Cursor) (d : Nat) :
    (exprAt c).InStep (· + 0) ((Placement.alone c d).Same c.rest.length d) (expr places spineAt c) ∧
      (atomAt c).InStep (· + 0) ((Placement.alone c d).Same c.rest.length d) (atom places c) := by
  induction hn : c.rest.length using Nat.strong_induction_on generalizing c d with
  | _ n ih =>
    subst hn
    have hlater {j e : Nat} (hj : j < c.rest.length) (c₁ c₁' : Cursor)
        (hc : (Placement.alone c d).At (j + 1) e c₁ c₁') :
        ((Entry.rules c.laterEntries).expr c₁).InStep (· + 0)
          ((Placement.alone c d).Same j e) (exprAt c₁') ∧
          ((Entry.rules c.laterEntries).atom c₁).InStep (· + 0) ((Placement.alone c d).Same j e)
              (atomAt c₁') := by
      have hc := hc.same_of_tail rfl
      cases hc.eq rfl rfl
      have hlt : c₁.rest.length < c.rest.length := Nat.lt_of_lt_of_le hc.lt hj
      obtain ⟨hexpr, hatom⟩ := rules_laterEntries (c := c) hc.leads hlt
      obtain ⟨hexpr', hatom'⟩ := ih _ hlt c₁ e rfl
      -- A later source is a part of this one.
      have hpart (c₂ c₂' : Cursor) (h : (Placement.alone c₁ e).Same c₁.rest.length e c₂ c₂') :
          (Placement.alone c d).Same j e c₂ c₂ := by
        refine ⟨?_, Nat.lt_of_lt_of_le h.lt (Nat.le_of_lt_succ hc.lt), rfl,
          (List.append_nil _).symm, h.closes.trans hc.closes⟩
        obtain ⟨n, rfl⟩ := h.leads
        exact hc.leads.skip n
      rw [hexpr, hatom]
      exact ⟨hexpr'.self (P := Placement.alone c₁ e) hpart,
        hatom'.self (P := Placement.alone c₁ e) hpart⟩
    have hagree : (Placement.alone c d).Agree c.rest.length (Entry.rules c.laterEntries) places :=
      ⟨fun hj c₁ c₁' hc => (hlater hj c₁ c₁' hc).1, fun hj c₁ c₁' hc => (hlater hj c₁ c₁' hc).2⟩
    rw [exprAt_eq]
    have hsame := Placement.alone_same c d
    exact ⟨hagree.wholeExpr (hagree.spine hagree.wholeAtom) c c hsame, hagree.wholeAtom c c hsame⟩

theorem exprAt_alike (c : Cursor) : (exprAt c).Alike (expr places spineAt c) :=
  (exprAt_inStep c 0).1.alike fun _ _ hc => hc.eq rfl rfl

theorem atomAt_alike (c : Cursor) : (atomAt c).Alike (atom places c) :=
  (exprAt_inStep c 0).2.alike fun _ _ hc => hc.eq rfl rfl

end Grammar

namespace Grammar

section
variable {later : Rules}

open DependentClasses.Parser (Barred)

theorem mark_barred {text : String} (h : text ∈ marks) : Barred (literal text) :=
  barred_of_mem_marks h

theorem word_barred {text : String} (h : text ∈ marks) : Barred (keyword text) :=
  .bind (mark_barred h) _

theorem opening_barred : Barred (literal "\x7b") := .literal (by decide) (by decide)

theorem constant_barred {text : String} {form : Form} (h : text ∈ marks) :
    Barred (constant text form) :=
  .bind (word_barred h) _

theorem spanned_barred {p : Parser Form} (h : p.Barred) : Barred (spanned p) :=
  .position fun _ => .bind h _

theorem simple_barred : Barred (simple later) :=
  .orElse (constant_barred (by simp)) <| .orElse (constant_barred (by simp)) <|
  .orElse (constant_barred (by simp)) <| .orElse (constant_barred (by simp)) <|
  .orElse (.bind .quote _) <| .orElse (.bind (.bind opening_barred _) _) <|
  .orElse (.bind (mark_barred (by simp)) _) <| .orElse (.bind (mark_barred (by simp)) _) <|
  .orElse (.bind (mark_barred (by simp)) _) <| .orElse (.bind (mark_barred (by simp)) _) <|
  .orElse (.bind (mark_barred (by simp)) _) <| .orElse (.bind (mark_barred (by simp)) _) <|
    .bind .identifier _

theorem atom_barred : Barred (atom later) :=
  .orElse (.bind (mark_barred (by simp)) _) <|
    .orElse (.position fun _ => .bind (word_barred (by simp)) _) <|
  .orElse (.position fun _ => .bind opening_barred _) <|
  .orElse (spanned_barred (.bind (word_barred (by simp)) _)) (spanned_barred simple_barred)

/-- No expression starts like a statement. -/
theorem expr_barred {atom : Parser Expr} (h : atom.Barred) :
    Barred (expr later (spine later atom)) := by
  have hspine : Barred (spine later atom) := .position fun _ => .bind h _
  have hparen : Barred (literal "(") := mark_barred (by simp)
  exact .orElse (.position fun _ => .bind hparen _) <|
    .orElse (.position fun _ => .bind hspine _) <|
    .orElse (.orElse (.position fun _ => .bind (.bind hparen _) _) (.position fun _ =>
      .bind (.bind hparen _) _)) <|
    .orElse (.position fun _ => .bind (word_barred (by simp)) _) hspine

end

theorem exprAt_barred : exprAt.Barred := by
  intro c hc
  rw [← (exprAt_alike c).result, ← (exprAt_alike c).symbols]
  exact expr_barred atom_barred c hc

theorem atomAt_barred : atomAt.Barred := by
  intro c hc
  rw [← (atomAt_alike c).result, ← (atomAt_alike c).symbols]
  exact atom_barred c hc

end Grammar

section
variable {α : Type} [Movable α]

theorem Reply.InStep.of_alike {f : Nat → Nat} {R : Cursor → Cursor → Prop} {r₁ r₂ r₁' r₂' : Reply α}
    (h : r₁'.InStep f R r₂') (h₁ : r₁.Alike r₁') (h₂ : r₂.Alike r₂') : r₁.InStep f R r₂ := by
  obtain ⟨result₁, t₁⟩ := r₁
  obtain ⟨result₂, t₂⟩ := r₂
  obtain ⟨hr₁, ht₁⟩ := h₁
  obtain ⟨hr₂, ht₂⟩ := h₂
  cases h with
  | failed ht =>
    cases hr₁
    cases hr₂
    exact .failed (ht₂.symm.trans (ht.trans ht₁))
  | read a ht hc =>
    cases hr₁
    cases hr₂
    exact .read a (ht₂.symm.trans (ht.trans ht₁)) hc

end

/-- Expressions are read in step inside any text. -/
theorem Placement.agree (P : Placement) (k : Nat) : P.Agree k Grammar.places Grammar.places := by
  induction k with
  | zero => exact ⟨fun hj => absurd hj (Nat.not_lt_zero _), fun hj => absurd hj (Nat.not_lt_zero _)⟩
  | succ k ih =>
    have hnext {d : Nat} : InStep (· + P.shift) (P.At (k + 1) d) (P.Same k d) Grammar.exprAt
        Grammar.exprAt ∧
        InStep (· + P.shift) (P.At (k + 1) d) (P.Same k d) Grammar.atomAt Grammar.atomAt := by
      refine ⟨.ofBarred (fun c c' hc => ?_) Grammar.exprAt_barred Grammar.exprAt_barred,
        .ofBarred (fun c c' hc => ?_) Grammar.atomAt_barred Grammar.atomAt_barred⟩
      · exact (ih.wholeExpr (ih.spine ih.wholeAtom) c c' hc).of_alike (Grammar.exprAt_alike c)
          (Grammar.exprAt_alike c')
      · exact (ih.wholeAtom c c' hc).of_alike (Grammar.atomAt_alike c) (Grammar.atomAt_alike c')
    constructor
    · intro j d hj
      obtain hj | rfl := Nat.lt_succ_iff_lt_or_eq.1 hj
      · exact ih.expr hj
      · exact hnext.1
    · intro j d hj
      obtain hj | rfl := Nat.lt_succ_iff_lt_or_eq.1 hj
      · exact ih.atom hj
      · exact hnext.2

/-- The table of a source has the readers of all its places. -/
theorem Placement.agree_table (s : List Char) (k : Nat) :
    (Placement.alone ⟨0, s⟩ 0).Agree k (Entry.rules (Entry.table 0 s)) Grammar.places := by
  have htable {c c' : Cursor} {j d : Nat} (hc : (Placement.alone ⟨0, s⟩ 0).At j d c c') :=
    Grammar.rules_table (c := ⟨0, s⟩) (hc.same_of_tail rfl).leads
  have hagree := (Placement.alone ⟨0, s⟩ 0).agree k
  constructor
  · intro j d hj c c' hc
    rw [(htable hc).1]
    exact hagree.expr hj c c' hc
  · intro j d hj c c' hc
    rw [(htable hc).2]
    exact hagree.atom hj c c' hc

/-- A rule for whole sources that goes in step reads a source alike with its table and with the
readers of all places. -/
theorem Reading.alike_places {α : Type} [Movable α] {rule : Rules → Parser α} (s : String)
    (h : ∀ P : Placement, P.tail = [] → ∀ k later later', P.Agree k later later' →
      InStep (· + P.shift) (P.At k 0) (P.At k 0) (rule later) (rule later')) :
    (rule (Entry.rules (Entry.table 0 s.toList)) ⟨0, s.toList⟩).Alike
      (rule Grammar.places ⟨0, s.toList⟩) :=
  (h (Placement.alone ⟨0, s.toList⟩ 0) rfl
    _ _ _ (Placement.agree_table s.toList _) _ _ (.inl (Placement.alone_same _ 0))).alike
    fun _ _ hc => (hc.same_of_tail rfl).eq rfl rfl

end DependentClasses
