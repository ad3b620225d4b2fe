import DependentClasses.Proofs.Renaming
import DependentClasses.Proofs.SortedNames
import DependentClasses.Solution.Unsolved
import DependentClasses.Term.Printer

/-! What the names of binders do not change: the free names of a term, the pattern variables that
are listed as open in it, and whether its text names a binder or leaves it out. -/
namespace DependentClasses

open List (Forall₂)

namespace Term

section

variable {θ : Renaming} {L R : List Name} {x x' : Name}

/-- What occurs below a binder and is not bound there stands for something outside. -/
theorem occurrences_under {l l' : List Name}
    (h : Forall₂ (fun y y' => θ.under x x' y y' ∧ y ∉ x :: L) l l') :
    Forall₂ (fun y y' => θ y y' ∧ y ∉ L) l l' := by
  refine h.imp fun y y' => ?_
  rintro ⟨hunder, hy⟩
  rw [List.mem_cons, not_or] at hy
  exact ⟨(hunder.of_ne hy.1).2, hy.2⟩

theorem bound_iff_under (hbound : ∀ y y', θ y y' → (y ∈ L ↔ y' ∈ R)) (y y' : Name)
    (h : θ.under x x' y y') :
    y ∈ x :: L ↔ y' ∈ x' :: R := by
  rcases h with ⟨rfl, rfl⟩ | ⟨hy, hy', h⟩
  · exact iff_of_true List.mem_cons_self List.mem_cons_self
  · rw [List.mem_cons, List.mem_cons, hbound y y' h]
    exact or_congr_left (iff_of_false hy hy')

theorem fieldsFreeIn_forall₂ {P : Name → Name → Prop} {fs fs' : List (Name × Term)}
    (h : FieldsAlike (fun a b : Term => Forall₂ P (a.freeIn L) (b.freeIn R)) fs fs') :
    Forall₂ P (fieldsFreeIn L fs) (fieldsFreeIn R fs') := by
  induction h with
  | nil => exact .nil
  | cons hf _ ih => exact List.rel_append hf.2 ih

/-- The free names of one term stand for those of the other, occurrence by occurrence. Below binders
this needs that a name is bound on one side exactly if the one that it stands for is bound on the
other. -/
theorem Alike.occurrences {t u : Term} (h : Alike θ t u)
    (hbound : ∀ y y', θ y y' → (y ∈ L ↔ y' ∈ R)) :
    Forall₂ (fun y y' => θ y y' ∧ y ∉ L) (t.freeIn L) (u.freeIn R) := by
  induction h generalizing L R with
  | @var θ x x' hx =>
    rw [freeIn, freeIn]
    by_cases hL : x ∈ L
    · rw [if_pos hL, if_pos ((hbound x x' hx).1 hL)]
      exact .nil
    · rw [if_neg hL, if_neg ((hbound x x' hx).not.1 hL)]
      exact .cons ⟨hx, hL⟩ .nil
  | type | string | quote | trivial | sole | emptyClass => exact .nil
  | pi _ _ iha ihb | fn _ _ iha ihb | sigma _ _ iha ihb | declared _ _ iha ihb =>
    -- what the binder hides is hidden on both sides, whatever stood for it outside
    exact List.rel_append (iha hbound) (occurrences_under (ihb (bound_iff_under hbound)))
  | app _ _ iha ihb | cons _ _ iha ihb => exact List.rel_append (iha hbound) (ihb hbound)
  | car _ ih | cdr _ ih | same _ ih | dot _ ih => exact ih hbound
  | equal _ _ _ iha ihl ihr =>
    exact List.rel_append (List.rel_append (iha hbound) (ihl hbound)) (ihr hbound)
  | fulfilled _ _ _ iha ihv ihb | letIn _ _ _ iha ihv ihb =>
    exact List.rel_append (List.rel_append (iha hbound) (ihv hbound))
      (occurrences_under (ihb (bound_iff_under hbound)))
  | object hlabels _ ih =>
    exact fieldsFreeIn_forall₂
      (fieldsAlike_iff.2 ⟨hlabels, fun i f f' hf hf' => ih i f f' hf hf' hbound⟩)

end

section

variable {t u : Term}

/-- Terms that differ in the names of binders have the same free names, in the same order. -/
theorem freeNames_eq_of_alphaEquivalent (h : t.alphaEquivalent u) : t.freeNames = u.freeNames := by
  have hoccurrences :=
    (alphaEquivalent_iff.1 h).occurrences (L := []) (R := []) fun y y' _ => by simp
  have heq : Forall₂ Eq (t.freeIn []) (u.freeIn []) := hoccurrences.imp fun y y' hy => hy.1
  rw [List.forall₂_eq_eq_eq] at heq
  rw [freeNames, freeNames, heq]

/-- A binder is mentioned exactly if the one that stands for it is. -/
theorem Alike.mentioned_iff {θ : Renaming} {x x' : Name} (h : Alike (θ.under x x') t u) :
    x ∈ t.freeNames ↔ x' ∈ u.freeNames := by
  constructor
  · intro hx
    obtain ⟨y, hy, ⟨-, rfl⟩ | ⟨hne, -⟩⟩ := h.exists_free hx
    · exact hy
    · exact absurd rfl hne
  · intro hx'
    obtain ⟨y, hy, ⟨rfl, -⟩ | ⟨-, hne, -⟩⟩ := h.symm.exists_free hx'
    · exact hy
    · exact absurd rfl hne

end

def parts : Term → List Term
  | .var _ | .type | .string | .quote _ | .trivial | .sole | .emptyClass => []
  | .pi _ _ a b | .fn _ _ a b | .app _ a b | .sigma _ a b | .cons a b | .declared _ _ a b => [a, b]
  | .car a | .cdr a | .same a | .dot a _ => [a]
  | .equal a b c | .fulfilled _ _ a b c | .letIn _ a b c => [a, b, c]
  | .object fields => fields.map Prod.snd

/-- The term that stands at a place inside of another one, which is told by the number of the part
to enter at each step. -/
def subtermAt : List Nat → Term → Option Term
  | [], t => some t
  | i :: path, t => t.parts[i]?.bind (subtermAt path)

/-- The parts are alike up to renamings of their own, since binders may stand over them. -/
theorem Alike.parts {θ : Renaming} {t u : Term} (h : Alike θ t u) :
    Forall₂ (fun a b => ∃ θ', Alike θ' a b) t.parts u.parts := by
  cases h with
  | var | type | string | quote | trivial | sole | emptyClass => exact .nil
  | pi ha hb | fn ha hb | sigma ha hb | declared ha hb => exact .cons ⟨_, ha⟩ (.cons ⟨_, hb⟩ .nil)
  | app ha hb | cons ha hb => exact .cons ⟨_, ha⟩ (.cons ⟨_, hb⟩ .nil)
  | car ha | cdr ha | same ha | dot ha => exact .cons ⟨_, ha⟩ .nil
  | equal ha hb hc => exact .cons ⟨_, ha⟩ (.cons ⟨_, hb⟩ (.cons ⟨_, hc⟩ .nil))
  | fulfilled ha hb hc | letIn ha hb hc => exact .cons ⟨_, ha⟩ (.cons ⟨_, hb⟩ (.cons ⟨_, hc⟩ .nil))
  | object hlabels hfields =>
    rw [Term.parts, Term.parts, List.forall₂_map_left_iff, List.forall₂_map_right_iff]
    exact (fieldsAlike_iff.2 ⟨hlabels, hfields⟩).imp fun f f' hf => ⟨_, hf.2⟩

/-- At each place of one term stands a term that is like the one there in the other. -/
theorem Alike.subtermAt {θ : Renaming} {t u a : Term} (h : Alike θ t u) {path : List Nat}
    (ha : t.subtermAt path = some a) :
    ∃ b, u.subtermAt path = some b ∧ ∃ θ', Alike θ' a b := by
  induction path generalizing θ t u with
  | nil =>
    cases ha
    exact ⟨u, rfl, θ, h⟩
  | cons i path ih =>
    obtain ⟨c, hc, ha⟩ := Option.bind_eq_some_iff.1 ha
    obtain ⟨hi, rfl⟩ := List.getElem?_eq_some_iff.1 hc
    obtain ⟨hlength, halike⟩ := List.forall₂_iff_get.1 h.parts
    obtain ⟨θ', hpart⟩ := halike i hi (hlength ▸ hi)
    obtain ⟨b, hb, hab⟩ := ih hpart ha
    exact ⟨b, Option.bind_eq_some_iff.2 ⟨_, List.getElem?_eq_getElem (hlength ▸ hi), hb⟩, hab⟩

/-- How a type with a binder is written. -/
inductive BinderStyle
  | named
  | omitted

/-- The binder is named only where it has to be. -/
def BinderStyle.of (needed : Prop) [Decidable needed] : BinderStyle :=
  if needed then .named else .omitted

def arrowText (p : Plicity) (x : Name) (a b : Term) (style : BinderStyle) : String :=
  match style, p with
  | .named, .explicit => "(" ++ x.text ++ ": " ++ a.textAs false ++ ") -> " ++ b.textAs false
  | .named, .implicit =>
    "(implicit " ++ x.text ++ ": " ++ a.textAs false ++ ") -> " ++ b.textAs false
  | .omitted, _ => a.textAs true ++ " -> " ++ b.textAs false

def pairText (x : Name) (a b : Term) (style : BinderStyle) : String :=
  match style with
  | .named => "exists (" ++ x.text ++ ": " ++ a.textAs false ++ ") " ++ b.textAs false
  | .omitted => "exists (" ++ a.textAs false ++ ") " ++ b.textAs false

/-- The text of a function or pair type has one of the styles, wherever it stands. -/
def WrittenIn (style : BinderStyle) : Term → Prop
  | .pi p x a b => ∀ operand, (pi p x a b).textAs operand = parens operand (arrowText p x a b style)
  | .sigma x a b => ∀ operand, (sigma x a b).textAs operand = parens operand (pairText x a b style)
  | _ => False

def SameStyle (t u : Term) : Prop :=
  (∃! style, t.WrittenIn style) ∧ ∀ style, t.WrittenIn style ↔ u.WrittenIn style

section

variable {style : BinderStyle} {p : Plicity} {x : Name} {a b : Term}

theorem length_textAs_operand_le (a : Term) :
    (a.textAs true).length ≤ (a.textAs false).length + 2 := by
  have hparens : ("(" ++ a.textAs false ++ ")").length = (a.textAs false).length + 2 := by
    rw [String.length_append, String.length_append, Nat.add_comm "(".length]
    rfl
  have htext : a.textAs true = a.textAs false ∨ a.textAs true = "(" ++ a.textAs false ++ ")" := by
    cases a with
    | pi p | fn p => cases p <;> exact .inr rfl
    | app p => cases p <;> exact .inl rfl
    | sigma | letIn => exact .inr rfl
    | _ => exact .inl rfl
  rcases htext with htext | htext
  · rw [htext]
    exact Nat.le_add_right _ _
  · exact Nat.le_of_eq ((congrArg String.length htext).trans hparens)

/-- The text with the binder is the longer one, also if the domain needs parentheses without it. -/
theorem length_arrowText_lt (p : Plicity) (x : Name) (a b : Term) :
    (arrowText p x a b .omitted).length < (arrowText p x a b .named).length := by
  have hoperand := a.length_textAs_operand_le
  have harrow : " -> ".length = 4 ∧ ") -> ".length = 5 ∧ ": ".length = 2 := ⟨rfl, rfl, rfl⟩
  cases p <;> simp only [arrowText, String.length_append] <;> omega

theorem length_pairText_lt (x : Name) (a b : Term) :
    (pairText x a b .omitted).length < (pairText x a b .named).length := by
  have hcolon : ": ".length = 2 := rfl
  simp only [pairText, String.length_append]
  omega

/-- Styles that differ in length are told apart by the text. -/
theorem text_eq_iff_style {text : Bool → String} {styled : BinderStyle → String}
    {chosen : BinderStyle} (hlonger : (styled .omitted).length < (styled .named).length)
    (htext : ∀ operand, text operand = parens operand (styled chosen)) :
    (∀ operand, text operand = parens operand (styled style)) ↔ style = chosen := by
  constructor
  · intro h
    have hlength := congrArg String.length ((h false).symm.trans (htext false))
    cases style <;> cases chosen
    · rfl
    · exact absurd hlength (Nat.ne_of_gt hlonger)
    · exact absurd hlength (Nat.ne_of_lt hlonger)
    · rfl
  · rintro rfl
    exact htext

theorem writtenIn_pi_iff :
    (pi p x a b).WrittenIn style ↔ style = .of (p = .implicit ∨ x ∈ b.freeNames) := by
  refine text_eq_iff_style (length_arrowText_lt p x a b) fun operand => ?_
  cases p with
  | explicit => by_cases hx : x ∈ b.freeNames <;> simp [textAs, arrowText, BinderStyle.of, hx]
  | implicit => simp [textAs, arrowText, BinderStyle.of]

theorem writtenIn_sigma_iff : (sigma x a b).WrittenIn style ↔ style = .of (x ∈ b.freeNames) := by
  refine text_eq_iff_style (length_pairText_lt x a b) fun operand => ?_
  by_cases hx : x ∈ b.freeNames <;> simp [textAs, pairText, BinderStyle.of, hx]

theorem BinderStyle.of_congr {P Q : Prop} [Decidable P] [Decidable Q] (h : P ↔ Q) : of P = of Q :=
  if_congr h rfl rfl

theorem SameStyle.intro {t u : Term} {chosen : BinderStyle}
    (ht : ∀ style, t.WrittenIn style ↔ style = chosen)
    (hu : ∀ style, u.WrittenIn style ↔ style = chosen) : SameStyle t u :=
  ⟨⟨chosen, (ht chosen).2 rfl, fun style => (ht style).1⟩,
    fun style => (ht style).trans (hu style).symm⟩

variable {θ : Renaming} {x' : Name} {a' b' : Term}

theorem Alike.sameStyle_pi (hb : Alike (θ.under x x') b b') :
    SameStyle (.pi p x a b) (.pi p x' a' b') := by
  refine .intro (fun _ => writtenIn_pi_iff) fun _ => ?_
  rw [BinderStyle.of_congr (or_congr_right hb.mentioned_iff)]
  exact writtenIn_pi_iff

theorem Alike.sameStyle_sigma (hb : Alike (θ.under x x') b b') :
    SameStyle (.sigma x a b) (.sigma x' a' b') := by
  refine .intro (fun _ => writtenIn_sigma_iff) fun _ => ?_
  rw [BinderStyle.of_congr hb.mentioned_iff]
  exact writtenIn_sigma_iff

end

end Term

variable {t u : Term}

/-- Free names do not depend on the names of binders. So the same pattern variables are listed as
unsolved, in whatever order they are met, and the texts of function and pair types at the same place
name their binders or leave them out alike. -/
theorem free_names_respect_alpha (h : t.alphaEquivalent u) :
    (∀ x, x ∈ t.freeNames ↔ x ∈ u.freeNames) ∧
      (∀ (s : Solution) (lexicon : Lexicon), s.unsolvedNames lexicon t = s.unsolvedNames lexicon u ∧
        ∀ names, names.Perm (s.unsolvedIn t) → (∀ x ∈ names, x.symbol ∈ lexicon) →
          lexicon.sort names = s.unsolvedNames lexicon u) ∧
      (∀ path p x a b, t.subtermAt path = some (.pi p x a b) →
        ∃ y a' b', u.subtermAt path = some (.pi p y a' b') ∧
        Term.SameStyle (.pi p x a b) (.pi p y a' b')) ∧
      ∀ path x a b, t.subtermAt path = some (.sigma x a b) →
        ∃ y a' b', u.subtermAt path = some (.sigma y a' b') ∧
        Term.SameStyle (.sigma x a b) (.sigma y a' b') := by
  have halike := Term.alphaEquivalent_iff.1 h
  have hfree := Term.freeNames_eq_of_alphaEquivalent h
  have hunsolved (s : Solution) : s.unsolvedIn t = s.unsolvedIn u := by
    rw [Solution.unsolvedIn, hfree, Solution.unsolvedIn]
  refine ⟨fun x => by rw [hfree], fun s lexicon => ⟨?_, fun names hnames hknown => ?_⟩, ?_, ?_⟩
  · rw [Solution.unsolvedNames, hunsolved, Solution.unsolvedNames]
  · rw [Solution.unsolvedNames, ← hunsolved]
    exact Lexicon.sort_eq_of_perm hnames hknown
  · intro path p x a b hnode
    obtain ⟨node, hnode', θ, hnodes⟩ := halike.subtermAt hnode
    cases hnodes with
    | pi _ hb => exact ⟨_, _, _, hnode', hb.sameStyle_pi⟩
  · intro path x a b hnode
    obtain ⟨node, hnode', θ, hnodes⟩ := halike.subtermAt hnode
    cases hnodes with
    | sigma _ hb => exact ⟨_, _, _, hnode', hb.sameStyle_sigma⟩

namespace ReboundNames

def P : Name := ⟨"P", 0⟩
def m : Name := ⟨"m", 0⟩
def n : Name := ⟨"n", 0⟩
def x : Name := ⟨"x", 0⟩
def y : Name := ⟨"y", 0⟩
def z : Name := ⟨"z", 0⟩

/-- All binders have the same name. The first is mentioned next to the second, the second next to
the third. -/
def rebound : Term :=
  .pi .explicit x .type <| .sigma x (.app .explicit (.var P) (.var x)) <|
    .pi .explicit x (.var x) (.app .explicit (.var n) (.var m))

def separate : Term :=
  .pi .explicit y .type <| .sigma z (.app .explicit (.var P) (.var y)) <|
    .pi .explicit y (.var z) (.app .explicit (.var n) (.var m))

def unsolved : Solution :=
  { entries := [(m, .unsolved .type []), (n, .unsolved .type [])], names := [m, n] }

end ReboundNames

open ReboundNames in
/-- The last binder is left out in both texts, and the two pattern variables are listed in the order
of their symbols, although they occur in the other one. -/
theorem rebound_names_written_alike :
    rebound.alphaEquivalent separate ∧ (P ∈ rebound.freeNames ↔ P ∈ separate.freeNames) ∧
      unsolved.unsolvedIn rebound = [n, m] ∧
      unsolved.unsolvedNames ["P", "m", "n"] separate = [m, n] ∧
      (∃ w a b, separate.subtermAt [1] = some (.sigma w a b) ∧
        (Term.sigma w a b).WrittenIn .named) ∧
      ∃ w a b, separate.subtermAt [1, 1] = some (.pi .explicit w a b) ∧
      (Term.pi .explicit w a b).WrittenIn .omitted := by
  have halpha : rebound.alphaEquivalent separate := by decide
  have hmet : unsolved.unsolvedIn rebound = [n, m] := by decide
  obtain ⟨hfree, hunsolved, hpi, hsigma⟩ := free_names_respect_alpha halpha
  have hsorted := (hunsolved unsolved ["P", "m", "n"]).2 [m, n] (hmet ▸ .swap n m []) (by decide)
  refine ⟨halpha, hfree P, hmet, hsorted.symm.trans (by decide), ?_, ?_⟩
  · obtain ⟨w, a, b, hnode, -, hstyle⟩ := hsigma [1] x _ _ rfl
    exact ⟨w, a, b, hnode, (hstyle .named).1 (Term.writtenIn_sigma_iff.2 rfl)⟩
  · obtain ⟨w, a, b, hnode, -, hstyle⟩ := hpi [1, 1] .explicit x _ _ rfl
    exact ⟨w, a, b, hnode, (hstyle .omitted).1 (Term.writtenIn_pi_iff.2 rfl)⟩

end DependentClasses
