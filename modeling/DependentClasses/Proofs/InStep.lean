import DependentClasses.Proofs.Spans

/-! Readers in step. Two readers, run at corresponding places, both succeed or both fail; what they
read is the same up to places, they stop at corresponding places again, and they meet the same
symbols. -/
namespace DependentClasses

section
variable {α β : Type} [Movable α] [Movable β] {f : Nat → Nat} {R R' R'' : Cursor → Cursor → Prop}

inductive Reply.InStep (f : Nat → Nat) (R : Cursor → Cursor → Prop) : Reply α → Reply α → Prop
  | failed {t t' : Trace} : t'.symbols = t.symbols → InStep f R ⟨none, t⟩ ⟨none, t'⟩
  | read {t t' : Trace} (a : α) {c c' : Cursor} :
    t'.symbols = t.symbols → R c c' → InStep f R ⟨some (a, c), t⟩ ⟨some (moved f a, c'), t'⟩

namespace Reply.InStep

theorem mono {r r' : Reply α} (h : r.InStep f R r') (hR : ∀ c c', R c c' → R' c c') :
    r.InStep f R' r' := by
  cases h with
  | failed ht => exact .failed ht
  | read a ht hc => exact .read a ht (hR _ _ hc)

theorem after {r r' : Reply α} (h : r.InStep f R r') {t t' : Trace} (ht : t'.symbols = t.symbols) :
    (r.after t).InStep f R (r'.after t') := by
  cases h with
  | failed ht' => exact .failed (by simp only [Trace.join, ht, ht'])
  | read a ht' hc => exact .read a (by simp only [Trace.join, ht, ht']) hc

theorem of_some {r r' : Reply α} (h : r.InStep f R r') {a : α} {c : Cursor}
    (hr : r.result = some (a, c)) :
    r'.trace.symbols = r.trace.symbols ∧ ∃ c', r'.result = some (moved f a, c') ∧ R c c' := by
  cases h with
  | failed _ => cases hr
  | read a ht hc =>
    cases hr
    exact ⟨ht, _, rfl, hc⟩

theorem of_none {r r' : Reply α} (h : r.InStep f R r') (hr : r.result = none) :
    r'.trace.symbols = r.trace.symbols ∧ r'.result = none := by
  cases h with
  | failed ht => exact ⟨ht, rfl⟩
  | read a _ _ => cases hr

end Reply.InStep

namespace Parser

def InStep (f : Nat → Nat) (R R' : Cursor → Cursor → Prop) (p q : Parser α) : Prop :=
  ∀ c c', R c c' → (p c).InStep f R' (q c')

namespace InStep

variable {p q p' q' : Parser α}

theorem mono {S S' : Cursor → Cursor → Prop} (h : InStep f R R' p q) (hS : ∀ c c', S c c' → R c c')
    (hS' : ∀ c c', R' c c' → S' c c') : InStep f S S' p q :=
  fun c c' hc => (h c c' (hS c c' hc)).mono hS'

theorem pure {a b : α} (h : b = moved f a) : InStep f R R (Pure.pure a) (Pure.pure b) := by
  subst h
  exact fun _ _ hc => .read a rfl hc

theorem bind {k l : α → Parser β} (h : InStep f R R' p q)
    (hk : ∀ a, InStep f R' R'' (k a) (l (moved f a))) :
    InStep f R R'' (p >>= k) (q >>= l) := by
  intro c c' hc
  change (Parser.bind p k c).InStep f R'' (Parser.bind q l c')
  unfold Parser.bind
  have hp := h c c' hc
  generalize p c = r, q c' = r' at hp
  cases hp with
  | failed ht => exact .failed ht
  | read a ht hc' => exact (hk a _ _ hc').after ht

theorem orElse (h : InStep f R R' p q) (h' : InStep f R R' p' q') :
    InStep f R R' (p <|> p') (q <|> q') := by
  intro c c' hc
  change (Parser.orElse p p' c).InStep f R' (Parser.orElse q q' c')
  unfold Parser.orElse
  have hp := h c c' hc
  generalize p c = r, q c' = r' at hp
  cases hp with
  | failed ht => exact (h' c c' hc).after ht
  | read a ht hc' => exact .read a ht hc'

theorem optional (h : InStep f R R' p q) (hR : ∀ c c', R c c' → R' c c') :
    InStep f R R' (Parser.optional p) (Parser.optional q) :=
  .orElse (.bind h fun _ => .pure rfl) (.mono (.pure rfl) hR fun _ _ hc => hc)

end InStep

end Parser

end

end DependentClasses
