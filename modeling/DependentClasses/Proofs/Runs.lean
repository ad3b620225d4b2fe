import DependentClasses.Proofs.Binding
import Mathlib.Logic.Relation

/-! Runs of the solver: pattern variables are created, names are reserved, and values are
unified in any order and in any contexts. What a run leaves is known from the scopes that
the variables were created with and from a log of the bindings. -/
namespace DependentClasses

open Relation

namespace Solution

variable {s : Solution} {m k : Name}

/-- The solution of `m` mentions `k`. The types that it records count as well: a class in one of
them may fulfil a property, and reading back then goes on in it. -/
def DependsOn (s : Solution) (m k : Name) : Prop :=
  ∃ a v, s.find m = some (.solved a v) ∧ v.Has (.name k)

theorem DependsOn.isSolved (h : s.DependsOn m k) : s.IsSolved m :=
  let ⟨a, v, hfind, _⟩ := h
  ⟨a, v, hfind⟩

/-- The variables that `m` leads to are closed under solutions. -/
theorem keeps_leads (s : Solution) (m : Name) : s.Keeps (Part.Named (TransGen s.DependsOn m)) := by
  intro k b w hk hlead q hq
  cases q with
  | name z => exact hlead.tail ⟨b, w, hk, hq⟩
  | missing | labels | fulfilled | fields | rest => trivial

theorem over_leads {a v : Value} (hm : s.find m = some (.solved a v)) :
    v.Over (TransGen s.DependsOn m) := by
  intro q hq
  cases q with
  | name z => exact .single ⟨a, v, hm, hq⟩
  | missing | labels | fulfilled | fields | rest => trivial

end Solution

abbrev Scopes := List (Name × List Name)

/-- Solutions that calls lead to, where a variable `x` may be created in `s` if `may s x`. -/
inductive Reached (may : Solution → Name → Prop) : Scopes → Solution → Prop
  | start : Reached may [] {}
  | create {σ s x} (a : Value) (scope : List Name) : Reached may σ s → may s x →
      Reached may ((x, scope) :: σ) (s.create x a scope)
  | reserve {σ s} (xs : List Name) : Reached may σ s → Reached may σ (s.reserve xs)
  | solve {σ s s' n ctx a l r} : Reached may σ s → (unify n ctx a l r).Yields s () s' →
      Reached may σ s'

/-- A solution with the bindings that its solved variables come from, the last one first. -/
inductive Logged (may : Solution → Name → Prop) : Scopes → List Binding → Solution → Prop
  | start : Logged may [] [] {}
  | create {σ log s x} (a : Value) (scope : List Name) : Logged may σ log s → may s x →
      Logged may ((x, scope) :: σ) (log.filter (·.head ≠ x)) (s.create x a scope)
  | reserve {σ log s} (xs : List Name) : Logged may σ log s → Logged may σ log (s.reserve xs)
  | bind {σ log} (b : Binding) : Logged may σ log b.before → Logged may σ (b :: log) b.after

section

variable {may : Solution → Name → Prop} {σ : Scopes} {s s' : Solution}

theorem Logged.append {log bs : List Binding} (h : Logged may σ log s) (hb : Binds s bs s') :
    Logged may σ (bs ++ log) s' := by
  induction hb with
  | nil => exact h
  | cons b _ ih => exact .bind b ih

theorem Reached.exists_log (h : Reached may σ s) : ∃ log, Logged may σ log s := by
  induction h with
  | start => exact ⟨[], .start⟩
  | create a scope _ hx ih =>
    obtain ⟨log, hlog⟩ := ih
    exact ⟨_, .create a scope hlog hx⟩
  | reserve xs _ ih =>
    obtain ⟨log, hlog⟩ := ih
    exact ⟨log, .reserve xs hlog⟩
  | solve _ hu ih =>
    obtain ⟨log, hlog⟩ := ih
    obtain ⟨bs, hbs⟩ := bindsTo_of_unify hu
    exact ⟨bs ++ log, hlog.append hbs⟩

namespace Logged

variable {log : List Binding}

theorem namedIn (h : Logged may σ log s) : s.NamedIn s.names := by
  induction h with
  | start => exact fun y p hy => by simp at hy
  | create a scope _ _ ih => exact ih.create
  | reserve xs _ ih => exact ih.reserve xs
  | bind b _ ih => exact ih.bind

/-- The solved variables are those of the log. -/
theorem find_eq_solved_iff (h : Logged may σ log s) {m : Name} {a v : Value} :
    s.find m = some (.solved a v) ↔ ∃ b ∈ log, b.head = m ∧ b.type = a ∧ b.value = v := by
  induction h generalizing m a v with
  | start => simp
  | @create σ log s x c scope _ _ ih =>
    rw [Solution.find_create]
    split
    · next hm =>
      simp only [List.mem_filter, decide_eq_true_eq]
      constructor
      · intro h; cases h
      · rintro ⟨b, ⟨-, hne⟩, rfl, -⟩; exact absurd hm hne
    · next hm =>
      rw [ih]
      constructor
      · rintro ⟨b, hb, rfl, hrest⟩; exact ⟨b, by simpa using ⟨hb, hm⟩, rfl, hrest⟩
      · rintro ⟨b, hb, hrest⟩; exact ⟨b, (List.mem_filter.1 hb).1, hrest⟩
  | reserve xs _ ih => rw [Solution.find_reserve]; exact ih
  | @bind σ log b hlog ih =>
    rw [b.find_after]
    split
    · next hm =>
      subst hm
      constructor
      · intro h
        cases h
        exact ⟨b, List.mem_cons_self, rfl, rfl, rfl⟩
      · rintro ⟨c, hc, hhead, rfl, rfl⟩
        rcases List.mem_cons.1 hc with rfl | hc
        · rfl
        · exact absurd ⟨_, _, ih.2 ⟨c, hc, hhead, rfl, rfl⟩⟩ b.not_isSolved_head
    · next hm =>
      rw [ih]
      constructor
      · rintro ⟨c, hc, hrest⟩; exact ⟨c, List.mem_cons_of_mem b hc, hrest⟩
      · rintro ⟨c, hc, rfl, hrest⟩
        rcases List.mem_cons.1 hc with rfl | hc
        · exact absurd rfl hm
        · exact ⟨c, hc, rfl, hrest⟩

theorem find_head (h : Logged may σ log s) {b : Binding} (hb : b ∈ log) :
    s.find b.head = some (.solved b.type b.value) :=
  h.find_eq_solved_iff.2 ⟨b, hb, rfl, rfl, rfl⟩

theorem lookup_of_unsolved (h : Logged may σ log s) {m : Name} {a : Value} {scope : List Name}
    (hm : s.find m = some (.unsolved a scope)) : σ.lookup m = some scope := by
  induction h with
  | start => simp at hm
  | create c scope' _ _ ih =>
    rw [Solution.find_create] at hm
    rw [lookup_cons_ite]
    split at hm
    · next heq =>
      cases hm
      rw [if_pos heq]
    · next hne =>
      rw [if_neg hne]
      exact ih hm
  | reserve xs _ ih => exact ih hm
  | bind b _ ih =>
    rw [b.find_after] at hm
    split at hm
    · cases hm
    · exact ih hm

/-- The scope that a binding was checked against is the one that its variable was created with. -/
theorem lookup_head (h : Logged may σ log s) {b : Binding} (hb : b ∈ log) :
    σ.lookup b.head = some b.scope := by
  induction h with
  | start => simp at hb
  | create c scope _ _ ih =>
    obtain ⟨hb, hne⟩ := List.mem_filter.1 hb
    rw [lookup_cons_ite, if_neg (of_decide_eq_true hne)]
    exact ih hb
  | reserve xs _ ih => exact ih hb
  | bind c hlog ih =>
    rcases List.mem_cons.1 hb with rfl | hb
    · exact hlog.lookup_of_unsolved b.unsolved
    · exact ih hb

/-- What was a pattern variable stays one. -/
theorem isPatternVariable_of_before (h : Logged may σ log s) {b : Binding} (hb : b ∈ log) {z : Name}
    (hz : b.before.isPatternVariable z) : s.isPatternVariable z := by
  induction h with
  | start => simp at hb
  | create c scope _ _ ih => exact Solution.isPatternVariable_create (ih (List.mem_filter.1 hb).1)
  | reserve xs _ ih => exact ih hb
  | bind c hlog ih =>
    rw [Binding.after, Solution.isPatternVariable_bind]
    rcases List.mem_cons.1 hb with rfl | hb
    · exact hz
    · exact ih hb

end Logged

end

end DependentClasses
