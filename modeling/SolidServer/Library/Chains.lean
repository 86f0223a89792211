import Mathlib.Data.Option.Basic
import Mathlib.Data.Nat.Notation

/-!
# Chains

The chain of a partial function goes from an element to what the function gives, and on from
there, and ends where the function is not defined.  If every element has a rank, and the
function lowers the rank by one and is not defined exactly at rank zero, then the chain of an
element has one step for each unit of its rank (`Ranked.after_eq_none_iff`).
-/

namespace Chains

variable {α : Type*} {next : α → Option α} {rank : α → ℕ}

/-- What the chain of an element has after `n` steps, unless it has ended. -/
def after (next : α → Option α) : ℕ → α → Option α
  | 0, a => some a
  | n + 1, a => (next a).bind (after next n)

/-- The function lowers the rank by one, and is not defined exactly at rank zero. -/
structure Ranked (next : α → Option α) (rank : α → ℕ) : Prop where
  eq_none_iff : ∀ a, next a = none ↔ rank a = 0
  lowers : ∀ {a b}, next a = some b → rank a = rank b + 1

namespace Ranked

/-- A chain ends after as many steps as the rank says. -/
theorem after_eq_none_iff (h : Ranked next rank) {n : ℕ} {a : α} :
  after next n a = none ↔ rank a < n
  := by
  induction n generalizing a with
  | zero => simp [after]
  | succ n ih =>
      rw [after]
      cases hnext : next a with
      | none =>
          have hrank := (h.eq_none_iff a).mp hnext
          simp [hrank]
      | some b =>
          rw [Option.bind_some, ih, h.lowers hnext, Nat.add_lt_add_iff_right]

end Ranked

end Chains
