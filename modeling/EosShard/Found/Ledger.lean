import Mathlib

/-!
# Ledgers

What a component did with the resources it manages: it acquires one, it releases one.

* `settle held es`: what is held after the events `es`, with multiplicity; `none` as soon as something
  is released that is not held. So `settle [] es = some []` says that everything that was released was
  held at the time, and that everything that was acquired has been released, once.
* Ledgers are kept up event by event: `settle_concat_acquired`, `settle_concat_released`.
-/

namespace EosShard.Found

variable {α : Type} [DecidableEq α]

/-- An entry of a ledger. -/
inductive LedgerEvent (α : Type)
  | acquired (a : α)
  | released (a : α)
  deriving DecidableEq

/-- What is held after the events. -/
def settle : List α → List (LedgerEvent α) → Option (List α)
  | held, [] => some held
  | held, .acquired a :: es => settle (a :: held) es
  | held, .released a :: es => if a ∈ held then settle (held.erase a) es else none

/-- The events of a second list are settled on what the first one leaves. -/
theorem settle_append (held : List α) (es fs : List (LedgerEvent α)) :
    settle held (es ++ fs) = (settle held es).bind fun held' => settle held' fs := by
  induction es generalizing held with
  | nil => rfl
  | cons e es ih =>
      cases e with
      | acquired a => exact ih (a :: held)
      | released a =>
          simp only [List.cons_append, settle]
          by_cases h : a ∈ held
          · rw [if_pos h, if_pos h]
            exact ih (held.erase a)
          · rw [if_neg h, if_neg h]
            rfl

/-- Something more is held. -/
theorem settle_concat_acquired {held : List α} {es : List (LedgerEvent α)}
    (h : settle [] es = some held) (a : α) :
    settle [] (es ++ [.acquired a]) = some (a :: held) := by
  rw [settle_append, h]
  rfl

/-- What is released has to be held. -/
theorem settle_concat_released {held : List α} {es : List (LedgerEvent α)}
    (h : settle [] es = some held) (a : α) :
    settle [] (es ++ [.released a]) = if a ∈ held then some (held.erase a) else none := by
  rw [settle_append, h]
  rfl

end EosShard.Found
