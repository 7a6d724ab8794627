/-
Sorting by a comparator, when all that is known of the sort is its contract.

A sorting routine returns some permutation of its input in which no element is
preceded by one the comparator puts after it.  It need not be stable, so the order
of ties is left open; but the sequence of keys is not, and `map_key_eq` says that
two routines agree on it whenever their inputs have the same keys.
-/
import Mathlib.Data.List.Sort
import Mathlib.Data.Int.Order.Basic

namespace Lib

/-- A sort by the comparator `before`, of which only the contract is known. -/
structure SortRoutine {β : Type} (before : β → β → Bool) where
  sort : List β → List β
  perm : ∀ l, (sort l).Perm l
  ordered : ∀ l, (sort l).Pairwise fun a b => before b a = false

namespace SortRoutine

variable {β γ κ : Type} [LinearOrder κ]

/-- Largest key first. -/
def descending (key : β → κ) : β → β → Bool := fun a b => decide (key b < key a)

theorem pairwise_key {key : β → κ} (r : SortRoutine (descending key)) (l : List β) :
    ((r.sort l).map key).Pairwise (· ≥ ·) := by
  rw [List.pairwise_map]
  refine (r.ordered l).imp ?_
  intro a b h
  simpa [descending] using h

/-- **The sequence of keys does not depend on the routine.** -/
theorem map_key_eq {key : β → κ} {key' : γ → κ} (r : SortRoutine (descending key))
    (r' : SortRoutine (descending key')) {l : List β} {l' : List γ}
    (h : (l.map key).Perm (l'.map key')) :
    (r.sort l).map key = (r'.sort l').map key' := by
  have hperm : ((r.sort l).map key).Perm ((r'.sort l').map key') :=
    ((r.perm l).map key).trans (h.trans ((r'.perm l').map key').symm)
  exact hperm.eq_of_pairwise (fun a b _ _ hab hba => le_antisymm hba hab)
    (pairwise_key r l) (pairwise_key r' l')

/-- Insertion sort keeps the contract. -/
def insertion (key : β → κ) : SortRoutine (descending key) where
  sort := List.insertionSort fun a b => key b ≤ key a
  perm := List.perm_insertionSort _
  ordered l := by
    have : Std.Total fun a b : β => key b ≤ key a := ⟨fun a b => le_total (key b) (key a)⟩
    have : IsTrans β fun a b : β => key b ≤ key a := ⟨fun _ _ _ hab hbc => le_trans hbc hab⟩
    refine (List.pairwise_insertionSort (fun a b : β => key b ≤ key a) l).imp ?_
    intro a b h
    simpa [descending] using h

end SortRoutine

end Lib
