/-!
# Indexes that count from either end

An index `0, 1, …` counts from the front of a list and `-1, -2, …` from its back. Both the cells of
a hand-made parsing table and the queries on passes and alternatives may use either.
-/

namespace Predictive

/-- The place in a list of the given length that an index means. -/
def SignedIndex.place? (length : Nat) (index : Int) : Option Nat :=
  if 0 ≤ index then
    if index < length then some index.toNat else none
  else
    if 0 ≤ index + length then some (index + length).toNat else none

/-- The element at an index that counts from the front, or from the back if it is negative. -/
def SignedIndex.get? {α : Type} (xs : List α) (index : Int) : Option α :=
  (place? xs.length index).bind (xs[·]?)

namespace SignedIndex

variable {α : Type}

@[simp] theorem get?_ofNat (xs : List α) (n : Nat) : get? xs n = xs[n]? := by
  unfold get? place?
  simp only [Int.natCast_nonneg, if_true]
  split
  · simp
  · simp; omega

theorem mem_of_get? {xs : List α} {i : Int} {x : α} (h : get? xs i = some x) : x ∈ xs := by
  obtain ⟨k, -, hk⟩ := Option.bind_eq_some_iff.mp h
  exact List.mem_of_getElem? hk

end SignedIndex

end Predictive
