/-!
# Listing by rank

A map lists its entries in an order that is not to be known beforehand, and that may be another one
each time. What goes through a map is told the order, by a rank for each name.
-/

namespace ResourceSelection

variable {α : Type}

/-- A list with an element put in front of the first one of no smaller rank. -/
def insertRanked (rank : α → Nat) (x : α) : List α → List α
  | [] => [x]
  | y :: ys => if rank x ≤ rank y then x :: y :: ys else y :: insertRanked rank x ys

/-- The elements of a list by rank. Those of equal rank stay in their order. -/
def byRank (rank : α → Nat) (xs : List α) : List α := xs.foldr (insertRanked rank) []

end ResourceSelection
