/-!
# Sorting

Listings, reports and written maps are in ascending order of some key.  Each item is put in front of the
first item that does not have to stand before it, starting from the last one, so items of equal rank
keep their order.
-/

namespace AgentKit

/-- Puts `x` in front of the first item that it may precede. -/
def insertBy {α : Type} (le : α → α → Bool) (x : α) : List α → List α
  | [] => [x]
  | y :: ys => if le x y then x :: y :: ys else y :: insertBy le x ys

/-- The items in the order `le`, those of equal rank as they came. -/
def sortBy {α : Type} (le : α → α → Bool) : List α → List α
  | [] => []
  | x :: xs => insertBy le x (sortBy le xs)

end AgentKit
