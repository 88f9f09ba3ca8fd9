/-
  ShortCircuit.Sorting

  A stable sort by insertion.  Lists here are short (the children of a node,
  the attributes of a graph node).
-/

namespace ShortCircuit

variable {α : Type}

/-- Insert an element in front of the first one that is not smaller. -/
def insertBy (le : α → α → Bool) (x : α) : List α → List α
  | [] => [x]
  | y :: ys => if le x y then x :: y :: ys else y :: insertBy le x ys

/-- Sort a list; equals keep their order. -/
def sortBy (le : α → α → Bool) (xs : List α) : List α := xs.foldr (insertBy le) []

end ShortCircuit
