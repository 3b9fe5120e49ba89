/-!
# Cutting at separators

Paths, queries and addresses are pieces with a separator between them. `cutAt` gives the pieces, one
more than there are separators.
-/

namespace WorkerBroker

variable {α : Type} [DecidableEq α]

/-- The pieces of a list between the elements of one kind. -/
def cutAt (separator : α) : List α → List (List α)
  | [] => [[]]
  | c :: cs =>
    match cutAt separator cs with
    | [] => [[c]]
    | piece :: pieces => if c = separator then [] :: piece :: pieces else (c :: piece) :: pieces

end WorkerBroker
