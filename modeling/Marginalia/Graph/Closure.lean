/-
  Marginalia/Graph/Closure.lean
  =============================
  **Breadth-first closure.**  The nodes that can be reached by following targets,
  nearest first, each once.
-/
import Marginalia.Graph.Adjacency

namespace Marginalia.Graph

variable {α : Type} [BEq α]

/-- The nodes of the queue and those reached from them that have not been visited.  The entry of a
node leaves the table when the node is visited. -/
def closureFrom (adj : Adjacency α) (visited : List α) (queue : List α) : List α :=
  match queue with
  | [] => []
  | x :: queue =>
    if visited.contains x then closureFrom adj visited queue
    else
      let next := (targetsOf adj x).filter fun t => !(x :: visited).contains t
      x :: closureFrom (Table.erase x adj) (x :: visited) (queue ++ next)
termination_by load adj + queue.length
decreasing_by
  · simp
  · have := load_erase_add_targets_le adj x
    have := List.length_filter_le (fun t => !(x :: visited).contains t) (targetsOf adj x)
    simp only [List.length_append, List.length_cons]
    omega

/-- The nodes other than `x` that can be reached from `x`. -/
def reachable (adj : Adjacency α) (x : α) : List α := closureFrom adj [x] (targetsOf adj x)

end Marginalia.Graph
