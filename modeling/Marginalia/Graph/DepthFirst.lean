/-
  Marginalia/Graph/DepthFirst.lean
  ================================
  **Cycles.**  A depth-first search that enters every node once.  Whenever a
  target lies on the path from the start to the current node, the part of the
  path from that target on is a cycle; of several cycles over the same nodes the
  first one found is kept.
-/
import Marginalia.Graph.Adjacency

namespace Marginalia.Graph

variable {α : Type} [BEq α]

/-- The cycle that closes when a node on the path is met again; `path` leads from the current node
back to the start. -/
def cycleTo (target : α) (path : List α) : List α :=
  target :: (path.takeWhile (· != target)).reverse ++ [target]

/-- Two cycles run through the same nodes. -/
def sameNodes (c d : List α) : Bool := c.all (d.contains ·) && d.all (c.contains ·)

/-- Adds a cycle unless one over the same nodes is there. -/
def report (cycle : List α) (cycles : List (List α)) : List (List α) :=
  if cycles.any (sameNodes cycle) then cycles else cycles ++ [cycle]

/-- What a search has done so far: entries of nodes it has not entered, the nodes it has entered,
and the cycles found. -/
structure Search (α : Type) where
  unentered : Adjacency α
  entered : List α
  cycles : List (List α)

/-- Enters a node: its entry leaves the table. -/
def Search.enter (s : Search α) (x : α) : Search α :=
  { s with unentered := Table.erase x s.unentered, entered := x :: s.entered }

/-- Follows the targets that are left on the path.  A frame is a node of the path with its targets
still to be followed, the current node first. -/
def Search.follow (s : Search α) (frames : List (α × List α)) : Search α :=
  match frames with
  | [] => s
  | (_, []) :: rest => s.follow rest
  | (n, t :: ts) :: rest =>
    let path := n :: rest.map Prod.fst
    if path.contains t then
      { s with cycles := report (cycleTo t path) s.cycles }.follow ((n, ts) :: rest)
    else if s.entered.contains t then s.follow ((n, ts) :: rest)
    else (s.enter t).follow ((t, targetsOf s.unentered t) :: (n, ts) :: rest)
termination_by load s.unentered + load frames
decreasing_by
  · simp
  · simp
  · simp
  · have := load_erase_add_targets_le s.unentered t
    simp [Search.enter]
    omega

/-- Searches from a node that has not been entered. -/
def Search.visit (s : Search α) (x : α) : Search α :=
  if s.entered.contains x then s else (s.enter x).follow [(x, targetsOf s.unentered x)]

/-- The cycles of a graph, each closed by repeating its first node. -/
def cyclesOf (adj : Adjacency α) : List (List α) :=
  ((Table.keys adj).foldl Search.visit ⟨adj, [], []⟩).cycles

/-- The first cycle found that runs through a node. -/
def cycleThrough (adj : Adjacency α) (x : α) : Option (List α) :=
  (cyclesOf adj).find? (·.contains x)

end Marginalia.Graph
