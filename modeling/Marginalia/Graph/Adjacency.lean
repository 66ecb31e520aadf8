/-
  Marginalia/Graph/Adjacency.lean
  ===============================
  **Adjacency tables.**  For every node its targets, in order.  Searches take a
  node's entry out of the table when they expand it; `load` counts what is left to
  do, and taking an entry out lowers it by the work that the entry brings.
-/
import Marginalia.Table

namespace Marginalia.Graph

/-- For every node its targets; a target without an entry is a leaf. -/
abbrev Adjacency (α : Type) := Table α (List α)

variable {α : Type} [BEq α]

/-- The targets of a node. -/
def targetsOf (adj : Adjacency α) (x : α) : List α := (Table.get? x adj).getD []

/-- The work in a list of nodes with targets still to be followed: one step a node and two a
target. -/
def load : List (α × List α) → Nat
  | [] => 0
  | p :: t => 2 * p.2.length + 1 + load t

omit [BEq α] in
@[simp] theorem load_nil : load ([] : List (α × List α)) = 0 := rfl

omit [BEq α] in
@[simp] theorem load_cons (p : α × List α) (t : List (α × List α)) :
    load (p :: t) = 2 * p.2.length + 1 + load t := rfl

/-- Taking out the entry of a node moves its targets out of the load. -/
theorem load_erase_add_targets_le (adj : Adjacency α) (x : α) :
    load (Table.erase x adj) + 2 * (targetsOf adj x).length ≤ load adj := by
  induction adj with
  | nil => simp [Table.erase, targetsOf, Table.get?]
  | cons p t ih =>
    obtain ⟨k, l⟩ := p
    cases h : k == x with
    | true => simp [Table.erase, targetsOf, Table.get?, h]; omega
    | false =>
      simp only [targetsOf] at ih ⊢
      simp only [Table.erase, Table.get?, h, Bool.false_eq_true, if_false, load_cons]
      omega

end Marginalia.Graph
