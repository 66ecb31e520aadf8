/-
  Marginalia/Context/Select.lean
  ==============================
  **Selecting entries for a prompt.**  By ids, else by tags, else by parts of file
  paths, else all of them; then, unless switched off, everything that they need at
  run time, nearest first.
-/
import Marginalia.Context.Agent
import Marginalia.Query.Find
import Marginalia.Text.Search

namespace Marginalia.Context

open Marginalia.Graph

variable {α κ : Type}

/-- What a prompt is made of. -/
structure Options (α : Type) where
  agent : Agent := .generic
  scope : List α := []
  ids : List α := []
  filePaths : List String := []
  includeDeps : Bool := true
  format : Format := .markdown
  /-- At most this many entries; a negative number leaves out entries at the end. -/
  maxEntries : Option Int := some 100
  tokenBudget : Int := 4000
  /-- The fields shown, if not those of the template. -/
  fields : Option (List String) := none

/-- A part of the file path of an entry. -/
def pathHolds (e : Entry α) (fragment : String) : Bool :=
  Text.occursIn fragment.toList e.filePath.toList

/-- The entries that the options name. -/
def initialSelection [BEq α] [Label α] (db : Database α κ) (o : Options α) : List (Entry α) :=
  let all := Table.values db.entries
  if !o.ids.isEmpty then o.ids.filterMap db.entry?
  else if !o.scope.isEmpty then all.filter (·.taggedWithAny o.scope)
  else if !o.filePaths.isEmpty then all.filter fun e => o.filePaths.any (pathHolds e)
  else all

/-- The targets of a list that are entries and not chosen yet, each once, with all that are then
chosen. -/
def discover [BEq α] (isEntry : α → Bool) (chosen : List α) : List α → List α × List α
  | [] => ([], chosen)
  | t :: ts =>
    if chosen.contains t || !isEntry t then discover isEntry chosen ts
    else
      let (found, chosen) := discover isEntry (t :: chosen) ts
      (t :: found, chosen)

theorem length_discover_le [BEq α] (isEntry : α → Bool) (chosen ts : List α) :
    (discover isEntry chosen ts).1.length ≤ ts.length := by
  induction ts generalizing chosen with
  | nil => simp [discover]
  | cons t ts ih =>
    simp only [discover]
    split
    · exact Nat.le_succ_of_le (ih chosen)
    · simpa using ih (t :: chosen)

/-- The entries needed by those in the queue, in the order in which they are met.  The targets of
an id leave the table when it is visited. -/
def neededFrom [BEq α] (isEntry : α → Bool) (adj : Adjacency α) (visited chosen : List α)
    (queue : List α) : List α :=
  match queue with
  | [] => []
  | x :: queue =>
    if visited.contains x then neededFrom isEntry adj visited chosen queue
    else
      let found := discover isEntry chosen (targetsOf adj x)
      found.1 ++ neededFrom isEntry (Table.erase x adj) (x :: visited) found.2 (queue ++ found.1)
termination_by load adj + queue.length
decreasing_by
  · simp
  · have := load_erase_add_targets_le adj x
    have := length_discover_le isEntry chosen (targetsOf adj x)
    simp only [List.length_append, List.length_cons]
    omega

/-- The ids of entries that a selection needs at run time and does not hold. -/
def needed [BEq α] [Label α] (db : Database α κ) (selected : List (Entry α)) : List α :=
  let ids := selected.map fun e => Label.ofText e.id
  neededFrom (fun x => (db.entry? x).isSome) (db.declared [.runtime]) [] ids ids

/-- The first `n` elements; a negative `n` leaves out that many at the end. -/
def takeInt {α : Type} (n : Int) (l : List α) : List α :=
  if 0 ≤ n then l.take n.toNat else l.take (l.length - n.natAbs)

/-- The selected entries, and how many were added as dependencies before the cut. -/
def select [BEq α] [Label α] (db : Database α κ) (o : Options α) : List (Entry α) × Nat :=
  let start := initialSelection db o
  let added := if o.includeDeps then (needed db start).filterMap db.entry? else []
  let all := start ++ added
  (match o.maxEntries with
    | some n => takeInt n all
    | none => all,
    added.length)

end Marginalia.Context
