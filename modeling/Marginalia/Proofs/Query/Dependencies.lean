/-
  Marginalia/Proofs/Query/Dependencies.lean
  =========================================
  **Dependencies with all that they need.**  The table that is searched leads from
  every id to the targets of its entry (`adjacent_declared`), so the closure over
  it is that of the step from an entry to its targets, nearest first
  (`allDependencies_breadthFirst`).  A loaded database, whose labels are values, is
  the same table under other names (`declared_map`).
-/
import Marginalia.Proofs.Graph.Closure
import Marginalia.Proofs.Table
import Marginalia.Query.Find

namespace Marginalia

open Marginalia.Graph

variable {κ : Type}

/-! ### The dependencies of an entry -/

/-- The first id has an entry, and the second is a target of it of one of the kinds. -/
def Database.Requires (db : Database String κ) (kinds : List DepKind) (x y : String) : Prop :=
  ∃ e, db.entry? x = some e ∧ ∃ c ∈ kinds, y ∈ e.targets c

theorem Database.targetsOf_declared (db : Database String κ) (kinds : List DepKind) (x : String) :
    targetsOf (db.declared kinds) x =
      ((db.entry? x).map fun e => kinds.flatMap e.targets).getD [] := by
  have hdeclared :
      db.declared kinds = Table.mapValues (fun e => kinds.flatMap e.targets) db.entries := rfl
  rw [targetsOf, hdeclared, Table.get?_mapValues]
  rfl

theorem Database.adjacent_declared (db : Database String κ) (kinds : List DepKind) :
    Adjacent (db.declared kinds) = db.Requires kinds := by
  funext x y
  rw [Adjacent, db.targetsOf_declared, Database.Requires]
  cases db.entry? x with
  | none => simp
  | some e => simp

theorem Json.str_beq_str (s t : String) : (Json.str s == Json.str t) = (s == t) := rfl

/-- With labels that are values, an entry declares the same targets. -/
theorem Database.declared_map (db : Database String κ) {μ : Type} (g : κ → μ)
    (kinds : List DepKind) :
    (db.map Json.str g).declared kinds = relabel Json.str (db.declared kinds) := by
  have htargets : ∀ e : Entry String,
      kinds.flatMap (e.map Json.str).targets = (kinds.flatMap e.targets).map Json.str := by
    intro e
    rw [List.map_flatMap]
    apply List.flatMap_congr
    intro c _
    rw [Entry.targets, Entry.map, Table.get?_mapValues, Entry.targets]
    cases Table.get? c.name e.deps <;> rfl
  simp only [Database.declared, Database.map, relabel, Table.mapValues, List.map_map]
  apply List.map_congr_left
  rintro ⟨id, e⟩ _
  exact congrArg _ (htargets e)

/-- The dependencies of an id with all that they need are the other ids that steps from an entry to
its targets lead to, each once, nearest first.  An id without an entry leads nowhere.  It makes no
difference if the database was loaded, so that its labels are values. -/
theorem allDependencies_breadthFirst (db : Database String κ) (kinds : List DepKind) (id : String) :
    (db.allDependencies kinds id).Nodup ∧
    (∀ y, y ∈ db.allDependencies kinds id ↔
      y ≠ id ∧ ∃ n, 1 ≤ n ∧ LeadsIn (db.Requires kinds) id n y) ∧
    (db.allDependencies kinds id).Pairwise (NoFarther (db.Requires kinds) id) ∧
    ∀ (μ : Type) (g : κ → μ), (db.map Json.str g).allDependencies kinds (.str id) =
      (db.allDependencies kinds id).map .str := by
  refine ⟨nodup_closureFrom _ _ _, ?_, ?_, ?_⟩
  · intro y
    rw [← db.adjacent_declared]
    exact mem_reachable_iff
  · rw [← db.adjacent_declared]
    exact nearestFirst_reachable _ id
  · intro μ g
    rw [Database.allDependencies, db.declared_map]
    exact reachable_relabel Json.str_beq_str _ id

end Marginalia
