/-
  Marginalia/Proofs/Validate/Agreement.lean
  =========================================
  **The rules and the database agree.**  The rules read the annotations of a corpus
  as they stand: annotations with the same id share their targets, and no target is
  listed twice.  A compiled database keeps the last annotation of every id, with
  its targets as declared.

    * The runtime graph of the database is part of the one that the rules search,
      so where the rules find no cycle the database has none.
    * If all annotations have ids and no two the same, the two graphs differ in
      repeated targets only, and those do not matter to the search: the cycles are
      the same.  The targets that the rules flag are then the orphaned ones.
-/
import Marginalia.Proofs.Database.Compile
import Marginalia.Proofs.Graph.Cycles
import Marginalia.Proofs.Graph.Thinning
import Marginalia.Validate.Report
import Mathlib.Data.List.DropRight

namespace Marginalia.Validate

/-! ### The graph of the rules -/

/-- Adding what is new to a list without repetition, as if the list had been whole. -/
theorem addNew_eraseDups (l new : List String) :
    addNew l.eraseDups new = (l ++ new).eraseDups := by
  induction new using List.reverseRecOn with
  | nil => simp [addNew]
  | append_singleton new t ih =>
    rw [addNew, List.foldl_concat]
    change (if (addNew l.eraseDups new).contains t then addNew l.eraseDups new
      else addNew l.eraseDups new ++ [t]) = _
    rw [ih, ← List.append_assoc, eraseDups_concat]
    congr 1
    simp [List.mem_eraseDups]

theorem runtimeTargets_concat (annotations : List Indexed) (x : Indexed) :
    runtimeTargets (annotations ++ [x]) =
      Table.update x.id [] (fun l => addNew l (x.note.record.targets [.runtime]))
        (runtimeTargets annotations) := by
  rw [runtimeTargets, List.foldl_concat]
  rfl

/-- Annotations with the same id share their targets, each target once. -/
theorem targetsOf_runtimeTargets (annotations : List Indexed) (id : String) :
    Graph.targetsOf (runtimeTargets annotations) id =
      ((annotations.filter (·.id == id)).flatMap
        fun x => x.note.record.targets [.runtime]).eraseDups := by
  induction annotations using List.reverseRecOn with
  | nil => rfl
  | append_singleton annotations x ih =>
    rw [runtimeTargets_concat, Graph.targetsOf, Table.update, List.filter_append]
    by_cases hid : x.id = id
    · subst hid
      rw [Table.get?_set_same, Option.getD_some]
      change addNew (Graph.targetsOf (runtimeTargets annotations) x.id) _ = _
      rw [ih, addNew_eraseDups]
      simp
    · rw [Table.get?_set_other (Ne.symm hid)]
      change Graph.targetsOf (runtimeTargets annotations) id = _
      simp [ih, hid]

/-- Where no two annotations have the same id, each brings its own targets. -/
theorem runtimeTargets_of_nodup {annotations : List Indexed}
    (h : (annotations.map (·.id)).Nodup) :
    runtimeTargets annotations =
      annotations.map fun x => (x.id, (x.note.record.targets [.runtime]).eraseDups) := by
  induction annotations using List.reverseRecOn with
  | nil => rfl
  | append_singleton annotations x ih =>
    rw [List.map_append, List.nodup_append] at h
    obtain ⟨hfront, _, hdisjoint⟩ := h
    have hnew : x.id ∉ Table.keys (runtimeTargets annotations) := by
      rw [ih hfront]
      intro hmem
      refine hdisjoint x.id ?_ x.id (by simp) rfl
      simpa [Table.keys, Function.comp_def] using hmem
    rw [runtimeTargets_concat, Table.update, Table.set_of_not_mem hnew,
      Table.get?_eq_none_iff.mpr hnew, ih hfront, List.map_append]
    exact congrArg (fun l => _ ++ [(x.id, l)]) (addNew_eraseDups [] _)

/-! ### The annotations with ids -/

theorem indexed_eq (corpus : List Extraction) :
    indexed corpus = (corpusAnnotations corpus).filterMap
      fun p => p.1.record.id?.map fun id => ⟨p.1, p.2, id⟩ := by
  simp [indexed, corpusAnnotations, List.filterMap_flatMap, List.filterMap_map]

theorem mem_indexed_iff {corpus : List Extraction} {x : Indexed} :
    x ∈ indexed corpus ↔
      (x.note, x.path) ∈ corpusAnnotations corpus ∧ x.note.record.id? = some x.id := by
  rw [indexed_eq, List.mem_filterMap]
  constructor
  · rintro ⟨⟨a, path⟩, hnote, hx⟩
    obtain ⟨id, hid, rfl⟩ := Option.map_eq_some_iff.mp hx
    exact ⟨hnote, hid⟩
  · rintro ⟨hnote, hid⟩
    exact ⟨(x.note, x.path), hnote, by simp [hid]⟩

/-- Where the database has a runtime dependency, the rules have it too. -/
theorem adjacent_of_adjacent_compiled {b : Base} {stamp : Stamp} {corpus : List Extraction}
    {db : Compiled} (h : compile b stamp corpus = .ok db) {u v : String}
    (huv : Graph.Adjacent db.runtimeTargets u v) :
    Graph.Adjacent (runtimeTargets (indexed corpus)) u v := by
  rw [runtimeTargets_of_compile h] at huv
  obtain ⟨targets, hget⟩ : ∃ targets, Table.get? u (db.declared [.runtime]) = some targets := by
    apply Option.ne_none_iff_exists'.mp
    rw [Ne, Table.get?_eq_none_iff, not_not]
    exact Graph.mem_keys_of_adjacent huv
  have hv : v ∈ targets := by simpa [Graph.Adjacent, Graph.targetsOf, hget] using huv
  obtain ⟨⟨id, e⟩, hentry, heq⟩ := List.mem_map.mp (Table.mem_of_get?_eq_some hget)
  obtain ⟨rfl, rfl⟩ : id = u ∧ [.runtime].flatMap e.targets = targets := Prod.mk.inj heq
  obtain ⟨a, path, hnote, hid, hcompiled⟩ :=
    exists_note_of_mem_entries (compile_eq_ok h).1 hentry
  rw [Note.targets_of_entry hcompiled] at hv
  rw [Graph.Adjacent, targetsOf_runtimeTargets, List.mem_eraseDups, List.mem_flatMap]
  exact ⟨⟨a, path, id⟩, List.mem_filter.mpr ⟨mem_indexed_iff.mpr ⟨hnote, hid⟩, by simp⟩, hv⟩

/-! ### Corpora with an id for every annotation -/

/-- All annotations of a corpus have ids, and no two the same. -/
structure HasDistinctIds (corpus : List Extraction) : Prop where
  given : ∀ x ∈ corpus, ∀ a ∈ x.annotations, a.record.id?.isSome
  distinct : ((indexed corpus).map (·.id)).Nodup

theorem map_key_eq_map_indexed {corpus : List Extraction} (h : HasDistinctIds corpus) :
    (corpusAnnotations corpus).map (fun (a, path) => (a.key path, (a, path))) =
      (indexed corpus).map fun x => (x.id, x.note, x.path) := by
  have hgiven : ∀ p ∈ corpusAnnotations corpus, p.1.record.id?.isSome := by
    rintro ⟨a, path⟩ hmem
    obtain ⟨x, hx, hmem⟩ := List.mem_flatMap.mp hmem
    obtain ⟨a', ha', heq⟩ := List.mem_map.mp hmem
    obtain ⟨rfl, _⟩ := Prod.mk.inj heq
    exact h.given x hx a' ha'
  rw [indexed_eq]
  generalize corpusAnnotations corpus = notes at hgiven ⊢
  induction notes with
  | nil => rfl
  | cons p notes ih =>
    obtain ⟨id, hid⟩ := Option.isSome_iff_exists.mp (hgiven p List.mem_cons_self)
    rw [List.map_cons, ih fun q hq => hgiven q (List.mem_cons_of_mem _ hq)]
    simp [hid, Note.key_of_id? hid]

/-- With distinct ids nothing is replaced and nothing left out. -/
theorem idIndex_of_hasDistinctIds {corpus : List Extraction} (h : HasDistinctIds corpus) :
    idIndex corpus = (indexed corpus).map fun x => (x.id, x.note, x.path) := by
  have hkeys : (Table.keys ((indexed corpus).map fun x => (x.id, x.note, x.path))).Nodup := by
    simpa [Table.keys, Function.comp_def] using h.distinct
  rw [idIndex, annotationIndex, map_key_eq_map_indexed h, Table.ofPairs_of_nodup hkeys,
    List.filter_eq_self]
  intro p hp
  obtain ⟨x, hx, rfl⟩ := List.mem_map.mp hp
  simp [(mem_indexed_iff.mp hx).2]

theorem keys_entries_of_hasDistinctIds {b : Base} {stamp : Stamp} {corpus : List Extraction}
    {db : Compiled} (h : compile b stamp corpus = .ok db) (hids : HasDistinctIds corpus) :
    Table.keys db.entries = (indexed corpus).map (·.id) := by
  rw [keys_of_compileEntries (compile_eq_ok h).1, idIndex_of_hasDistinctIds hids]
  simp [Table.keys, Function.comp_def]

/-- With distinct ids the entries declare what the annotations do, one by one. -/
theorem declared_of_hasDistinctIds {b : Base} {stamp : Stamp} {corpus : List Extraction}
    {db : Compiled} (h : compile b stamp corpus = .ok db) (hids : HasDistinctIds corpus)
    (kinds : List DepKind) :
    db.declared kinds = (indexed corpus).map fun x => (x.id, x.note.record.targets kinds) := by
  have hpairs := forall₂_of_compileEntries (compile_eq_ok h).1
  have hmap := map_eq_map_of_forall₂
    (f := fun p => (p.1, p.2.1.record.targets kinds))
    (g := fun q => (q.1, kinds.flatMap q.2.targets))
    (fun p q hpq => by rw [hpq.1, Note.targets_of_entry hpq.2]) hpairs
  rw [idIndex_of_hasDistinctIds hids, List.map_map] at hmap
  exact hmap.symm

/-- With distinct ids the rules and the database find the same cycles: the graph of the rules is
that of the database without repeated targets. -/
theorem cyclesOf_runtimeTargets_of_hasDistinctIds {b : Base} {stamp : Stamp}
    {corpus : List Extraction} {db : Compiled} (h : compile b stamp corpus = .ok db)
    (hids : HasDistinctIds corpus) :
    Graph.cyclesOf (runtimeTargets (indexed corpus)) = db.runtimeCycles := by
  have hthin : runtimeTargets (indexed corpus) =
      Table.mapValues List.eraseDups db.runtimeTargets := by
    rw [runtimeTargets_of_compile h, declared_of_hasDistinctIds h hids,
      runtimeTargets_of_nodup hids.distinct]
    simp [Table.mapValues]
  rw [hthin, Graph.cyclesOf_mapValues_eraseDups]
  rfl

/-! ### Flagged and orphaned targets -/

/-- The target that an issue about an unknown target names. -/
def flaggedTarget (i : Issue) : String :=
  let rest := "\" declared in " ++ i.annotationId.getD "" ++ " does not match any known @mm:id."
  String.ofList ((i.message.toList.drop "Dependency \"".length).rdrop rest.length)

theorem flaggedTarget_issue (x : Indexed) (severity : Severity) (t : String) :
    flaggedTarget (x.issue .depsExist severity
      ("Dependency \"" ++ t ++ "\" declared in " ++ x.id ++ " does not match any known @mm:id."))
      = t := by
  simp only [flaggedTarget, Indexed.issue, Option.getD_some, ← String.length_toList,
    String.toList_append, List.append_assoc, List.drop_left]
  rw [List.rdrop, List.length_append, Nat.add_sub_cancel, List.take_left, String.ofList_toList]

/-- The rules flag the targets that are no ids. -/
theorem map_flaggedTarget_unknownTargetIssues (annotations : List Indexed) :
    (unknownTargetIssues false annotations).map flaggedTarget =
      (annotations.flatMap fun x => x.note.record.targets DepKind.all).filter
        fun t => !(annotations.map (·.id)).contains t := by
  have hresolve (t : String) : (resolve false (annotations.map (·.id)) t).isNone =
      !(annotations.map (·.id)).contains t := by
    unfold resolve
    cases (annotations.map (·.id)).contains t <;> rfl
  simp only [unknownTargetIssues, List.map_flatMap, List.map_map, List.filter_flatMap, hresolve]
  apply List.flatMap_congr
  intro x _
  refine (List.map_congr_left fun t _ => ?_).trans (List.map_id _)
  exact flaggedTarget_issue x _ t

theorem flaggedTargets_of_hasDistinctIds {b : Base} {stamp : Stamp} {corpus : List Extraction}
    {db : Compiled} (h : compile b stamp corpus = .ok db) (hids : HasDistinctIds corpus) :
    ((unknownTargetIssues false (indexed corpus)).map flaggedTarget).eraseDups =
      db.stats.orphaned := by
  have hhas (t : String) : Table.has t db.entries = ((indexed corpus).map (·.id)).contains t := by
    rw [Bool.eq_iff_iff, Table.has_iff, keys_entries_of_hasDistinctIds h hids,
      List.contains_iff_mem]
  rw [map_flaggedTarget_unknownTargetIssues, orphaned_of_compile h,
    declared_of_hasDistinctIds h hids, List.flatMap_map]
  simp only [hhas]

/-! ### Agreement -/

/-- Every corpus whose paths can be shown compiles.  If the rules find no cycle, the database has
none.  If all annotations have ids and no two the same, the rules find exactly the cycles of the
database in its order, and the targets they flag, each once, are its orphaned ones. -/
theorem rules_agree_with_compile (b : Base) (stamp : Stamp) (corpus : List Extraction) :
    (b.root = none ∨ (∀ x ∈ corpus, x.path ≠ "") → ∃ db, compile b stamp corpus = .ok db) ∧
    ∀ db, compile b stamp corpus = .ok db →
      (cycleIssues (indexed corpus) = [] → db.runtimeCycles = []) ∧
      (HasDistinctIds corpus →
        Graph.cyclesOf (runtimeTargets (indexed corpus)) = db.runtimeCycles ∧
        ((unknownTargetIssues false (indexed corpus)).map flaggedTarget).eraseDups =
          db.stats.orphaned) := by
  refine ⟨exists_compile stamp, fun db h => ⟨?_, fun hids => ⟨?_, ?_⟩⟩⟩
  · intro hnone
    have hrules : Graph.cyclesOf (runtimeTargets (indexed corpus)) = [] :=
      List.map_eq_nil_iff.mp hnone
    apply Graph.cyclesOf_eq_nil_iff.mpr
    intro w hw
    -- a closed walk of the database is one that the rules would have found
    exact Graph.cyclesOf_eq_nil_iff.mp hrules w
      (hw.mono fun _ _ => adjacent_of_adjacent_compiled h)
  · exact cyclesOf_runtimeTargets_of_hasDistinctIds h hids
  · exact flaggedTargets_of_hasDistinctIds h hids

/-- A corpus of one file with plain dependencies of the given ids. -/
def corpusOf (dependencies : List (String × List String)) : List Extraction :=
  [{ path := "m.ts"
     annotations := dependencies.map fun (id, targets) =>
       { record := { id, deps := some (.flat targets) }, origin := .comment, line := 1, raw := "" } }]

/-- An id that stands twice makes no cycle in either; a cycle of distinct ids with repeated targets
is found in both, and so are the targets that are no ids. -/
theorem rules_agree_with_compile_samples :
    (cycleIssues (indexed (corpusOf [("a", ["b"]), ("b", ["c", "c"]), ("a", ["c"])])) = [] ∧
      ∃ db, compile ⟨[], none⟩ ⟨defaultVersion, ""⟩
          (corpusOf [("a", ["b"]), ("b", ["c", "c"]), ("a", ["c"])]) = .ok db ∧
        db.runtimeCycles = []) ∧
    HasDistinctIds (corpusOf [("a", ["b", "x/y", "b"]), ("b", ["x/y", "z", "a"])]) ∧
      ∃ db, compile ⟨[], none⟩ ⟨defaultVersion, ""⟩
          (corpusOf [("a", ["b", "x/y", "b"]), ("b", ["x/y", "z", "a"])]) = .ok db ∧
        db.runtimeCycles = [["a", "b", "a"]] ∧ db.stats.orphaned = ["x/y", "z"] := by
  have hids : HasDistinctIds (corpusOf [("a", ["b", "x/y", "b"]), ("b", ["x/y", "z", "a"])]) :=
    ⟨by decide +kernel, by decide +kernel⟩
  refine ⟨⟨by decide +kernel, ?_⟩, hids, ?_⟩
  · obtain ⟨hcompiles, hagree⟩ := rules_agree_with_compile ⟨[], none⟩ ⟨defaultVersion, ""⟩
      (corpusOf [("a", ["b"]), ("b", ["c", "c"]), ("a", ["c"])])
    obtain ⟨db, h⟩ := hcompiles (.inl rfl)
    exact ⟨db, h, (hagree db h).1 (by decide +kernel)⟩
  · obtain ⟨hcompiles, hagree⟩ := rules_agree_with_compile ⟨[], none⟩ ⟨defaultVersion, ""⟩
      (corpusOf [("a", ["b", "x/y", "b"]), ("b", ["x/y", "z", "a"])])
    obtain ⟨db, h⟩ := hcompiles (.inl rfl)
    obtain ⟨hcycles, horphaned⟩ := (hagree db h).2 hids
    refine ⟨db, h, ?_, ?_⟩
    · rw [← hcycles]
      decide +kernel
    · rw [← horphaned, map_flaggedTarget_unknownTargetIssues]
      decide +kernel

end Marginalia.Validate
