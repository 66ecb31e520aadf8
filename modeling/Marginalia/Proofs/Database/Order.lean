/-
  Marginalia/Proofs/Database/Order.lean
  =====================================
  **The order of the files.**  A database holds everything in the order in which it
  was found: entries, edges, dependents, counts.  If no two annotations of a corpus
  have the same key, none takes the place of another, and then the order of the files
  shows in these orders and in nothing else.

  Compiled entries are those of the annotations with an id, so another order of the
  files gives the same entries in another order (`perm_of_compileEntries`).  All the
  rest is made of the entries: a node has the targets of its entry, edges and
  dependents are rearranged, and counts are numbers of occurrences.  Which cycles the
  search reports depends on where it starts, but whether there are any does not: it
  reports none exactly if no walk is closed.
-/
import Marginalia.Proofs.Graph.Cycles
import Marginalia.Proofs.Release.Graph

namespace Marginalia

/-! ### Databases that say the same -/

/-- Both databases have the same entry under every id, the same targets at every node in the same
order, the same edges and the same dependents at every node as often as each other, the same counts
under every key, and the same orphaned targets. -/
structure Database.SaysSame (db db' : Compiled) : Prop where
  entries : ∀ id, Table.get? id db.entries = Table.get? id db'.entries
  targets : ∀ id, (Table.get? id db.graph.nodes).map Node.targets =
    (Table.get? id db'.graph.nodes).map Node.targets
  edges : db.graph.edges.Perm db'.graph.edges
  dependents : ∀ id n n', Table.get? id db.graph.nodes = some n →
    Table.get? id db'.graph.nodes = some n' → n.dependents.Perm n'.dependents
  total : db.stats.total = db'.stats.total
  byStatus : ∀ key, Table.get? key db.stats.byStatus = Table.get? key db'.stats.byStatus
  byVisibility : ∀ key,
    Table.get? key db.stats.byVisibility = Table.get? key db'.stats.byVisibility
  byPhase : ∀ key, Table.get? key db.stats.byPhase = Table.get? key db'.stats.byPhase
  byTag : ∀ key, Table.get? key db.stats.byTag = Table.get? key db'.stats.byTag
  orphaned : ∀ target, target ∈ db.stats.orphaned ↔ target ∈ db'.stats.orphaned

/-! ### Entries -/

section Perm

variable {b : Base} {corpus corpus' : List Extraction}

theorem idIndex_perm (hkeys : (annotationKeys corpus).Nodup) (h : corpus.Perm corpus') :
    (idIndex corpus).Perm (idIndex corpus') := by
  have hnotes : (corpusAnnotations corpus).Perm (corpusAnnotations corpus') := h.flatMap_right _
  have hkeys' : (annotationKeys corpus').Nodup := (hnotes.map _).nodup_iff.mp hkeys
  rw [idIndex_of_distinct_keys hkeys, idIndex_of_distinct_keys hkeys']
  exact (hnotes.filter _).map _

/-- The entries are those of the annotations in the index. -/
theorem mem_entries_iff {entries : Table String (Entry String)}
    (h : compileEntries b corpus = .ok entries) {p : String × Entry String} :
    p ∈ entries ↔ ∃ a path, (p.1, a, path) ∈ idIndex corpus ∧ a.entry b path = .ok p.2 := by
  constructor
  · intro hp
    obtain ⟨⟨_, a, path⟩, hmem, rfl, hentry⟩ :=
      exists_mem_of_forall₂ (forall₂_of_compileEntries h) hp
    exact ⟨a, path, hmem, hentry⟩
  · rintro ⟨a, path, hmem, hentry⟩
    obtain ⟨e, he, hentry'⟩ := exists_entry_of_mem_idIndex h hmem
    obtain rfl : e = p.2 := Except.ok.inj (hentry'.symm.trans hentry)
    exact he

/-- Another order of the files gives the same entries in another order. -/
theorem perm_of_compileEntries (hkeys : (annotationKeys corpus).Nodup) (hperm : corpus.Perm corpus')
    {entries entries' : Table String (Entry String)} (h : compileEntries b corpus = .ok entries)
    (h' : compileEntries b corpus' = .ok entries') : entries.Perm entries' := by
  have hindex := idIndex_perm hkeys hperm
  rw [List.perm_ext_iff_of_nodup (List.Nodup.of_map _ (nodup_keys_of_compileEntries h))
    (List.Nodup.of_map _ (nodup_keys_of_compileEntries h'))]
  intro p
  simp only [mem_entries_iff h, mem_entries_iff h', hindex.mem_iff]

/-- A corpus compiles if every annotation in its index has an entry. -/
theorem exists_compile_iff {stamp : Stamp} : (∃ db, compile b stamp corpus = .ok db) ↔
    ∀ p ∈ idIndex corpus, ∃ e, p.2.1.entry b p.2.2 = .ok e := by
  constructor
  · rintro ⟨db, h⟩ ⟨id, a, path⟩ hp
    obtain ⟨e, _, hentry⟩ := exists_entry_of_mem_idIndex (compile_eq_ok h).1 hp
    exact ⟨e, hentry⟩
  · intro h
    obtain ⟨entries, hentries⟩ : ∃ entries, compileEntries b corpus = .ok entries := by
      apply exists_mapM_eq_ok
      rintro ⟨id, a, path⟩ hp
      obtain ⟨e, he⟩ := h _ hp
      exact ⟨(id, e), by simp only [he, Except.map]⟩
    simp only [compile, hentries, bind, Except.bind]
    exact ⟨_, rfl⟩

end Perm

/-! ### Graphs and counts -/

section Compiled

variable {b b' : Base} {stamp stamp' : Stamp} {corpus corpus' : List Extraction}
  {db db' : Compiled}

/-- Every node has the targets of its entry. -/
theorem get?_nodes_of_compile (h : compile b stamp corpus = .ok db) (id : String) :
    (Table.get? id db.graph.nodes).map Node.targets =
      (Table.get? id db.entries).map Entry.targets := by
  obtain ⟨hkeys, hgraph⟩ := graph_of_compile h
  have hnodes : db.graph.nodes = Table.tabulate (Table.keys db.entries)
      (nodeOf (tableEdges Entry.targets db.entries)) := by
    rw [hgraph]
    exact nodes_declaredGraph hkeys
  rw [hnodes]
  cases hget : Table.get? id db.entries with
  | none =>
    have hnone : id ∉ Table.keys db.entries := Table.get?_eq_none_iff.mp hget
    rw [Table.get?_eq_none_iff.mpr (by rwa [Table.keys_tabulate])]
    rfl
  | some e =>
    have hmem := Table.mem_of_get?_eq_some hget
    have hid : id ∈ Table.keys db.entries := List.mem_map_of_mem hmem
    rw [Table.get?_tabulate hid, Option.map_some, Option.map_some]
    congr 1
    funext c
    rw [targets_nodeOf, targetsIn_tableEdges hkeys hmem]

theorem dependents_of_get?_nodes (h : compile b stamp corpus = .ok db) {id : String}
    {n : Node String} (hn : Table.get? id db.graph.nodes = some n) :
    n.dependents = sourcesIn db.graph.edges id := by
  obtain ⟨hkeys, hgraph⟩ := graph_of_compile h
  have hmirrors : db.graph.Mirrors := by
    rw [hgraph]
    exact mirrors_tableGraph hkeys
  exact hmirrors.dependents (id, n) (Table.mem_of_get?_eq_some hn)

/-- All that a database says follows from its entries. -/
theorem Database.saysSame_of_perm (h : compile b stamp corpus = .ok db)
    (h' : compile b' stamp' corpus' = .ok db') (hperm : db.entries.Perm db'.entries) :
    db.SaysSame db' := by
  obtain ⟨hkeys, hgraph⟩ := graph_of_compile h
  obtain ⟨hkeys', hgraph'⟩ := graph_of_compile h'
  have hentries := Table.get?_of_perm hkeys hperm
  have hvalues : (Table.values db.entries).Perm (Table.values db'.entries) := hperm.map _
  have hedges : db.graph.edges.Perm db'.graph.edges := by
    rw [hgraph, hgraph', edges_tableGraph, edges_tableGraph]
    exact hperm.flatMap_right _
  obtain ⟨_, _, hstats⟩ := compile_eq_ok h
  obtain ⟨_, _, hstats'⟩ := compile_eq_ok h'
  constructor
  case entries => exact hentries
  case targets =>
    intro id
    rw [get?_nodes_of_compile h, get?_nodes_of_compile h', hentries]
  case edges => exact hedges
  case dependents =>
    intro id n n' hn hn'
    rw [dependents_of_get?_nodes h hn, dependents_of_get?_nodes h' hn']
    exact (hedges.filter _).map _
  case total =>
    rw [hstats, hstats']
    exact congrArg Int.ofNat hperm.length_eq
  case byStatus =>
    rw [hstats, hstats']
    exact get?_tallyAll_of_perm (hvalues.map _)
  case byVisibility =>
    rw [hstats, hstats']
    exact get?_tallyAll_of_perm (hvalues.map _)
  case byPhase =>
    rw [hstats, hstats']
    exact get?_tallyAll_of_perm (hvalues.filterMap _)
  case byTag =>
    rw [hstats, hstats']
    exact get?_tallyAll_of_perm (hvalues.flatMap_right _)
  case orphaned =>
    intro target
    rw [hstats, hstats']
    simp only [statistics, orphanedTargets_eq, List.mem_eraseDups, List.mem_filter,
      (hedges.map _).mem_iff, Table.has, hentries]

theorem adjacent_runtimeTargets_iff (h : compile b stamp corpus = .ok db) {u v : String} :
    Graph.Adjacent db.runtimeTargets u v ↔
      v ∈ ((Table.get? u db.entries).map fun e => e.targets .runtime).getD [] := by
  have hdeclared : db.declared [.runtime] =
      Table.mapValues (fun e => [DepKind.runtime].flatMap e.targets) db.entries := rfl
  rw [Graph.Adjacent, Graph.targetsOf, runtimeTargets_of_compile h, hdeclared,
    Table.get?_mapValues]
  simp

/-- Whether there is a cycle is a matter of the entries, whatever their order. -/
theorem runtimeCycles_eq_nil_iff_of_saysSame (h : compile b stamp corpus = .ok db)
    (h' : compile b' stamp' corpus' = .ok db') (hsame : db.SaysSame db') :
    db.runtimeCycles = [] ↔ db'.runtimeCycles = [] := by
  have hadjacent : ∀ u v,
      Graph.Adjacent db.runtimeTargets u v ↔ Graph.Adjacent db'.runtimeTargets u v := by
    intro u v
    rw [adjacent_runtimeTargets_iff h, adjacent_runtimeTargets_iff h', hsame.entries]
  rw [Database.runtimeCycles, Database.runtimeCycles, Graph.cyclesOf_eq_nil_iff,
    Graph.cyclesOf_eq_nil_iff]
  constructor
  · intro hnone w hw
    exact hnone w (hw.mono fun u v => (hadjacent u v).mpr)
  · intro hnone w hw
    exact hnone w (hw.mono fun u v => (hadjacent u v).mp)

end Compiled

/-! ### Another order of the files -/

/-- If no two annotations of a corpus have the same key, it compiles in every order of its files or
in none, and the databases say the same; one of them has a cycle of runtime dependencies exactly if
the other has. -/
theorem compile_says_same_of_perm (b : Base) (stamp : Stamp) {corpus corpus' : List Extraction}
    (hkeys : (annotationKeys corpus).Nodup) (hperm : corpus.Perm corpus') :
    ((∃ db, compile b stamp corpus = .ok db) ↔ ∃ db, compile b stamp corpus' = .ok db) ∧
    ∀ db db', compile b stamp corpus = .ok db → compile b stamp corpus' = .ok db' →
      db.SaysSame db' ∧ (db.runtimeCycles = [] ↔ db'.runtimeCycles = []) := by
  constructor
  · simp only [exists_compile_iff, (idIndex_perm hkeys hperm).mem_iff]
  · intro db db' h h'
    have hsame := Database.saysSame_of_perm h h'
      (perm_of_compileEntries hkeys hperm (compile_eq_ok h).1 (compile_eq_ok h').1)
    exact ⟨hsame, runtimeCycles_eq_nil_iff_of_saysSame h h' hsame⟩

/-- Two files with a cycle between them, beside one without ids. -/
def scatteredCorpus : List Extraction :=
  [⟨"a.ts", [
      ⟨{ id := "a", tags := some ["ui", "lib"], deps := some (.flat ["b", "x", "b"]) },
        .comment, 1, "", none⟩,
      ⟨{ id := "c", deps := some (.classified { build := ["b"], optional := ["y"] }),
         visibility := some .internal, phase := some 2 }, .comment, 6, "", none⟩], []⟩,
   ⟨"n.ts", [⟨{ desc := "No id" }, .comment, 3, "", none⟩], []⟩,
   ⟨"b.ts", [
      ⟨{ id := "b", tags := some ["lib"], deps := some (.flat ["a", "x"]), status := some .beta },
        .embedded, 2, "", none⟩], []⟩]

theorem compile_says_same_of_perm_reversed :
    (annotationKeys scatteredCorpus).Nodup ∧ scatteredCorpus.Perm scatteredCorpus.reverse ∧
    ∃ db db', compile ⟨[], none⟩ ⟨defaultVersion, ""⟩ scatteredCorpus = .ok db ∧
      compile ⟨[], none⟩ ⟨defaultVersion, ""⟩ scatteredCorpus.reverse = .ok db' ∧
      db.ids = ["a", "c", "b"] ∧ db'.ids = ["b", "a", "c"] ∧ db.SaysSame db' ∧
      db.runtimeCycles ≠ [] ∧ db'.runtimeCycles ≠ [] := by
  have hkeys : (annotationKeys scatteredCorpus).Nodup := by decide +kernel
  have hperm : scatteredCorpus.Perm scatteredCorpus.reverse := (List.reverse_perm _).symm
  obtain ⟨hcompiles, hsame⟩ :=
    compile_says_same_of_perm ⟨[], none⟩ ⟨defaultVersion, ""⟩ hkeys hperm
  obtain ⟨db, h, hids, hcycles⟩ :
      ∃ db, compile ⟨[], none⟩ ⟨defaultVersion, ""⟩ scatteredCorpus = .ok db ∧
        db.ids = ["a", "c", "b"] ∧ db.runtimeCycles ≠ [] :=
    ⟨_, rfl, rfl, by decide +kernel⟩
  obtain ⟨db', h'⟩ := hcompiles.mp ⟨db, h⟩
  have hids' : db'.ids = ["b", "a", "c"] := by
    rw [ids_of_compile h', keys_of_compileEntries (compile_eq_ok h').1]
    decide +kernel
  obtain ⟨hagree, hnone⟩ := hsame db db' h h'
  exact ⟨hkeys, hperm, db, db', h, h', hids, hids', hagree, hcycles, mt hnone.mpr hcycles⟩

end Marginalia
