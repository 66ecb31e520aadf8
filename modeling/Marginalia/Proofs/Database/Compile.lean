/-
  Marginalia/Proofs/Database/Compile.lean
  =======================================
  **What compiling makes of a corpus.**  Every entry comes from an annotation of
  the corpus with its id and declares the targets of that annotation; no id has
  two entries.  Compiling only fails at an empty path that has to be shown from a
  root (`exists_compile`).

  A graph built from nodes and edges has at every node the targets of the edges
  that leave it, kind by kind, and the sources of those that reach it
  (`DepGraph.nodes_build`).  Hence the graph of a compiled database leads where the
  entries say (`adjacency_declaredGraph`).
-/
import Marginalia.Proofs.Except
import Marginalia.Proofs.Table
import Marginalia.Query.Find
import Mathlib.Data.List.Induction

namespace Marginalia

/-! ### Entries of annotations -/

theorem Note.key_of_id? {a : Note} {id : String} (h : a.record.id? = some id) (path : String) :
    a.key path = id := by
  simp [Note.key, h]

/-- An entry holds what the annotation says, and where it stands. -/
theorem Note.entry_eq_ok {a : Note} {b : Base} {path : String} {e : Entry String}
    (h : a.entry b path = .ok e) :
    a.record.id? = some e.id ∧ b.show path = .ok e.filePath ∧
      e = { id := e.id, filePath := e.filePath, line := a.line, origin := a.origin,
            name := a.record.name, desc := a.record.desc, tags := a.record.tags,
            deps := (a.record.deps.map Dependencies.asTable).getD [], ai := a.record.ai,
            visibility := a.record.visibility, version := a.record.version,
            phase := a.record.phase, status := a.record.status, entity := a.entity } := by
  unfold Note.entry at h
  cases hid : a.record.id? with
  | none => simp [hid] at h
  | some id =>
    simp only [hid] at h
    cases hpath : b.show path with
    | error fault => simp [hpath, bind, Except.bind] at h
    | ok filePath =>
      simp only [hpath, bind, Except.bind, Except.ok.injEq] at h
      subst h
      exact ⟨rfl, rfl, rfl⟩

/-- A path can be shown unless it is empty and there is a root. -/
theorem Base.exists_show {b : Base} {path : String} (h : b.root = none ∨ path ≠ "") :
    ∃ s, b.show path = .ok s := by
  unfold Base.show
  cases hroot : b.root with
  | none => exact ⟨_, rfl⟩
  | some root =>
    have hpath : path.isEmpty = false := by
      rcases h with h | h
      · simp [hroot] at h
      · simp [h]
    cases hrel : (Path.ofString path).relativeTo? (Path.ofString root) with
    | none =>
      simp only [hrel, hpath]
      exact ⟨_, rfl⟩
    | some q =>
      simp only [hrel]
      exact ⟨_, rfl⟩

theorem Note.exists_entry {a : Note} {b : Base} {path : String} (hid : a.record.id?.isSome)
    (hpath : b.root = none ∨ path ≠ "") : ∃ e, a.entry b path = .ok e := by
  obtain ⟨id, hid⟩ := Option.isSome_iff_exists.mp hid
  obtain ⟨s, hs⟩ := Base.exists_show hpath
  simp only [Note.entry, hid, hs, bind, Except.bind]
  exact ⟨_, rfl⟩

theorem Dependencies.getD_get?_asTable (d : Dependencies) (c : DepKind) :
    (Table.get? c.name d.asTable).getD [] = d.ofKind c := by
  have hkeys : (Table.keys (DepKind.all.map fun c => (c.name, d.ofKind c))).Nodup := by
    simp [Table.keys, DepKind.all, DepKind.name]
  rw [Dependencies.asTable, Table.getD_get?_filter_nonempty hkeys]
  cases c <;> simp [DepKind.all, DepKind.name, Table.get?]

/-- An entry declares the targets of its annotation. -/
theorem Note.targets_of_entry {a : Note} {b : Base} {path : String} {e : Entry String}
    (h : a.entry b path = .ok e) (kinds : List DepKind) :
    kinds.flatMap e.targets = a.record.targets kinds := by
  obtain ⟨_, _, he⟩ := Note.entry_eq_ok h
  have hdeps : e.deps = (a.record.deps.map Dependencies.asTable).getD [] := by rw [he]
  unfold Record.targets
  cases hrecord : a.record.deps with
  | none =>
    have hnil : ∀ c, e.targets c = [] := by
      intro c
      simp [Entry.targets, hdeps, hrecord, Table.get?]
    simp [hnil]
  | some d =>
    have hkind : e.targets = d.ofKind := by
      funext c
      simp [Entry.targets, hdeps, hrecord, d.getD_get?_asTable]
    rw [hkind]
    rfl

/-! ### Entries of a corpus -/

/-- The annotations with an id by key. -/
def idIndex (corpus : List Extraction) : Table String (Note × String) :=
  (annotationIndex corpus).filter fun p => p.2.1.record.id?.isSome

/-- The keys of all annotations of a corpus. -/
def annotationKeys (corpus : List Extraction) : List String :=
  (corpusAnnotations corpus).map fun p => p.1.key p.2

theorem idIndex_of_distinct_keys {corpus : List Extraction} (h : (annotationKeys corpus).Nodup) :
    idIndex corpus = ((corpusAnnotations corpus).filter fun p => p.1.record.id?.isSome).map
      fun p => (p.1.key p.2, p) := by
  have hpairs : annotationIndex corpus =
      (corpusAnnotations corpus).map fun p => (p.1.key p.2, p) := by
    apply Table.ofPairs_of_nodup
    simpa [Table.keys, annotationKeys, Function.comp_def] using h
  rw [idIndex, hpairs, List.filter_map]
  rfl

/-- The annotations with an id and their entries, side by side. -/
theorem forall₂_of_compileEntries {b : Base} {corpus : List Extraction}
    {entries : Table String (Entry String)} (h : compileEntries b corpus = .ok entries) :
    List.Forall₂ (fun p q => p.1 = q.1 ∧ p.2.1.entry b p.2.2 = .ok q.2) (idIndex corpus)
      entries := by
  apply (forall₂_of_mapM_eq_ok h).imp
  rintro ⟨key, a, path⟩ ⟨key', e⟩ hentry
  cases he : a.entry b path with
  | error fault => simp [he, Except.map] at hentry
  | ok e' =>
    obtain ⟨rfl, rfl⟩ : key = key' ∧ e' = e := by simpa [he, Except.map] using hentry
    exact ⟨rfl, rfl⟩

theorem mem_corpusAnnotations_of_mem_idIndex {corpus : List Extraction} {key path : String}
    {a : Note} (h : (key, a, path) ∈ idIndex corpus) :
    (a, path) ∈ corpusAnnotations corpus ∧ a.record.id? = some key := by
  obtain ⟨hindex, hid⟩ := List.mem_filter.mp h
  obtain ⟨⟨a', path'⟩, hnote, heq⟩ := List.mem_map.mp (Table.mem_of_mem_ofPairs hindex)
  obtain ⟨hkey, rfl, rfl⟩ : a'.key path' = key ∧ a' = a ∧ path' = path := by simpa using heq
  obtain ⟨id, hid⟩ := Option.isSome_iff_exists.mp hid
  refine ⟨hnote, ?_⟩
  rw [← hkey, Note.key_of_id? hid path', hid]

theorem exists_compileEntries {b : Base} {corpus : List Extraction}
    (h : b.root = none ∨ ∀ x ∈ corpus, x.path ≠ "") :
    ∃ entries, compileEntries b corpus = .ok entries := by
  apply exists_mapM_eq_ok
  rintro ⟨key, a, path⟩ hmem
  obtain ⟨hnote, hid⟩ := mem_corpusAnnotations_of_mem_idIndex hmem
  have hpath : b.root = none ∨ path ≠ "" := by
    refine h.imp_right fun hcorpus => ?_
    obtain ⟨x, hx, hnote⟩ := List.mem_flatMap.mp hnote
    obtain ⟨_, _, heq⟩ := List.mem_map.mp hnote
    obtain ⟨_, rfl⟩ := Prod.mk.inj heq
    exact hcorpus x hx
  have hid : a.record.id?.isSome := by simp [hid]
  obtain ⟨e, he⟩ := Note.exists_entry hid hpath
  exact ⟨(key, e), by simp [he, Except.map]⟩

theorem keys_of_compileEntries {b : Base} {corpus : List Extraction}
    {entries : Table String (Entry String)} (h : compileEntries b corpus = .ok entries) :
    Table.keys entries = Table.keys (idIndex corpus) :=
  (map_eq_map_of_forall₂ (fun _ _ h => h.1) (forall₂_of_compileEntries h)).symm

/-- No id has two entries. -/
theorem nodup_keys_of_compileEntries {b : Base} {corpus : List Extraction}
    {entries : Table String (Entry String)} (h : compileEntries b corpus = .ok entries) :
    (Table.keys entries).Nodup := by
  rw [keys_of_compileEntries h]
  exact (List.filter_sublist.map Prod.fst).nodup (Table.nodup_keys_ofPairs _)

/-- Every entry comes from an annotation with its id. -/
theorem exists_note_of_mem_entries {b : Base} {corpus : List Extraction}
    {entries : Table String (Entry String)} (h : compileEntries b corpus = .ok entries)
    {id : String} {e : Entry String} (he : (id, e) ∈ entries) :
    ∃ a path, (a, path) ∈ corpusAnnotations corpus ∧ a.record.id? = some id ∧
      a.entry b path = .ok e := by
  obtain ⟨⟨key, a, path⟩, hmem, rfl, hentry⟩ :=
    exists_mem_of_forall₂ (forall₂_of_compileEntries h) he
  obtain ⟨hnote, hid⟩ := mem_corpusAnnotations_of_mem_idIndex hmem
  exact ⟨a, path, hnote, hid, hentry⟩

/-- The annotation that the index holds under an id has an entry there. -/
theorem exists_entry_of_mem_idIndex {b : Base} {corpus : List Extraction}
    {entries : Table String (Entry String)} (h : compileEntries b corpus = .ok entries)
    {id path : String} {a : Note} (hmem : (id, a, path) ∈ idIndex corpus) :
    ∃ e, (id, e) ∈ entries ∧ a.entry b path = .ok e := by
  obtain ⟨⟨_, e⟩, he, rfl, hentry⟩ :=
    exists_mem_of_forall₂ (forall₂_of_compileEntries h).flip hmem
  exact ⟨e, he, hentry⟩

/-! ### The graph -/

/-- The targets of the edges of one kind that leave a node, in order. -/
def targetsIn (edges : List (Edge String)) (id : String) (c : DepKind) : List String :=
  (edges.filter fun e => e.source == id && e.kind == c).map (·.target)

/-- The node that edges make of an id. -/
def nodeOf (edges : List (Edge String)) (id : String) : Node String where
  runtime := targetsIn edges id .runtime
  build := targetsIn edges id .build
  optional := targetsIn edges id .optional
  dependents := (edges.filter fun e => e.target == id).map (·.source)

theorem targets_nodeOf (edges : List (Edge String)) (id : String) (c : DepKind) :
    (nodeOf edges id).targets c = targetsIn edges id c := by
  cases c <;> rfl

/-- One more edge adds a target at its source and a dependent at its target. -/
theorem nodeOf_concat (edges : List (Edge String)) (e : Edge String) (id : String) :
    nodeOf (edges ++ [e]) id =
      let n := if id == e.source then (nodeOf edges id).addTarget e.kind e.target
        else nodeOf edges id
      if id == e.target then n.addDependent e.source else n := by
  have hsource : (e.source == id) = (id == e.source) := BEq.comm
  have htarget : (e.target == id) = (id == e.target) := BEq.comm
  cases hs : id == e.source <;> cases ht : id == e.target <;> cases hk : e.kind <;>
    simp [nodeOf, targetsIn, Node.addTarget, Node.addDependent, List.filter_append, hsource,
      htarget, hs, ht, hk]

theorem edges_build (ids : List String) (edges : List (Edge String)) :
    (DepGraph.build ids edges).edges = edges := by
  have hnodes : (ids.foldl DepGraph.withNode {}).edges = [] := by
    induction ids using List.reverseRecOn with
    | nil => rfl
    | append_singleton ids id ih => rwa [List.foldl_concat]
  induction edges using List.reverseRecOn with
  | nil => exact hnodes
  | append_singleton edges e ih =>
    rw [DepGraph.build, List.foldl_concat]
    exact congrArg (· ++ [e]) ih

theorem nodes_foldl_withNode {ids : List String} (h : ids.Nodup) :
    (ids.foldl DepGraph.withNode {}).nodes = Table.tabulate ids fun _ => {} := by
  induction ids using List.reverseRecOn with
  | nil => rfl
  | append_singleton ids id ih =>
    obtain ⟨hids, _, hdisjoint⟩ := List.nodup_append.mp h
    have hnew : id ∉ Table.keys (Table.tabulate ids fun _ => ({} : Node String)) := by
      rw [Table.keys_tabulate]
      intro hmem
      exact hdisjoint id hmem id (by simp) rfl
    rw [List.foldl_concat, DepGraph.withNode, ih hids, Table.set_of_not_mem hnew]
    simp [Table.tabulate]

/-- A graph built from nodes and edges between them has for every id the node that the edges make
of it. -/
theorem DepGraph.nodes_build {ids : List String} {edges : List (Edge String)} (hids : ids.Nodup)
    (hsource : ∀ e ∈ edges, e.source ∈ ids) :
    (DepGraph.build ids edges).nodes = Table.tabulate ids (nodeOf edges) := by
  induction edges using List.reverseRecOn with
  | nil => exact nodes_foldl_withNode hids
  | append_singleton edges e ih =>
    have hbuild : DepGraph.build ids (edges ++ [e]) = (DepGraph.build ids edges).withEdge e := by
      rw [DepGraph.build, List.foldl_concat]
      rfl
    have hmem : e.source ∈ ids := hsource e (by simp)
    rw [hbuild, DepGraph.withEdge, ih fun e' he' => hsource e' (by simp [he']),
      Table.update_tabulate hids hmem]
    by_cases ht : e.target ∈ ids
    · have hhas : Table.has e.target (Table.tabulate ids fun k =>
          if k == e.source then (nodeOf edges k).addTarget e.kind e.target else nodeOf edges k)
          = true := by rwa [Table.has_iff, Table.keys_tabulate]
      simp only [hhas, if_true, Table.update_tabulate hids ht]
      apply List.map_congr_left
      intro id _
      rw [nodeOf_concat]
    · have hhas : ¬ Table.has e.target (Table.tabulate ids fun k =>
          if k == e.source then (nodeOf edges k).addTarget e.kind e.target else nodeOf edges k)
          = true := by rwa [Table.has_iff, Table.keys_tabulate]
      simp only [hhas]
      apply List.map_congr_left
      intro id hid
      have hne : (id == e.target) = false := by
        simp only [beq_eq_false_iff_ne]
        rintro rfl
        exact ht hid
      simp only [nodeOf_concat, hne, Bool.false_eq_true, if_false]

/-! ### The graph of a table -/

theorem targetsIn_append (edges edges' : List (Edge String)) (id : String) (c : DepKind) :
    targetsIn (edges ++ edges') id c = targetsIn edges id c ++ targetsIn edges' id c := by
  simp [targetsIn, List.filter_append]

/-- The edges from an id to targets of every kind. -/
def kindEdges (id : String) (targets : DepKind → List String) : List (Edge String) :=
  DepKind.all.flatMap fun c => (targets c).map fun t => ⟨id, t, c⟩

theorem source_of_mem_kindEdges {id : String} {targets : DepKind → List String}
    {edge : Edge String} (h : edge ∈ kindEdges id targets) : edge.source = id := by
  obtain ⟨c, _, hmem⟩ := List.mem_flatMap.mp h
  obtain ⟨t, _, rfl⟩ := List.mem_map.mp hmem
  rfl

theorem targetsIn_kindEdges_self (id : String) (targets : DepKind → List String) (c : DepKind) :
    targetsIn (kindEdges id targets) id c = targets c := by
  have hkind (k : DepKind) : targetsIn ((targets k).map fun t => ⟨id, t, k⟩) id c =
      if k = c then targets k else [] := by
    by_cases hk : k = c <;> simp [targetsIn, List.filter_map, Function.comp_def, hk]
  cases c <;> simp [kindEdges, DepKind.all, targetsIn_append, hkind]

theorem targetsIn_kindEdges_other {id other : String} (h : id ≠ other)
    (targets : DepKind → List String) (c : DepKind) :
    targetsIn (kindEdges id targets) other c = [] := by
  unfold targetsIn
  rw [List.map_eq_nil_iff, List.filter_eq_nil_iff]
  intro edge hedge
  simp [source_of_mem_kindEdges hedge, h]

section

variable {β : Type} {targets : β → DepKind → List String} {t : Table String β}

/-- The edges of all ids of a table. -/
def tableEdges (targets : β → DepKind → List String) (t : Table String β) : List (Edge String) :=
  t.flatMap fun p => kindEdges p.1 (targets p.2)

theorem source_mem_keys_of_mem_tableEdges {edge : Edge String} (h : edge ∈ tableEdges targets t) :
    edge.source ∈ Table.keys t := by
  obtain ⟨p, hp, hedge⟩ := List.mem_flatMap.mp h
  rw [source_of_mem_kindEdges hedge]
  exact List.mem_map_of_mem hp

theorem targetsIn_tableEdges_of_not_mem {id : String} (h : id ∉ Table.keys t) (c : DepKind) :
    targetsIn (tableEdges targets t) id c = [] := by
  unfold targetsIn
  rw [List.map_eq_nil_iff, List.filter_eq_nil_iff]
  intro edge hedge hsource
  simp only [Bool.and_eq_true, beq_iff_eq] at hsource
  exact h (hsource.1 ▸ source_mem_keys_of_mem_tableEdges hedge)

/-- The edges that leave an id are those that the table gives it. -/
theorem targetsIn_tableEdges {id : String} {x : β} (hkeys : (Table.keys t).Nodup)
    (h : (id, x) ∈ t) (c : DepKind) : targetsIn (tableEdges targets t) id c = targets x c := by
  induction t with
  | nil => simp at h
  | cons p t ih =>
    obtain ⟨id', x'⟩ := p
    obtain ⟨hnew, hrest⟩ : id' ∉ Table.keys t ∧ (Table.keys t).Nodup := by
      simpa [Table.keys] using hkeys
    rw [tableEdges, List.flatMap_cons, targetsIn_append]
    rcases List.mem_cons.mp h with heq | h
    · obtain ⟨rfl, rfl⟩ : id = id' ∧ x = x' := by simpa using heq
      rw [targetsIn_kindEdges_self]
      exact (congrArg _ (targetsIn_tableEdges_of_not_mem hnew c)).trans (List.append_nil _)
    · have hne : id' ≠ id := by
        rintro rfl
        exact hnew (List.mem_map_of_mem h)
      rw [targetsIn_kindEdges_other hne]
      exact ih hrest h

end

/-! ### The graph of entries -/

/-- The edges of all entries. -/
def declaredEdges (entries : Table String (Entry String)) : List (Edge String) :=
  entries.flatMap fun (id, e) => entryEdges id e

theorem declaredEdges_eq (entries : Table String (Entry String)) :
    declaredEdges entries = tableEdges Entry.targets entries := rfl

/-- The graph of entries has for every id the node that the declared edges make of it. -/
theorem nodes_declaredGraph {entries : Table String (Entry String)}
    (hkeys : (Table.keys entries).Nodup) : (declaredGraph entries).nodes =
      Table.tabulate (Table.keys entries) (nodeOf (declaredEdges entries)) := by
  apply DepGraph.nodes_build hkeys
  intro edge hedge
  have htable : edge ∈ tableEdges Entry.targets entries := hedge
  exact source_mem_keys_of_mem_tableEdges htable

/-- The graph of entries leads from every id to the targets of its entry. -/
theorem adjacency_declaredGraph {entries : Table String (Entry String)}
    (hkeys : (Table.keys entries).Nodup) (kinds : List DepKind) :
    (declaredGraph entries).adjacency kinds =
      entries.map fun (id, e) => (id, kinds.flatMap e.targets) := by
  rw [DepGraph.adjacency, nodes_declaredGraph hkeys, Table.tabulate, Table.keys, List.map_map,
    List.map_map]
  apply List.map_congr_left
  rintro ⟨id, e⟩ hmem
  have htargets : (nodeOf (declaredEdges entries) id).targets = e.targets := by
    funext c
    rw [targets_nodeOf, declaredEdges_eq, targetsIn_tableEdges hkeys hmem]
  simp only [Function.comp_apply, htargets]
  rfl

/-! ### Orphaned targets -/

/-- The orphaned targets are those without an entry, each once. -/
theorem orphanedTargets_eq (entries : Table String (Entry String)) (edges : List (Edge String)) :
    orphanedTargets entries edges =
      ((edges.map (·.target)).filter fun t => !Table.has t entries).eraseDups := by
  induction edges using List.reverseRecOn with
  | nil => rfl
  | append_singleton edges e ih =>
    rw [orphanedTargets, List.foldl_concat]
    change (if Table.has e.target entries || (orphanedTargets entries edges).contains e.target
      then orphanedTargets entries edges else orphanedTargets entries edges ++ [e.target]) = _
    rw [ih, List.map_append, List.filter_append]
    cases hhas : Table.has e.target entries with
    | true => simp [hhas]
    | false =>
      simp only [List.map_cons, List.map_nil, List.filter_cons, hhas, Bool.not_false, if_true,
        List.filter_nil, eraseDups_concat, Bool.false_or]
      congr 1
      simp [List.mem_eraseDups]

theorem map_target_declaredEdges (entries : Table String (Entry String)) :
    (declaredEdges entries).map (·.target) =
      entries.flatMap fun p => DepKind.all.flatMap p.2.targets := by
  simp [declaredEdges, entryEdges, List.map_flatMap, Function.comp_def]

/-! ### The database -/

/-- A compiled database is made of the entries of its corpus. -/
theorem exists_entries_of_compile {b : Base} {stamp : Stamp} {corpus : List Extraction}
    {db : Compiled} (h : compile b stamp corpus = .ok db) :
    ∃ entries, compileEntries b corpus = .ok entries ∧
      db = { entries, ids := Table.keys entries, graph := declaredGraph entries,
             stats := statistics entries (declaredGraph entries),
             build := ⟨stamp.timestamp, stamp.version, corpus.length, databaseFormat⟩ } := by
  unfold compile at h
  cases hentries : compileEntries b corpus with
  | error fault => simp [hentries, bind, Except.bind] at h
  | ok entries =>
    simp only [hentries, bind, Except.bind, Except.ok.injEq] at h
    exact ⟨entries, rfl, h.symm⟩

/-- A compiled database holds the entries of its corpus, their graph and the statistics of
both. -/
theorem compile_eq_ok {b : Base} {stamp : Stamp} {corpus : List Extraction} {db : Compiled}
    (h : compile b stamp corpus = .ok db) :
    compileEntries b corpus = .ok db.entries ∧ db.graph = declaredGraph db.entries ∧
      db.stats = statistics db.entries db.graph := by
  obtain ⟨entries, hentries, rfl⟩ := exists_entries_of_compile h
  exact ⟨hentries, rfl, rfl⟩

theorem ids_of_compile {b : Base} {stamp : Stamp} {corpus : List Extraction} {db : Compiled}
    (h : compile b stamp corpus = .ok db) : db.ids = Table.keys db.entries := by
  obtain ⟨entries, _, rfl⟩ := exists_entries_of_compile h
  rfl

/-- Every corpus compiles whose paths can be shown. -/
theorem exists_compile {b : Base} (stamp : Stamp) {corpus : List Extraction}
    (h : b.root = none ∨ ∀ x ∈ corpus, x.path ≠ "") : ∃ db, compile b stamp corpus = .ok db := by
  obtain ⟨entries, hentries⟩ := exists_compileEntries h
  simp only [compile, hentries, bind, Except.bind]
  exact ⟨_, rfl⟩

/-- The runtime graph of a compiled database, read off its entries. -/
theorem runtimeTargets_of_compile {b : Base} {stamp : Stamp} {corpus : List Extraction}
    {db : Compiled} (h : compile b stamp corpus = .ok db) :
    db.runtimeTargets = db.declared [.runtime] := by
  obtain ⟨hentries, hgraph, _⟩ := compile_eq_ok h
  rw [Database.runtimeTargets_string, hgraph,
    adjacency_declaredGraph (nodup_keys_of_compileEntries hentries)]
  rfl

/-- The orphaned targets of a compiled database, read off its entries. -/
theorem orphaned_of_compile {b : Base} {stamp : Stamp} {corpus : List Extraction}
    {db : Compiled} (h : compile b stamp corpus = .ok db) :
    db.stats.orphaned = (((db.declared DepKind.all).flatMap Prod.snd).filter
      fun t => !Table.has t db.entries).eraseDups := by
  obtain ⟨_, hgraph, hstats⟩ := compile_eq_ok h
  have hedges : db.graph.edges = declaredEdges db.entries := by
    rw [hgraph]
    exact edges_build _ _
  have horphaned : db.stats.orphaned = orphanedTargets db.entries db.graph.edges := by
    rw [hstats]
    rfl
  rw [horphaned, hedges, orphanedTargets_eq, map_target_declaredEdges, Database.declared,
    List.flatMap_map]

end Marginalia
