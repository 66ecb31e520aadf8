/-
  Marginalia/Proofs/Release/Graph.lean
  ====================================
  **The graph of a database and that of its production form.**  A dependency is
  told four times: by the entry that declares it, by the node of the entry, by an
  edge, and by the node of its target.  `DepGraph.Mirrors` says that nodes and edges
  tell the same in the same order, with every repetition; both graphs do
  (`nodes_mirror_edges`).  So an id stands among the dependents of another exactly as
  often as the other stands among its dependencies.

  The graph in production is made anew from the entries that are left.  It is the
  part of the other graph that lies between them (`release_graph_eq_induced`), since
  building a graph and taking such a part can change places
  (`DepGraph.induced_build`).
-/
import Marginalia.Proofs.Database.Stored
import Marginalia.Release

namespace Marginalia

/-! ### Nodes and edges -/

/-- The sources of the edges that reach a node, in order. -/
def sourcesIn (edges : List (Edge String)) (id : String) : List String :=
  (edges.filter fun e => e.target == id).map (·.source)

/-- Every node lists the targets of its edges, kind by kind, and the sources of the edges that
reach it, and every edge leaves a node. -/
structure DepGraph.Mirrors (g : DepGraph String) : Prop where
  targets : ∀ p ∈ g.nodes, ∀ c, p.2.targets c = targetsIn g.edges p.1 c
  dependents : ∀ p ∈ g.nodes, p.2.dependents = sourcesIn g.edges p.1
  sources : ∀ e ∈ g.edges, e.source ∈ Table.keys g.nodes

section Build

variable {ids : List String} {edges : List (Edge String)}

theorem DepGraph.build_eq (hids : ids.Nodup) (hsource : ∀ e ∈ edges, e.source ∈ ids) :
    DepGraph.build ids edges = ⟨Table.tabulate ids (nodeOf edges), edges⟩ := by
  have hparts : DepGraph.build ids edges =
      ⟨(DepGraph.build ids edges).nodes, (DepGraph.build ids edges).edges⟩ := rfl
  rw [hparts, DepGraph.nodes_build hids hsource, edges_build]

theorem DepGraph.keys_nodes_build (hids : ids.Nodup) (hsource : ∀ e ∈ edges, e.source ∈ ids) :
    Table.keys (DepGraph.build ids edges).nodes = ids := by
  rw [DepGraph.build_eq hids hsource, Table.keys_tabulate]

theorem DepGraph.mirrors_build (hids : ids.Nodup) (hsource : ∀ e ∈ edges, e.source ∈ ids) :
    (DepGraph.build ids edges).Mirrors := by
  rw [DepGraph.build_eq hids hsource]
  constructor
  · intro p hp c
    obtain ⟨id, _, rfl⟩ := List.mem_map.mp hp
    exact targets_nodeOf edges id c
  · intro p hp
    obtain ⟨id, _, rfl⟩ := List.mem_map.mp hp
    rfl
  · intro e he
    rw [Table.keys_tabulate]
    exact hsource e he

end Build

theorem count_sourcesIn (edges : List (Edge String)) (source target : String) :
    (sourcesIn edges target).count source =
      (DepKind.all.flatMap (targetsIn edges source)).count target := by
  induction edges with
  | nil => rfl
  | cons e edges ih =>
    simp only [sourcesIn, targetsIn, DepKind.all, List.flatMap_cons, List.flatMap_nil,
      List.append_nil, List.count_append] at ih ⊢
    -- an edge between the two counts once on either side, on the right under its own kind
    by_cases hs : e.source = source
    · by_cases ht : e.target = target
      · cases hk : e.kind <;> simp [hs, ht, hk, ih] <;> omega
      · cases hk : e.kind <;> simp [hs, ht, hk, ih]
    · by_cases ht : e.target = target
      · simp [hs, ht, ih]
      · simp [hs, ht, ih]

/-! ### The graph of a table -/

section Table

variable {β : Type} {targets : β → DepKind → List String} {t : Table String β}

/-- The graph with a node for every id of a table and the edges that the table gives it. -/
def tableGraph (targets : β → DepKind → List String) (t : Table String β) : DepGraph String :=
  DepGraph.build (Table.keys t) (tableEdges targets t)

theorem edges_tableGraph : (tableGraph targets t).edges = tableEdges targets t := edges_build _ _

theorem keys_nodes_tableGraph (hkeys : (Table.keys t).Nodup) :
    Table.keys (tableGraph targets t).nodes = Table.keys t :=
  DepGraph.keys_nodes_build hkeys fun _ => source_mem_keys_of_mem_tableEdges

theorem mirrors_tableGraph (hkeys : (Table.keys t).Nodup) : (tableGraph targets t).Mirrors :=
  DepGraph.mirrors_build hkeys fun _ => source_mem_keys_of_mem_tableEdges

theorem targetsIn_tableGraph (hkeys : (Table.keys t).Nodup) {p : String × β} (hp : p ∈ t)
    (c : DepKind) : targetsIn (tableGraph targets t).edges p.1 c = targets p.2 c := by
  rw [edges_tableGraph]
  exact targetsIn_tableEdges hkeys hp c

end Table

theorem declaredGraph_eq (entries : Table String (Entry String)) :
    declaredGraph entries = tableGraph Entry.targets entries := rfl

/-- The targets of one kind that are entries themselves. -/
def ReleasedEntry.liveTargets {α : Type} [Label α] (entries : Table String (ReleasedEntry α))
    (e : ReleasedEntry α) (c : DepKind) : List String :=
  ((e.targets c).filterMap Label.text?).filter fun t => Table.has t entries

theorem survivingGraph_eq {α : Type} [Label α] (entries : Table String (ReleasedEntry α)) :
    survivingGraph entries = tableGraph (ReleasedEntry.liveTargets entries) entries := rfl

/-! ### Dependencies and dependents -/

section Compiled

variable {b : Base} {stamp : Stamp} {corpus : List Extraction} {db : Compiled}

theorem graph_of_compile (h : compile b stamp corpus = .ok db) :
    (Table.keys db.entries).Nodup ∧ db.graph = tableGraph Entry.targets db.entries := by
  obtain ⟨hentries, hgraph, _⟩ := compile_eq_ok h
  exact ⟨nodup_keys_of_compileEntries hentries, hgraph⟩

theorem dependenciesOf_of_compile (h : compile b stamp corpus = .ok db) (kinds : List DepKind)
    (id : String) : db.dependenciesOf kinds id = kinds.flatMap (targetsIn db.graph.edges id) := by
  obtain ⟨hkeys, hgraph⟩ := graph_of_compile h
  have hdeclared : db.declared kinds =
      Table.mapValues (fun e => kinds.flatMap e.targets) db.entries := rfl
  rw [Database.dependenciesOf, Graph.targetsOf, hdeclared, Table.get?_mapValues, hgraph]
  cases hget : Table.get? id db.entries with
  | none =>
    -- only entries have edges that leave them
    have hnone : ∀ c, targetsIn (tableGraph Entry.targets db.entries).edges id c = [] := by
      intro c
      rw [edges_tableGraph]
      exact targetsIn_tableEdges_of_not_mem (Table.get?_eq_none_iff.mp hget) c
    simp [hnone]
  | some e =>
    have hentry : targetsIn (tableGraph Entry.targets db.entries).edges id = e.targets := by
      funext c
      exact targetsIn_tableGraph hkeys (Table.mem_of_get?_eq_some hget) c
    simp [hentry]

theorem dependents_of_compile (h : compile b stamp corpus = .ok db) {id : String}
    (hid : id ∈ db.ids) : db.dependents id = sourcesIn db.graph.edges id := by
  obtain ⟨hkeys, hgraph⟩ := graph_of_compile h
  have hmem : id ∈ Table.keys db.graph.nodes := by
    rwa [hgraph, keys_nodes_tableGraph hkeys, ← ids_of_compile h]
  have hmirrors : db.graph.Mirrors := by
    rw [hgraph]
    exact mirrors_tableGraph hkeys
  cases hget : Table.get? id db.graph.nodes with
  | none => exact absurd hmem (Table.get?_eq_none_iff.mp hget)
  | some n =>
    have hnode := hmirrors.dependents (id, n) (Table.mem_of_get?_eq_some hget)
    simpa [Database.dependents, hget] using hnode

end Compiled

/-- In the graph that is built of entries, and in that of their production forms, there is a node
for every id, in order, and nodes and edges tell the same.  The targets are those that the entry
declares; in production, those of them that are entries.  In a compiled database an id is a
dependent of another as often as the other is one of its dependencies. -/
theorem nodes_mirror_edges :
    (∀ entries : Table String (Entry String), (Table.keys entries).Nodup →
      Table.keys (declaredGraph entries).nodes = Table.keys entries ∧
      (declaredGraph entries).Mirrors ∧
      ∀ p ∈ entries, ∀ c, targetsIn (declaredGraph entries).edges p.1 c = p.2.targets c) ∧
    (∀ {α : Type} [Label α] (entries : Table String (ReleasedEntry α)),
      (Table.keys entries).Nodup →
      Table.keys (survivingGraph entries).nodes = Table.keys entries ∧
      (survivingGraph entries).Mirrors ∧
      ∀ p ∈ entries, ∀ c,
        targetsIn (survivingGraph entries).edges p.1 c = p.2.liveTargets entries c) ∧
    ∀ {b : Base} {stamp : Stamp} {corpus : List Extraction} {db : Compiled},
      compile b stamp corpus = .ok db → ∀ source target, target ∈ db.ids →
        (db.dependents target).count source =
          (db.dependenciesOf DepKind.all source).count target := by
  refine ⟨?_, ?_, ?_⟩
  · intro entries hkeys
    rw [declaredGraph_eq]
    exact ⟨keys_nodes_tableGraph hkeys, mirrors_tableGraph hkeys,
      fun p hp => targetsIn_tableGraph hkeys hp⟩
  · intro α _ entries hkeys
    rw [survivingGraph_eq]
    exact ⟨keys_nodes_tableGraph hkeys, mirrors_tableGraph hkeys,
      fun p hp => targetsIn_tableGraph hkeys hp⟩
  · intro b stamp corpus db h source target htarget
    rw [dependents_of_compile h htarget, dependenciesOf_of_compile h, count_sourcesIn]

/-- Entries with a target that is named twice and in two kinds, one that is its own target, one
that is no entry, and one that is internal. -/
def tangledCorpus : List Extraction :=
  [⟨"m.ts", [
      ⟨{ id := "a", deps := some (.classified
          { runtime := ["c", "c", "a", "x"], build := ["b", "c"] }) }, .comment, 1, "", none⟩,
      ⟨{ id := "b", visibility := some .internal, deps := some (.flat ["a", "c"]) },
        .comment, 5, "", none⟩,
      ⟨{ id := "c", deps := some (.classified { optional := ["b", "a"] }) },
        .embedded, 9, "", none⟩], []⟩]

theorem nodes_mirror_edges_tangled :
    ∃ db, compile ⟨[], none⟩ ⟨defaultVersion, ""⟩ tangledCorpus = .ok db ∧
      (declaredGraph db.entries).Mirrors ∧ (survivingGraph db.surviving).Mirrors ∧
      (db.dependents "c").count "a" = 3 := by
  obtain ⟨db, h, hkeys, hleft, hid, hcount⟩ :
      ∃ db, compile ⟨[], none⟩ ⟨defaultVersion, ""⟩ tangledCorpus = .ok db ∧
        (Table.keys db.entries).Nodup ∧ (Table.keys db.surviving).Nodup ∧ "c" ∈ db.ids ∧
        (db.dependenciesOf DepKind.all "a").count "c" = 3 :=
    ⟨_, rfl, by decide +kernel, by decide +kernel, by decide +kernel, rfl⟩
  obtain ⟨hdeclared, hsurviving, hcounts⟩ := nodes_mirror_edges
  exact ⟨db, h, (hdeclared _ hkeys).2.1, (hsurviving _ hleft).2.1,
    (hcounts h "a" "c" hid).trans hcount⟩

/-! ### The part between some nodes -/

/-- The node without what is not kept. -/
def Node.restricted (keep : String → Bool) (n : Node String) : Node String :=
  ⟨n.runtime.filter keep, n.build.filter keep, n.optional.filter keep, n.dependents.filter keep⟩

/-- The part of a graph that lies between the nodes that are kept. -/
def DepGraph.induced (keep : String → Bool) (g : DepGraph String) : DepGraph String where
  nodes := Table.mapValues (Node.restricted keep) (g.nodes.filter fun p => keep p.1)
  edges := g.edges.filter fun e => keep e.source && keep e.target

theorem nodeOf_filter {keep : String → Bool} {id : String} (h : keep id = true)
    (edges : List (Edge String)) :
    nodeOf (edges.filter fun e => keep e.source && keep e.target) id =
      (nodeOf edges id).restricted keep := by
  -- an edge at `id` has one end that is kept, so the filter asks for the other end only
  have htargets (c : DepKind) :
      targetsIn (edges.filter fun e => keep e.source && keep e.target) id c =
        (targetsIn edges id c).filter keep := by
    rw [targetsIn, targetsIn, List.filter_map, List.filter_filter, List.filter_filter]
    apply congrArg
    apply List.filter_congr
    intro e _
    by_cases hs : e.source = id
    · simp [hs, h, Bool.and_comm]
    · simp [beq_eq_false_iff_ne.mpr hs]
  have hdependents :
      ((edges.filter fun e => keep e.source && keep e.target).filter fun e => e.target == id).map
        (·.source) = ((edges.filter fun e => e.target == id).map (·.source)).filter keep := by
    rw [List.filter_map, List.filter_filter, List.filter_filter]
    apply congrArg
    apply List.filter_congr
    intro e _
    by_cases ht : e.target = id
    · simp [ht, h]
    · simp [beq_eq_false_iff_ne.mpr ht]
  simp only [nodeOf, Node.restricted, htargets, hdependents]

theorem DepGraph.induced_build (keep : String → Bool) {ids : List String}
    {edges : List (Edge String)} (hids : ids.Nodup) (hsource : ∀ e ∈ edges, e.source ∈ ids) :
    (DepGraph.build ids edges).induced keep =
      DepGraph.build (ids.filter keep)
        (edges.filter fun e => keep e.source && keep e.target) := by
  have hkept : ∀ e ∈ edges.filter (fun e => keep e.source && keep e.target),
      e.source ∈ ids.filter keep := by
    intro e he
    obtain ⟨hmem, hkeep⟩ := List.mem_filter.mp he
    rw [Bool.and_eq_true] at hkeep
    exact List.mem_filter.mpr ⟨hsource e hmem, hkeep.1⟩
  have hnodes : Table.mapValues (Node.restricted keep)
      ((Table.tabulate ids (nodeOf edges)).filter fun p => keep p.1) =
      Table.tabulate (ids.filter keep)
        (nodeOf (edges.filter fun e => keep e.source && keep e.target)) := by
    simp only [Table.tabulate, Table.mapValues, List.filter_map, List.map_map, Function.comp_def]
    apply List.map_congr_left
    intro id hid
    rw [nodeOf_filter (List.mem_filter.mp hid).2]
  rw [DepGraph.build_eq hids hsource, DepGraph.build_eq (hids.filter keep) hkept,
    DepGraph.induced, hnodes]

/-! ### The entries that are left -/

/-- The id has an entry that is not internal. -/
def Database.isReleased (db : Compiled) (id : String) : Bool :=
  (Table.get? id db.entries).any fun e => e.visibility != some .internal

theorem Entry.isSome_stripped? (e : Entry String) :
    e.stripped?.isSome = (e.visibility != some .internal) := by
  cases hinternal : e.visibility == some .internal <;> simp [Entry.stripped?, bne, hinternal]

theorem Entry.targets_of_stripped? {e : Entry String} {r : ReleasedEntry String}
    (hdeps : (Table.keys e.deps).Nodup) (h : e.stripped? = some r) : r.targets = e.targets := by
  unfold Entry.stripped? at h
  split at h
  · cases h
  · -- a kind that is left out for having no targets is read as one without targets
    obtain rfl := Option.some.inj h
    funext c
    exact Table.getD_get?_filter_nonempty hdeps c.name

theorem filter_kindEdges {keep : String → Bool} {id : String} (h : keep id = true)
    (targets : DepKind → List String) :
    (kindEdges id targets).filter (fun e => keep e.source && keep e.target) =
      kindEdges id fun c => (targets c).filter keep := by
  rw [kindEdges, List.filter_flatMap]
  apply List.flatMap_congr
  intro c _
  simp [List.filter_map, Function.comp_def, h]

section Surviving

variable {db : Compiled} (hkeys : (Table.keys db.entries).Nodup)

include hkeys

theorem has_surviving (id : String) : Table.has id db.surviving = db.isReleased id := by
  have hget : Table.get? id db.surviving = (Table.get? id db.entries).bind Entry.stripped? :=
    Table.get?_filterMap hkeys Entry.stripped? id
  simp [Table.has, hget, Database.isReleased, Option.isSome_bind, Entry.isSome_stripped?]

theorem keys_surviving :
    Table.keys db.surviving = (Table.keys db.entries).filter db.isReleased := by
  have hfilter : Table.keys db.surviving = (Table.keys db.entries).filter fun id =>
      ((Table.get? id db.entries).bind Entry.stripped?).isSome :=
    Table.keys_filterMap hkeys Entry.stripped?
  rw [hfilter]
  apply List.filter_congr
  intro id _
  simp [Database.isReleased, Option.isSome_bind, Entry.isSome_stripped?]

theorem isReleased_of_mem {p : String × Entry String} (hp : p ∈ db.entries) :
    db.isReleased p.1 = (p.2.visibility != some .internal) := by
  have hget : Table.get? p.1 db.entries = some p.2 := Table.get?_of_mem hkeys hp
  simp [Database.isReleased, hget]

theorem tableEdges_surviving (hdeps : ∀ p ∈ db.entries, (Table.keys p.2.deps).Nodup) :
    tableEdges (ReleasedEntry.liveTargets db.surviving) db.surviving =
      (tableEdges Entry.targets db.entries).filter
        fun e => db.isReleased e.source && db.isReleased e.target := by
  have hflat : db.surviving = db.entries.flatMap fun p => (p.2.stripped?.map (p.1, ·)).toList :=
    List.filterMap_eq_flatMap_toList _ _
  have hlive : ∀ r : ReleasedEntry String, r.liveTargets db.surviving =
      fun c => (r.targets c).filter db.isReleased := by
    intro r
    funext c
    have htext : (r.targets c).filterMap Label.text? = r.targets c := List.filterMap_some
    simp only [ReleasedEntry.liveTargets, htext, has_surviving hkeys]
  have hedges : tableEdges (ReleasedEntry.liveTargets db.surviving) db.surviving =
      db.entries.flatMap fun p => (p.2.stripped?.map (p.1, ·)).toList.flatMap fun q =>
        kindEdges q.1 fun c => (q.2.targets c).filter db.isReleased := by
    simp only [tableEdges, hlive]
    rw [hflat, List.flatMap_assoc]
  rw [hedges, tableEdges, List.filter_flatMap]
  apply List.flatMap_congr
  rintro ⟨id, e⟩ hp
  have hreleased := isReleased_of_mem hkeys hp
  rw [← Entry.isSome_stripped?] at hreleased
  cases hstripped : e.stripped? with
  | none =>
    -- an internal entry has no edges in production, and none of its edges has a source there
    symm
    apply List.filter_eq_nil_iff.mpr
    intro edge hedge
    simp [source_of_mem_kindEdges hedge, hreleased, hstripped]
  | some r =>
    rw [hstripped, Option.isSome_some] at hreleased
    have htargets := Entry.targets_of_stripped? (hdeps _ hp) hstripped
    simp [filter_kindEdges hreleased, htargets]

end Surviving

theorem graph_release {b : Base} {stamp : Stamp} {corpus : List Extraction} {db : Compiled}
    (h : compile b stamp corpus = .ok db) :
    db.release.graph = db.graph.induced db.isReleased := by
  obtain ⟨hkeys, hgraph⟩ := graph_of_compile h
  have hrelease : db.release.graph =
      tableGraph (ReleasedEntry.liveTargets db.surviving) db.surviving := rfl
  rw [hrelease, hgraph, tableGraph, tableGraph, keys_surviving hkeys,
    tableEdges_surviving hkeys (keysDistinct_of_compile h).deps]
  symm
  exact DepGraph.induced_build _ hkeys fun _ => source_mem_keys_of_mem_tableEdges

/-- The production graph of a compiled database is the part of its graph that lies between the
entries that are not internal: the ids, the edges, and at every node the targets of each kind and
the dependents are those of the database, in their order and as often, less what is not left.  So
an edge is there exactly if both its ends are. -/
theorem release_graph_eq_induced {b : Base} {stamp : Stamp} {corpus : List Extraction}
    {db : Compiled} (h : compile b stamp corpus = .ok db) :
    db.release.ids = db.ids.filter db.isReleased ∧
    db.release.graph = db.graph.induced db.isReleased ∧
    ∀ e, e ∈ db.release.graph.edges ↔
      e ∈ db.graph.edges ∧ e.source ∈ db.release.ids ∧ e.target ∈ db.release.ids := by
  obtain ⟨hkeys, -⟩ := graph_of_compile h
  have hids : db.release.ids = db.ids.filter db.isReleased := by
    rw [ids_of_compile h]
    exact keys_surviving hkeys
  refine ⟨hids, graph_release h, ?_⟩
  intro e
  have hmem : ∀ id, id ∈ db.release.ids ↔ db.isReleased id = true := by
    intro id
    rw [← has_surviving hkeys, Table.has_iff]
    rfl
  have hedges : db.release.graph.edges =
      db.graph.edges.filter fun e => db.isReleased e.source && db.isReleased e.target := by
    rw [graph_release h]
    rfl
  rw [hedges, List.mem_filter, hmem, hmem, Bool.and_eq_true]

theorem release_graph_eq_induced_tangled :
    ∃ db, compile ⟨[], none⟩ ⟨defaultVersion, ""⟩ tangledCorpus = .ok db ∧
      db.release.ids = ["a", "c"] ∧ db.release.graph = db.graph.induced db.isReleased ∧
      db.release.graph.edges = [⟨"a", "c", .runtime⟩, ⟨"a", "c", .runtime⟩, ⟨"a", "a", .runtime⟩,
        ⟨"a", "c", .build⟩, ⟨"c", "a", .optional⟩] := by
  obtain ⟨db, h, hkept, hedges⟩ :
      ∃ db, compile ⟨[], none⟩ ⟨defaultVersion, ""⟩ tangledCorpus = .ok db ∧
        db.ids.filter db.isReleased = ["a", "c"] ∧
        (db.graph.induced db.isReleased).edges = [⟨"a", "c", .runtime⟩, ⟨"a", "c", .runtime⟩,
          ⟨"a", "a", .runtime⟩, ⟨"a", "c", .build⟩, ⟨"c", "a", .optional⟩] :=
    ⟨_, rfl, rfl, rfl⟩
  obtain ⟨hids, hgraph, _⟩ := release_graph_eq_induced h
  refine ⟨db, h, hids.trans hkept, hgraph, ?_⟩
  rw [hgraph]
  exact hedges

end Marginalia
