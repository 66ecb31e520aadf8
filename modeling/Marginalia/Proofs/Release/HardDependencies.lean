/-
  Marginalia/Proofs/Release/HardDependencies.lean
  ===============================================
  **What a clean check of visibility says about production.**  A dependency is hard
  if it is needed at run time or build time.  The check reads the annotations of a
  corpus, production strips the entries of a compiled database.  With an id of its
  own for every annotation the two speak of the same things: an entry is public
  exactly if its annotation is, and its hard targets are those that the check looks
  at (`exists_indexed_of_mem_entries`).  A target that is an id names that id, however
  paths are matched, so a target that production leaves out is one that the check
  reports (`not_internal_of_visibilityIssues`).
-/
import Marginalia.Proofs.Release.Graph
import Marginalia.Proofs.Validate.Agreement

namespace Marginalia.Validate

variable {b : Base} {stamp : Stamp} {corpus : List Extraction} {db : Compiled}

/-! ### Edges and entries -/

theorem edges_release (h : compile b stamp corpus = .ok db) :
    db.release.graph.edges =
      db.graph.edges.filter fun e => db.isReleased e.source && db.isReleased e.target := by
  rw [graph_release h]
  rfl

theorem exists_entry_of_mem_edges (h : compile b stamp corpus = .ok db) {edge : Edge String}
    (hedge : edge ∈ db.graph.edges) :
    ∃ e, (edge.source, e) ∈ db.entries ∧ edge.target ∈ e.targets edge.kind := by
  rw [(graph_of_compile h).2, edges_tableGraph] at hedge
  obtain ⟨⟨id, e⟩, hentry, hkinds⟩ := List.mem_flatMap.mp hedge
  obtain ⟨c, _, hkind⟩ := List.mem_flatMap.mp hkinds
  obtain ⟨t, ht, rfl⟩ := List.mem_map.mp hkind
  exact ⟨e, hentry, ht⟩

theorem exists_indexed_of_mem_entries (h : compile b stamp corpus = .ok db) {id : String}
    {e : Entry String} (he : (id, e) ∈ db.entries) :
    ∃ x ∈ indexed corpus, x.id = id ∧ x.note.record.visibility = e.visibility ∧
      ∀ kinds, x.note.record.targets kinds = kinds.flatMap e.targets := by
  obtain ⟨a, path, hnote, hid, hentry⟩ := exists_note_of_mem_entries (compile_eq_ok h).1 he
  have hvisibility : a.record.visibility = e.visibility := by
    rw [(Note.entry_eq_ok hentry).2.2]
  exact ⟨⟨a, path, id⟩, mem_indexed_iff.mpr ⟨hnote, hid⟩, rfl, hvisibility,
    fun kinds => (Note.targets_of_entry hentry kinds).symm⟩

/-! ### The check -/

theorem get?_declaredVisibility {annotations : List Indexed}
    (hnodup : (annotations.map (·.id)).Nodup) {x : Indexed} (hx : x ∈ annotations)
    {v : Visibility} (hv : x.note.record.visibility = some v) :
    Table.get? x.id (declaredVisibility annotations) = some v := by
  have hpairs : (annotations.filterMap fun x => x.note.record.visibility.map (x.id, ·)) =
      (annotations.map fun x => (x.id, x.note.record.visibility)).filterMap
        fun p => p.2.map (p.1, ·) := by
    rw [List.filterMap_map]
    rfl
  have hids : (Table.keys (annotations.map fun x => (x.id, x.note.record.visibility))).Nodup := by
    simpa [Table.keys, Function.comp_def] using hnodup
  have hmem : (x.id, some v) ∈ annotations.map fun x => (x.id, x.note.record.visibility) :=
    List.mem_map.mpr ⟨x, hx, by rw [hv]⟩
  rw [declaredVisibility, hpairs,
    Table.ofPairs_of_nodup ((Table.keys_filterMap_some_sublist _).nodup hids),
    Table.get?_filterMap_some hids, Table.get?_of_mem hids hmem]
  rfl

theorem not_internal_of_visibilityIssues {annotations : List Indexed} {bySegment : Bool}
    (hnodup : (annotations.map (·.id)).Nodup) (hclean : visibilityIssues bySegment annotations = [])
    {x y : Indexed} (hx : x ∈ annotations) (hy : y ∈ annotations)
    (hpublic : x.note.record.visibility ≠ some .internal)
    (htarget : y.id ∈ x.note.record.targets [.runtime, .build]) :
    y.note.record.visibility ≠ some .internal := by
  intro hinternal
  have hget := get?_declaredVisibility hnodup hy hinternal
  have hknown : y.id ∈ Table.keys (declaredVisibility annotations) := by
    rw [← Table.has_iff, Table.has, hget]
    rfl
  -- an exact match comes first, so the last segment of the target is not looked at
  have hresolve : resolve bySegment (Table.keys (declaredVisibility annotations)) y.id =
      some y.id := by
    rw [resolve, if_pos (List.contains_iff_mem.mpr hknown)]
  have hflagged : isInternalTarget bySegment (declaredVisibility annotations) y.id = true := by
    simp [isInternalTarget, hresolve, hget]
  have hsource : (x.note.record.visibilityOrPublic == .published) = true := by
    cases hv : x.note.record.visibility with
    | none => simp [Record.visibilityOrPublic, hv]
    | some v =>
      cases v with
      | published => simp [Record.visibilityOrPublic, hv]
      | internal => exact absurd hv hpublic
  have hnone := List.flatMap_eq_nil_iff.mp hclean x (List.mem_filter.mpr ⟨hx, hsource⟩)
  exact List.filter_eq_nil_iff.mp (List.map_eq_nil_iff.mp hnone) y.id htarget hflagged

/-! ### Production -/

/-- Every corpus whose paths can be shown compiles.  If all its annotations have ids, no two the
same, and the check of visibility reports nothing, with or without matching by path segments, then
every dependency at run time or build time of an entry that is not internal on another entry is one
of the production graph. -/
theorem release_keeps_hard_edges (b : Base) (stamp : Stamp) (corpus : List Extraction) :
    (b.root = none ∨ (∀ x ∈ corpus, x.path ≠ "") → ∃ db, compile b stamp corpus = .ok db) ∧
    ∀ db, compile b stamp corpus = .ok db → HasDistinctIds corpus → ∀ bySegment,
      visibilityIssues bySegment (indexed corpus) = [] → ∀ edge ∈ db.graph.edges,
        edge.kind = .runtime ∨ edge.kind = .build →
        (∀ e, Table.get? edge.source db.entries = some e → e.visibility ≠ some .internal) →
        edge.target ∈ db.ids → edge ∈ db.release.graph.edges := by
  refine ⟨exists_compile stamp, ?_⟩
  intro db h hids bySegment hclean edge hedge hkind hsource htarget
  obtain ⟨hkeys, _⟩ := graph_of_compile h
  obtain ⟨e, he, htargets⟩ := exists_entry_of_mem_edges h hedge
  have hpublic : e.visibility ≠ some .internal := hsource e (Table.get?_of_mem hkeys he)
  rw [ids_of_compile h] at htarget
  obtain ⟨⟨target, e'⟩, he', rfl⟩ := List.mem_map.mp htarget
  obtain ⟨x, hx, _, hvisibility, hdeclared⟩ := exists_indexed_of_mem_entries h he
  obtain ⟨y, hy, hid, hvisibility', _⟩ := exists_indexed_of_mem_entries h he'
  have hhard : y.id ∈ x.note.record.targets [.runtime, .build] := by
    rw [hdeclared, hid]
    rcases hkind with hkind | hkind
    · exact List.mem_flatMap.mpr ⟨.runtime, by simp, hkind ▸ htargets⟩
    · exact List.mem_flatMap.mpr ⟨.build, by simp, hkind ▸ htargets⟩
  have hpublic' : e'.visibility ≠ some .internal := by
    rw [← hvisibility']
    exact not_internal_of_visibilityIssues hids.distinct hclean hx hy (hvisibility ▸ hpublic) hhard
  rw [edges_release h, List.mem_filter, Bool.and_eq_true]
  refine ⟨hedge, ?_, ?_⟩
  · rw [isReleased_of_mem hkeys he]
    exact bne_iff_ne.mpr hpublic
  · rw [isReleased_of_mem hkeys he']
    exact bne_iff_ne.mpr hpublic'

/-- An internal entry that only internal ones need, besides an optional dependency of a public one
on it, and a path whose last segment is the id of a public entry. -/
def layeredCorpus : List Extraction :=
  [⟨"src/a.ts", [
      ⟨{ id := "a", deps := some (.classified
          { runtime := ["b", "lib/b"], build := ["b", "x"], optional := ["core"] }) },
        .comment, 1, "", none⟩,
      ⟨{ id := "b", visibility := some .published }, .comment, 5, "", none⟩], []⟩,
   ⟨"core.ts", [
      ⟨{ id := "core", visibility := some .internal, deps := some (.flat ["store", "a"]) },
        .embedded, 2, "", none⟩,
      ⟨{ id := "store", visibility := some .internal }, .comment, 9, "", none⟩], []⟩]

theorem release_keeps_hard_edges_layered :
    HasDistinctIds layeredCorpus ∧ visibilityIssues true (indexed layeredCorpus) = [] ∧
    ∃ db, compile ⟨[], none⟩ ⟨defaultVersion, ""⟩ layeredCorpus = .ok db ∧
      (⟨"a", "b", .runtime⟩ : Edge String) ∈ db.release.graph.edges ∧
      (⟨"a", "b", .build⟩ : Edge String) ∈ db.release.graph.edges := by
  have hids : HasDistinctIds layeredCorpus := ⟨by decide +kernel, by decide +kernel⟩
  have hclean : visibilityIssues true (indexed layeredCorpus) = [] := by decide +kernel
  obtain ⟨db, h, hentry, htarget, hruntime, hbuild⟩ :
      ∃ db, compile ⟨[], none⟩ ⟨defaultVersion, ""⟩ layeredCorpus = .ok db ∧
        ((Table.get? "a" db.entries).map (·.visibility) = some none) ∧ "b" ∈ db.ids ∧
        (⟨"a", "b", .runtime⟩ : Edge String) ∈ db.graph.edges ∧
        (⟨"a", "b", .build⟩ : Edge String) ∈ db.graph.edges :=
    ⟨_, rfl, rfl, by decide +kernel, by decide +kernel, by decide +kernel⟩
  have hpublic : ∀ e, Table.get? "a" db.entries = some e → e.visibility ≠ some .internal := by
    intro e he
    rw [he, Option.map_some, Option.some.injEq] at hentry
    simp [hentry]
  have hkept := (release_keeps_hard_edges ⟨[], none⟩ ⟨defaultVersion, ""⟩ layeredCorpus).2 db h
    hids true hclean
  exact ⟨hids, hclean, db, h, hkept _ hruntime (.inl rfl) hpublic htarget,
    hkept _ hbuild (.inr rfl) hpublic htarget⟩

end Marginalia.Validate
