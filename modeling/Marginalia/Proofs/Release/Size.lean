/-
  Marginalia/Proofs/Release/Size.lean
  ===================================
  **Production takes less room.**  The document of a production database is made of
  that of its database by leaving out entries, nodes, edges and fields, by putting a
  summary where a structured hint stood, and by counting less.  So each of its parts
  takes no more room than the part that it comes from: entries (`Entry.fits_stripped`),
  ids, graph (`DepGraph.fits_induced`) and statistics (`fits_stats`).  The build
  information takes less, for the time is longer than what the name of the format
  gains (`size_buildInfo_lt`).
-/
import Marginalia.Proofs.Json.Size
import Marginalia.Proofs.Release.Graph

namespace Marginalia

open Marginalia.Json

/-! ### Entries -/

theorem fits_text_of_member {key s : String} {fs : List (String × Json)}
    (h : (key, .str s) ∈ fs) : Fits (.str s) (.obj fs) := by
  intro depth
  have hmember : memberSize (depth + 1) (key, .str s) ≤ (fs.map (memberSize (depth + 1))).sum :=
    List.le_sum_of_mem (List.mem_map_of_mem h)
  have hsize : memberSize (depth + 1) (key, .str s) =
      Text.utf8Size (writeString false key) + size depth (.str s) + 2 := rfl
  rw [size_obj]
  omega

/-- A hint takes no less room than its summary. -/
theorem Hint.fits_summary {hint : Hint String} {s : String} (h : hint.summary? = some s) :
    Fits (.str s) (hint.map Json.str).toJson := by
  cases hint with
  | text t =>
    obtain rfl : t = s := Option.some.inj h
    exact Fits.refl _
  | parts p =>
    have hsummary : p.summary = some s := h
    have hmember : ("summary", Json.str s) ∈
        [("summary", p.summary.map Json.str), ("usage", p.usage.map Json.str),
          ("examples", (p.examples.map (·.map Json.str)).map Json.arr)].filterMap
            fun q => q.2.map (q.1, ·) := by
      simp [hsummary]
    exact fits_text_of_member hmember

theorem fits_targets {deps : Table String (List String)} (hkeys : (Table.keys deps).Nodup)
    (keep : String × List String → Bool) :
    Fits (.obj (Table.mapValues Label.listJson (deps.filter keep)))
      (.obj (Table.mapValues Json.arr (Table.mapValues (·.map Json.str) deps))) := by
  apply fits_mapValues ((List.filter_sublist.map Prod.fst).nodup hkeys)
  intro p hp
  exact ⟨p.2.map Json.str, List.mem_map_of_mem (List.mem_of_mem_filter hp), Fits.refl _⟩

/-- The production form of an entry takes no more room than the entry. -/
theorem Entry.fits_stripped {e : Entry String} {r : ReleasedEntry String}
    (hdeps : (Table.keys e.deps).Nodup) (h : e.stripped? = some r) :
    Fits r.toJson (e.map Json.str).toJson := by
  unfold Entry.stripped? at h
  split at h
  · cases h
  · obtain rfl := Option.some.inj h
    have htext : (Label.toJson : String → Json) = Json.str := rfl
    change Fits _ (Json.objOf (e.map Json.str).parts)
    apply fits_objOf (by simp [Table.keys])
    simp only [List.forall_mem_cons]
    refine ⟨?id, ?name, ?desc, ?tags, ?deps, ?ai, ?version, ?phase, ?status, by simp⟩
    case id => exact .of_mem (by simp [Entry.parts, Entry.map])
    case name => exact .of_mem (by simp [Entry.parts, Entry.map, htext])
    case desc => exact .of_mem (by simp [Entry.parts, Entry.map, htext])
    case version => exact .of_mem (by simp [Entry.parts, Entry.map, htext])
    case phase => exact .of_mem (by simp [Entry.parts, Entry.map])
    case status => exact .of_mem (by simp [Entry.parts, Entry.map])
    case tags =>
      intro v hv
      obtain ⟨l, hl, rfl⟩ := Option.map_eq_some_iff.mp hv
      obtain ⟨htags, _⟩ := Option.filter_eq_some_iff.mp hl
      refine ⟨Label.listJson l, ?_, Fits.refl _⟩
      simp [Entry.parts, Entry.map, htags, Label.listJson, htext]
    case deps =>
      intro v hv
      obtain ⟨hleft, rfl⟩ : (e.deps.filter fun p => !p.2.isEmpty).isEmpty = false ∧
          .obj (Table.mapValues Label.listJson (e.deps.filter fun p => !p.2.isEmpty)) = v := by
        simpa using hv
      -- if targets are left there are some in the entry
      have hsome : e.deps ≠ [] := by
        intro hnone
        simp [hnone] at hleft
      refine ⟨.obj (Table.mapValues Json.arr (e.map Json.str).deps), ?_, fits_targets hdeps _⟩
      simp [Entry.parts, Entry.map, Table.mapValues, hsome]
    case ai =>
      intro v hv
      obtain ⟨s, hs, rfl⟩ := Option.map_eq_some_iff.mp hv
      obtain ⟨hsummary, _⟩ := Option.filter_eq_some_iff.mp hs
      obtain ⟨hint, hai, hsummary⟩ := Option.bind_eq_some_iff.mp hsummary
      refine ⟨(hint.map Json.str).toJson, ?_, Hint.fits_summary hsummary⟩
      simp [Entry.parts, Entry.map, hai]

theorem mem_surviving_iff {db : Compiled} {id : String} {r : ReleasedEntry String} :
    (id, r) ∈ db.surviving ↔ ∃ e, (id, e) ∈ db.entries ∧ e.stripped? = some r := by
  simp only [Database.surviving, List.mem_filterMap, Option.map_eq_some_iff, Prod.mk.injEq,
    Prod.exists]
  grind

theorem length_surviving (db : Compiled) : db.surviving.length =
    (db.entries.filter fun p => !(p.2.visibility == some .internal)).length := by
  rw [Database.surviving, List.length_filterMap_eq_countP, List.countP_eq_length_filter]
  congr 1
  apply List.filter_congr
  intro p _
  rw [Option.isSome_map, Entry.isSome_stripped?]
  rfl

/-! ### The graph -/

theorem Node.fits_restricted (keep : String → Bool) (id : String) (n : Node String) :
    Fits (((n.restricted keep).map Json.str).toJson id) ((n.map Json.str).toJson id) := by
  have hlist : ∀ l : List String, Fits (.arr ((l.filter keep).map .str)) (.arr (l.map .str)) :=
    fun l => fits_arr_of_sublist (List.filter_sublist.map _)
  apply fits_obj (by simp [Table.keys])
  simp only [List.forall_mem_cons]
  exact ⟨⟨_, by simp, Fits.refl _⟩, ⟨_, by simp [Node.map], hlist n.runtime⟩,
    ⟨_, by simp [Node.map], hlist n.build⟩, ⟨_, by simp [Node.map], hlist n.optional⟩,
    ⟨_, by simp [Node.map], hlist n.dependents⟩, by simp⟩

/-- The part of a graph between some nodes takes no more room than the graph. -/
theorem DepGraph.fits_induced (keep : String → Bool) {g : DepGraph String}
    (hkeys : (Table.keys g.nodes).Nodup) :
    Fits ((g.induced keep).map Json.str).toJson (g.map Json.str).toJson := by
  have hnodes : Fits
      (.obj (((g.induced keep).map Json.str).nodes.map fun p => (p.1, p.2.toJson p.1)))
      (.obj ((g.map Json.str).nodes.map fun p => (p.1, p.2.toJson p.1))) := by
    apply fits_obj
    · have hleft : (Table.keys (g.nodes.filter fun p => keep p.1)).Nodup :=
        (List.filter_sublist.map Prod.fst).nodup hkeys
      simpa [DepGraph.map, DepGraph.induced, Table.keys, Table.mapValues, Function.comp_def]
        using hleft
    · intro p hp
      obtain ⟨q, hq, rfl⟩ := List.mem_map.mp hp
      obtain ⟨r, hr, rfl⟩ := List.mem_map.mp hq
      obtain ⟨⟨id, n⟩, hn, rfl⟩ := List.mem_map.mp hr
      refine ⟨(n.map Json.str).toJson id, ?_, n.fits_restricted keep id⟩
      exact List.mem_map.mpr ⟨(id, n.map Json.str),
        List.mem_map_of_mem (List.mem_of_mem_filter hn), rfl⟩
  have hedges : Fits (.arr (((g.induced keep).map Json.str).edges.map Edge.toJson))
      (.arr ((g.map Json.str).edges.map Edge.toJson)) :=
    fits_arr_of_sublist ((List.filter_sublist.map _).map _)
  apply fits_obj (by simp [Table.keys])
  simp only [List.forall_mem_cons]
  exact ⟨⟨_, by simp, hnodes⟩, ⟨_, by simp, hedges⟩, by simp⟩

/-! ### Statistics -/

theorem flatMap_filterMap_sublist {α β γ : Type} {f : α → Option β} {g : β → List γ}
    {g' : α → List γ} (h : ∀ a b, f a = some b → (g b).Sublist (g' a)) (l : List α) :
    ((l.filterMap f).flatMap g).Sublist (l.flatMap g') := by
  induction l with
  | nil => exact .slnil
  | cons a l ih =>
    rw [List.flatMap_cons]
    cases hf : f a with
    | none =>
      rw [List.filterMap_cons_none hf]
      exact ih.trans (List.sublist_append_right _ _)
    | some b =>
      rw [List.filterMap_cons_some hf, List.flatMap_cons]
      exact (h a b hf).append ih

/-- The counts of some of the texts take no more room than those of all. -/
theorem fits_tallyAll {keys keys' : List String} (h : keys.Sublist keys') :
    Fits (.obj (Table.mapValues Json.nat (tallyAll keys)))
      (.obj (Table.mapValues Json.nat (tallyAll keys'))) := by
  apply fits_mapValues (nodup_keys_tallyAll keys)
  rintro ⟨x, n⟩ hx
  obtain ⟨hmem, hcount⟩ := mem_tallyAll_iff.mp hx
  have hle : n ≤ keys'.count x := hcount.trans_le (h.count_le x)
  exact ⟨keys'.count x, mem_tallyAll_iff.mpr ⟨h.mem hmem, rfl⟩, fits_nat hle⟩

theorem values_surviving (db : Compiled) :
    Table.values db.surviving = (Table.values db.entries).filterMap Entry.stripped? := by
  simp [Table.values, Database.surviving, List.map_filterMap, List.filterMap_map,
    Function.comp_def]

/-- What the production form of an entry counts for, the entry counts for. -/
theorem Entry.counted_of_stripped? {e : Entry String} {r : ReleasedEntry String}
    (h : e.stripped? = some r) : r.statusName = e.statusName ∧ r.tags.getD [] = e.tags.getD [] := by
  unfold Entry.stripped? at h
  split at h
  · cases h
  · obtain rfl := Option.some.inj h
    refine ⟨rfl, ?_⟩
    cases htags : e.tags with
    | none => rfl
    | some l => cases l <;> rfl

/-! ### The document -/

section Compiled

variable {b : Base} {stamp : Stamp} {corpus : List Extraction} {db : Compiled}

theorem fits_entries (h : compile b stamp corpus = .ok db) :
    Fits (.obj (Table.mapValues ReleasedEntry.toJson db.release.entries))
      (.obj (Table.mapValues Entry.toJson db.stored.entries)) := by
  have hdistinct := keysDistinct_of_compile h
  have hkeys : Table.keys db.release.entries = (Table.keys db.entries).filter db.isReleased :=
    keys_surviving hdistinct.entries
  apply fits_mapValues
  · rw [hkeys]
    exact List.filter_sublist.nodup hdistinct.entries
  · rintro ⟨id, r⟩ hr
    obtain ⟨e, he, hstripped⟩ := mem_surviving_iff.mp hr
    exact ⟨e.map Json.str, List.mem_map_of_mem he,
      Entry.fits_stripped (hdistinct.deps _ he) hstripped⟩

theorem fits_ids (h : compile b stamp corpus = .ok db) :
    Fits (Json.strings db.release.ids) (.arr db.stored.ids) := by
  have hkept : db.release.ids = (Table.keys db.entries).filter db.isReleased :=
    keys_surviving (keysDistinct_of_compile h).entries
  have hsublist : db.release.ids.Sublist db.ids := by
    rw [hkept, ids_of_compile h]
    exact List.filter_sublist
  exact fits_arr_of_sublist (hsublist.map _)

theorem fits_graph (h : compile b stamp corpus = .ok db) :
    Fits (db.release.graph.map Json.str).toJson db.stored.graph.toJson := by
  rw [graph_release h]
  exact DepGraph.fits_induced _ (keysDistinct_of_compile h).nodes

theorem fits_stats (h : compile b stamp corpus = .ok db) :
    Fits db.release.statsJson db.stored.stats.toJson := by
  have hstats : db.stats = statistics db.entries db.graph := (compile_eq_ok h).2.2
  have htotal : Fits (.nat db.surviving.length) (.nat db.entries.length) :=
    fits_nat (List.length_filterMap_le _ _)
  have hstatus : ((Table.values db.surviving).map ReleasedEntry.statusName).Sublist
      ((Table.values db.entries).map Entry.statusName) := by
    rw [values_surviving, List.map_eq_flatMap, List.map_eq_flatMap]
    apply flatMap_filterMap_sublist
    intro e r hstripped
    rw [(Entry.counted_of_stripped? hstripped).1]
  have htag : ((Table.values db.surviving).flatMap fun r => r.tags.getD []).Sublist
      ((Table.values db.entries).flatMap fun e => e.tags.getD []) := by
    rw [values_surviving]
    apply flatMap_filterMap_sublist
    intro e r hstripped
    rw [(Entry.counted_of_stripped? hstripped).2]
  have hbyTag : countsJson (Table.mapValues Json.nat db.release.byTag) =
      .obj (Table.mapValues Json.nat db.release.byTag) := by
    simp [countsJson, Table.mapValues]
  have hcounts : ∀ counts : Table String Nat,
      countsJson (counts.map fun p => (Json.str p.1, Json.nat p.2)) =
        .obj (Table.mapValues Json.nat counts) := by
    intro counts
    rw [countsJson, List.map_map]
    rfl
  rw [Release.statsJson, hbyTag, Database.stored, Database.map, hstats]
  apply fits_obj (by simp [Table.keys])
  simp only [List.forall_mem_cons]
  exact ⟨⟨_, List.mem_cons_self, htotal⟩,
    ⟨_, by simp [Stats.map, statistics, hcounts], fits_tallyAll hstatus⟩,
    ⟨_, by simp [Stats.map, statistics, hcounts], fits_tallyAll htag⟩, by simp⟩

/-- The time that production leaves out takes more room than the longer name of its format. -/
theorem size_buildInfo_lt (h : compile b stamp corpus = .ok db) (depth : Nat) :
    size depth (.obj [("version", .str db.release.version), ("format", .str releaseFormat)]) <
      size depth db.stored.build.toJson := by
  have hversion : db.release.version = db.stored.build.version := rfl
  have hformat : db.stored.build.format = databaseFormat := by
    obtain ⟨_, _, rfl⟩ := exists_entries_of_compile h
    rfl
  have htext : ∀ s, size (depth + 1) (.str s) = Text.utf8Size (writeString false s) := fun _ => rfl
  have htime : Text.utf8Size (writeString false "timestamp") = 11 := by decide
  have hdev : Text.utf8Size (writeString false databaseFormat) = 13 := by decide
  have hprod : Text.utf8Size (writeString false releaseFormat) = 18 := by decide
  rw [Build.toJson, size_obj, size_obj, hversion, hformat]
  simp only [List.map_cons, List.map_nil, List.sum_cons, List.sum_nil, memberSize, htext, htime,
    hdev, hprod]
  omega

/-- The document of the production form is smaller than that of the database. -/
theorem size_release_lt (h : compile b stamp corpus = .ok db) (depth : Nat) :
    size depth db.release.toJson < size depth db.stored.toJson := by
  have hentries := fits_entries h (depth + 1)
  have hids := fits_ids h (depth + 1)
  have hgraph := fits_graph h (depth + 1)
  have hstats := fits_stats h (depth + 1)
  have hbuild := size_buildInfo_lt h (depth + 1)
  rw [Release.toJson, Database.toJson, size_obj, size_obj]
  simp only [List.map_cons, List.map_nil, List.sum_cons, List.sum_nil, memberSize]
  omega

/-- What the report says of a compiled database and its production form: the production document
has bytes, and fewer than that of the database, so some are saved, and as many entries are left out
as are internal. -/
theorem sizeReport_of_compile (h : compile b stamp corpus = .ok db) :
    0 < (sizeReport db.stored db.release).prodSize ∧
    (sizeReport db.stored db.release).prodSize < (sizeReport db.stored db.release).devSize ∧
    0 < (sizeReport db.stored db.release).saved ∧
    (sizeReport db.stored db.release).removed =
      (db.entries.filter fun p => p.2.visibility == some .internal).length := by
  have hdev : (sizeReport db.stored db.release).devSize = size 0 db.stored.toJson := by
    simp [sizeReport, compactText, render, size]
  have hprod : (sizeReport db.stored db.release).prodSize = size 0 db.release.toJson := by
    simp [sizeReport, compactText, render, size]
  have hlt := size_release_lt h 0
  have hpos : 0 < size 0 db.release.toJson := by
    rw [Release.toJson, size_obj]
    omega
  have hremoved : (sizeReport db.stored db.release).removed =
      (db.entries.length : Int) - db.surviving.length := by
    have hentries : db.stored.entries.length = db.entries.length := List.length_map _
    simp only [SizeReport.removed, sizeReport, hentries]
    rfl
  have hsplit := List.length_eq_length_filter_add
    (fun p : String × Entry String => p.2.visibility == some .internal) (l := db.entries)
  have hsurviving := length_surviving db
  refine ⟨?_, ?_, ?_, ?_⟩
  · rwa [hprod]
  · rwa [hdev, hprod]
  · rw [SizeReport.saved, hdev, hprod]
    omega
  · rw [hremoved]
    omega

end Compiled

/-- An entry of texts that are escaped or have long characters and of a hint in parts, one that is
internal, and one whose only field is its id. -/
def quotedCorpus : List Extraction :=
  [⟨"q.ts", [
      ⟨{ id := "say \"é\"", desc := "a\\b\n", tags := some ["ü", "ü"],
         deps := some (.classified { runtime := ["core", "id"], optional := ["id"] }),
         ai := some (.parts { summary := "\t", usage := "→" }), phase := some (-2) },
        .comment, 1, "", none⟩,
      ⟨{ id := "core", visibility := some .internal, status := some .beta }, .comment, 8, "",
        some "core"⟩,
      ⟨{ id := "id" }, .embedded, 9, "", none⟩], []⟩]

theorem sizeReport_of_compile_quoted :
    ∃ db, compile ⟨[], none⟩ ⟨defaultVersion, ""⟩ quotedCorpus = .ok db ∧
      0 < (sizeReport db.stored db.release).prodSize ∧
      (sizeReport db.stored db.release).prodSize < (sizeReport db.stored db.release).devSize ∧
      0 < (sizeReport db.stored db.release).saved ∧
      (sizeReport db.stored db.release).removed = 1 := by
  obtain ⟨db, h, hinternal⟩ :
      ∃ db, compile ⟨[], none⟩ ⟨defaultVersion, ""⟩ quotedCorpus = .ok db ∧
        (db.entries.filter fun p => p.2.visibility == some .internal).length = 1 :=
    ⟨_, rfl, by decide +kernel⟩
  obtain ⟨hpos, hlt, hsaved, hremoved⟩ := sizeReport_of_compile h
  rw [hinternal] at hremoved
  exact ⟨db, h, hpos, hlt, hsaved, hremoved⟩

end Marginalia
