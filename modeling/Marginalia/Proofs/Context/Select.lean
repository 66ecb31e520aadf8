/-
  Marginalia/Proofs/Context/Select.lean
  =====================================
  **What a selection is extended by.**  The selection, each entry once, and what it
  needs are the entries of the closure of its ids (`pending_append_needed`).  Hence
  the added entries are those that runtime dependencies lead to from the selected
  ones (`mem_added_iff`), and after a single id they stand as among its dependencies
  (`needed_singleton`).  A loaded database, whose labels are values, gives the same
  selection (`select_map`).
-/
import Marginalia.Proofs.Context.Needed
import Marginalia.Proofs.Database.Compile
import Marginalia.Proofs.Query.Dependencies

namespace Marginalia

open Marginalia.Graph

variable {κ : Type}

/-- The id has an entry. -/
def Database.hasEntry (db : Database String κ) (x : String) : Bool := (db.entry? x).isSome

theorem Database.hasEntry_iff {db : Database String κ} {x : String} :
    db.hasEntry x ↔ ∃ e, db.entry? x = some e := Option.isSome_iff_exists

/-- Every entry is stored under its own id, and no two under the same. -/
structure Database.KeyedById (db : Database String κ) : Prop where
  distinct : (Table.keys db.entries).Nodup
  own : ∀ p ∈ db.entries, p.2.id = p.1

theorem keyedById_of_compile {b : Base} {stamp : Stamp} {corpus : List Extraction} {db : Compiled}
    (h : compile b stamp corpus = .ok db) : db.KeyedById := by
  have hentries := (compile_eq_ok h).1
  refine ⟨nodup_keys_of_compileEntries hentries, ?_⟩
  rintro ⟨id, e⟩ hmem
  obtain ⟨a, path, _, hid, hentry⟩ := exists_note_of_mem_entries hentries hmem
  have hown := (Note.entry_eq_ok hentry).1
  rw [hid] at hown
  exact (Option.some.inj hown).symm

/-- The second entry is a runtime target of the first. -/
def Database.NeedsAtRuntime (db : Database String κ) (e f : Entry String) : Prop :=
  ∃ t ∈ e.targets .runtime, db.entry? t = some f

namespace Database.KeyedById

variable {db : Database String κ} (hdb : db.KeyedById)

include hdb

theorem id_of_entry? {x : String} {e : Entry String} (h : db.entry? x = some e) : e.id = x :=
  hdb.own (x, e) (Table.mem_of_get?_eq_some h)

theorem entry?_id_iff {e : Entry String} :
    db.entry? e.id = some e ↔ e ∈ Table.values db.entries := by
  constructor
  · intro h
    exact List.mem_map.mpr ⟨(e.id, e), Table.mem_of_get?_eq_some h, rfl⟩
  · intro h
    obtain ⟨p, hp, rfl⟩ := List.mem_map.mp h
    rw [hdb.own p hp]
    exact Table.get?_of_mem hdb.distinct hp

theorem leadsIn_of_reflTransGen {e f : Entry String} (he : db.entry? e.id = some e)
    (h : Relation.ReflTransGen db.NeedsAtRuntime e f) :
    db.entry? f.id = some f ∧ ∃ n, LeadsIn (db.Requires [.runtime]) e.id n f.id := by
  induction h with
  | refl => exact ⟨he, 0, .start⟩
  | tail _ hneeds ih =>
    obtain ⟨hentry, n, hn⟩ := ih
    obtain ⟨t, ht, hfound⟩ := hneeds
    rw [hdb.id_of_entry? hfound]
    exact ⟨hfound, n + 1, .next hn ⟨_, hentry, .runtime, List.mem_cons_self, ht⟩⟩

end Database.KeyedById

theorem Database.reflTransGen_of_leadsIn {db : Database String κ} {x y : String} {n : Nat}
    (h : LeadsIn (db.Requires [.runtime]) x n y) {e : Entry String} (he : db.entry? x = some e) :
    ∀ {f : Entry String}, db.entry? y = some f → Relation.ReflTransGen db.NeedsAtRuntime e f := by
  induction h with
  | start =>
    intro f hf
    obtain rfl : e = f := Option.some.inj (he.symm.trans hf)
    exact .refl
  | next _ hstep ih =>
    intro f hf
    obtain ⟨g, hg, c, hc, ht⟩ := hstep
    obtain rfl : c = .runtime := by simpa using hc
    exact .tail (ih hg) ⟨_, ht, hf⟩

namespace Context

/-! ### The entries that a selection needs -/

variable {db : Database String κ}

theorem mem_initialSelection {o : Options String} {e : Entry String}
    (h : e ∈ initialSelection db o) : e ∈ Table.values db.entries := by
  unfold initialSelection at h
  split at h
  · obtain ⟨x, _, hx⟩ := List.mem_filterMap.mp h
    exact List.mem_map.mpr ⟨(x, e), Table.mem_of_get?_eq_some hx, rfl⟩
  · split at h
    · exact (List.mem_filter.mp h).1
    · split at h
      · exact (List.mem_filter.mp h).1
      · exact h

section

variable (hdb : db.KeyedById) {selected : List (Entry String)}
  (h : ∀ e ∈ selected, e ∈ Table.values db.entries)

include hdb h

/-- The ids of a selection, each once, and those that it needs are the entries of the closure of its
ids. -/
theorem pending_append_needed :
    pending db.hasEntry [] (selected.map Entry.id) ++ needed db selected =
      (closureFrom (db.declared [.runtime]) [] (selected.map Entry.id)).filter
        fun x => db.hasEntry x := by
  have hleaf : ∀ y, ¬ db.hasEntry y → targetsOf (db.declared [.runtime]) y = [] := by
    intro y hy
    have hnone : db.entry? y = none := by simpa [Database.hasEntry] using hy
    rw [db.targetsOf_declared, hnone]
    rfl
  have hentries : ∀ y ∈ selected.map Entry.id, db.hasEntry y := by
    intro y hy
    obtain ⟨e, he, rfl⟩ := List.mem_map.mp hy
    exact Database.hasEntry_iff.mpr ⟨e, hdb.entry?_id_iff.mpr (h e he)⟩
  exact pending_append_neededFrom hleaf [] _ (InStep.start hentries)

theorem nodup_pending_append_needed :
    (pending db.hasEntry [] (selected.map Entry.id) ++ needed db selected).Nodup := by
  rw [pending_append_needed hdb h]
  exact (nodup_closureFrom _ _ _).filter _

theorem mem_needed_iff {x : String} :
    x ∈ needed db selected ↔ db.hasEntry x ∧ x ∉ selected.map Entry.id ∧
      ∃ s ∈ selected, ∃ n, LeadsIn (db.Requires [.runtime]) s.id n x := by
  have hnodup := List.nodup_append.mp (nodup_pending_append_needed hdb h)
  have hmem := List.mem_append.symm.trans
    (iff_of_eq (congrArg (x ∈ ·) (pending_append_needed hdb h)))
  rw [mem_pending_iff, List.mem_filter, mem_closureFrom_iff] at hmem
  constructor
  · intro hx
    obtain ⟨⟨t, ht, hreach⟩, hentry⟩ := hmem.mp (.inr hx)
    refine ⟨hentry, ?_, ?_⟩
    · intro hids
      exact hnodup.2.2 x (mem_pending_iff.mpr ⟨hids, hentry, List.not_mem_nil⟩) x hx rfl
    · obtain ⟨s, hs, rfl⟩ := List.mem_map.mp ht
      obtain ⟨n, hn⟩ := hreach.leadsIn
      rw [db.adjacent_declared] at hn
      exact ⟨s, hs, n, hn⟩
  · rintro ⟨hentry, hids, s, hs, n, hn⟩
    rw [← db.adjacent_declared] at hn
    have hx := hmem.mpr ⟨⟨s.id, List.mem_map_of_mem hs, hn.reachesAvoiding⟩, hentry⟩
    exact hx.resolve_left fun hpending => hids hpending.1

theorem map_id_needed :
    ((needed db selected).filterMap db.entry?).map Entry.id = needed db selected := by
  rw [List.map_filterMap]
  have hid : ∀ x ∈ needed db selected, (db.entry? x).map Entry.id = some x := by
    intro x hx
    obtain ⟨e, he⟩ := Database.hasEntry_iff.mp ((mem_needed_iff hdb h).mp hx).1
    rw [he, Option.map_some, hdb.id_of_entry? he]
  rw [List.filterMap_congr hid, List.filterMap_some]

/-- An entry is added exactly if the selection does not hold it and leads to it by runtime
dependencies between entries. -/
theorem mem_added_iff {e : Entry String} :
    e ∈ (needed db selected).filterMap db.entry? ↔
      e ∈ Table.values db.entries ∧ e ∉ selected ∧
        ∃ s ∈ selected, Relation.ReflTransGen db.NeedsAtRuntime s e := by
  have hmem : e ∈ (needed db selected).filterMap db.entry? ↔
      db.entry? e.id = some e ∧ e.id ∈ needed db selected := by
    constructor
    · intro he
      obtain ⟨x, hx, hfound⟩ := List.mem_filterMap.mp he
      obtain rfl := hdb.id_of_entry? hfound
      exact ⟨hfound, hx⟩
    · rintro ⟨hfound, hx⟩
      exact List.mem_filterMap.mpr ⟨e.id, hx, hfound⟩
  rw [hmem, mem_needed_iff hdb h, hdb.entry?_id_iff]
  constructor
  · rintro ⟨hvalues, _, hids, s, hs, n, hn⟩
    refine ⟨hvalues, fun he => hids (List.mem_map_of_mem he), s, hs, ?_⟩
    exact Database.reflTransGen_of_leadsIn hn (hdb.entry?_id_iff.mpr (h s hs))
      (hdb.entry?_id_iff.mpr hvalues)
  · rintro ⟨hvalues, hnot, s, hs, hpath⟩
    have hfound := hdb.entry?_id_iff.mpr hvalues
    refine ⟨hvalues, Database.hasEntry_iff.mpr ⟨e, hfound⟩, ?_, s, hs, ?_⟩
    · intro hids
      obtain ⟨f, hf, hid⟩ := List.mem_map.mp hids
      have hfound' := hdb.entry?_id_iff.mpr (h f hf)
      rw [hid, hfound] at hfound'
      obtain rfl := Option.some.inj hfound'
      exact hnot hf
    · exact (hdb.leadsIn_of_reflTransGen (hdb.entry?_id_iff.mpr (h s hs)) hpath).2

end

theorem needed_singleton (hdb : db.KeyedById) {x : String} {e : Entry String}
    (he : db.entry? x = some e) :
    needed db [e] = (db.allDependencies [.runtime] x).filter db.hasEntry := by
  obtain rfl := hdb.id_of_entry? he
  have hentry : db.hasEntry e.id := Database.hasEntry_iff.mpr ⟨e, he⟩
  have hvalues : ∀ f ∈ [e], f ∈ Table.values db.entries := by
    intro f hf
    obtain rfl := List.mem_singleton.mp hf
    exact hdb.entry?_id_iff.mp he
  have hpending : pending db.hasEntry [] [e.id] = [e.id] :=
    pending_cons_take hentry List.not_mem_nil []
  have hall := pending_append_needed hdb hvalues
  rw [List.map_singleton, closureFrom_singleton, hpending, List.filter_cons, if_pos hentry] at hall
  exact (List.cons.inj hall).2

/-! ### Loaded databases -/

section

variable (db) {μ : Type} (g : κ → μ)

/-- Options whose labels are texts, as values. -/
def Options.loaded (o : Options String) : Options Json :=
  { o with scope := o.scope.map Json.str, ids := o.ids.map Json.str }

theorem entry?_map (x : String) :
    Database.entry? (db.map Json.str g) (.str x) = (db.entry? x).map (·.map Json.str) :=
  Table.get?_mapValues _ _ _

theorem initialSelection_map (o : Options String) :
    initialSelection (db.map Json.str g) o.loaded =
      (initialSelection db o).map (·.map Json.str) := by
  have hvalues : Table.values (db.map Json.str g).entries =
      (Table.values db.entries).map (·.map Json.str) := by
    simp [Table.values, Database.map, Table.mapValues, Function.comp_def]
  have htag : ∀ e : Entry String, (e.map Json.str).taggedWithAny (o.scope.map Json.str) =
      e.taggedWithAny o.scope := by
    intro e
    have htags : (e.map Json.str).tags.getD [] = (e.tags.getD []).map Json.str := by
      rw [Entry.map]
      cases e.tags <;> rfl
    simp only [Entry.taggedWithAny, List.any_map, htags]
    congr 1
    funext t
    exact contains_map Json.str_beq_str _ t
  unfold initialSelection
  simp only [Options.loaded, hvalues, List.isEmpty_map]
  split
  · rw [List.filterMap_map, List.map_filterMap]
    apply List.filterMap_congr
    intro x _
    exact entry?_map db g x
  · split
    · rw [List.filter_map]
      congr 1
      apply List.filter_congr
      intro e _
      exact htag e
    · split
      · rw [List.filter_map]
        rfl
      · rfl

theorem needed_map (selected : List (Entry String)) :
    needed (db.map Json.str g) (selected.map (·.map Json.str)) =
      (needed db selected).map Json.str := by
  have hids : (selected.map (·.map Json.str)).map (fun e => Label.ofText e.id) =
      (selected.map Entry.id).map Json.str := by
    simp only [List.map_map]
    rfl
  have hentry : ∀ x : String,
      (Database.entry? (db.map Json.str g) (.str x)).isSome = (db.entry? x).isSome := by
    intro x
    rw [entry?_map, Option.isSome_map]
  rw [needed, hids, db.declared_map]
  exact neededFrom_relabel Json.str_beq_str hentry (db.declared [.runtime]) []
    (selected.map Entry.id) (selected.map Entry.id)

theorem takeInt_map {α β : Type} (f : α → β) (n : Int) (l : List α) :
    takeInt n (l.map f) = (takeInt n l).map f := by
  unfold takeInt
  rw [List.length_map]
  split <;> rw [List.map_take]

theorem select_map (o : Options String) :
    select (db.map Json.str g) o.loaded =
      ((select db o).1.map (·.map Json.str), (select db o).2) := by
  have hadded : ∀ l : List String,
      (l.map Json.str).filterMap (Database.entry? (db.map Json.str g)) =
        (l.filterMap db.entry?).map (·.map Json.str) := by
    intro l
    rw [List.filterMap_map, List.map_filterMap]
    apply List.filterMap_congr
    intro x _
    exact entry?_map db g x
  simp only [select, initialSelection_map, needed_map, hadded]
  cases hdeps : o.includeDeps <;> cases hlimit : o.maxEntries <;>
    simp [Options.loaded, hdeps, hlimit, ← takeInt_map]

end

/-! ### The selection -/

/-- With dependencies, a selection is cut from the entries named and those added to them, each of
which is counted.  Added are, once each, the other entries that runtime dependencies between entries
lead to from those named.  After a single id they stand as among its dependencies.  It makes no
difference if the database was loaded, and compiled databases are keyed by id. -/
theorem select_eq_take_closure (hdb : db.KeyedById) {o : Options String}
    (hdeps : o.includeDeps = true) {limit : Nat} (hlimit : o.maxEntries = some limit) :
    (∃ added : List (Entry String),
      select db o = ((initialSelection db o ++ added).take limit, added.length) ∧
      added.Nodup ∧
      (∀ e, e ∈ added ↔ e ∈ Table.values db.entries ∧ e ∉ initialSelection db o ∧
        ∃ s ∈ initialSelection db o, Relation.ReflTransGen db.NeedsAtRuntime s e) ∧
      ∀ x, o.ids = [x] → db.hasEntry x →
        (initialSelection db o ++ added).map Entry.id =
          x :: (db.allDependencies [.runtime] x).filter db.hasEntry) ∧
    (∀ (μ : Type) (g : κ → μ), select (db.map Json.str g) o.loaded =
      ((select db o).1.map (·.map Json.str), (select db o).2)) ∧
    ∀ b stamp corpus (compiled : Compiled),
      compile b stamp corpus = .ok compiled → compiled.KeyedById := by
  refine ⟨?_, fun μ g => select_map db g o, fun _ _ _ _ => keyedById_of_compile⟩
  have hvalues : ∀ e ∈ initialSelection db o, e ∈ Table.values db.entries :=
    fun e he => mem_initialSelection he
  refine ⟨(needed db (initialSelection db o)).filterMap db.entry?, ?_, ?_, ?_, ?_⟩
  · rw [select, hdeps, hlimit]
    rfl
  · apply List.Nodup.of_map Entry.id
    rw [map_id_needed hdb hvalues]
    exact (List.nodup_append.mp (nodup_pending_append_needed hdb hvalues)).2.1
  · intro e
    exact mem_added_iff hdb hvalues
  · intro x hids hentry
    obtain ⟨e, he⟩ := Database.hasEntry_iff.mp hentry
    have hstart : initialSelection db o = [e] := by
      rw [initialSelection, hids]
      simp [he]
    rw [List.map_append, map_id_needed hdb hvalues, hstart, needed_singleton hdb he,
      List.map_singleton, hdb.id_of_entry? he]
    rfl

/-- Entries that need each other, one that is needed twice, one that is not needed, and a target
without an entry. -/
def circularCorpus : List Extraction :=
  [⟨"m.ts", [
      ⟨{ id := "d", deps := some (.flat ["a"]) }, .comment, 1, "", none⟩,
      ⟨{ id := "a", deps := some (.flat ["b", "x", "b"]) }, .comment, 4, "", none⟩,
      ⟨{ id := "b", deps := some (.classified { runtime := ["c", "a"], build := ["d"] }) },
        .embedded, 7, "", none⟩,
      ⟨{ id := "c" }, .comment, 9, "", none⟩], []⟩]

theorem select_eq_take_closure_circular :
    ∃ db, compile ⟨[], none⟩ ⟨defaultVersion, ""⟩ circularCorpus = .ok db ∧ db.KeyedById ∧
      ∃ all : List (Entry String), all.map Entry.id = ["a", "b", "c"] ∧
        select db { ids := ["a"], maxEntries := some 2 } = (all.take 2, 2) := by
  obtain ⟨db, h, hentry, hstart, hfound⟩ :
      ∃ db, compile ⟨[], none⟩ ⟨defaultVersion, ""⟩ circularCorpus = .ok db ∧ db.hasEntry "a" ∧
        (initialSelection db { ids := ["a"], maxEntries := some 2 }).length = 1 ∧
        (db.allDependencies [.runtime] "a").filter db.hasEntry = ["b", "c"] :=
    ⟨_, rfl, by decide +kernel, by decide +kernel, by decide +kernel⟩
  have hdb := keyedById_of_compile h
  have hlimit : some 2 = some ((2 : Nat) : Int) := rfl
  obtain ⟨⟨added, hselect, _, _, hids⟩, _⟩ :=
    select_eq_take_closure hdb (o := { ids := ["a"], maxEntries := some 2 }) rfl hlimit
  have hall := hids "a" rfl hentry
  rw [hfound] at hall
  have hcount : added.length = 2 := by
    have hlength := congrArg List.length hall
    rw [List.length_map, List.length_append, hstart] at hlength
    simpa [Nat.add_comm] using hlength
  rw [hcount] at hselect
  exact ⟨db, h, hdb, _, hall, hselect⟩

end Context

end Marginalia
