/-
  Marginalia/Proofs/Release/Reproducible.lean
  ===========================================
  **What the production text depends on.**  If no two annotations of a corpus have
  the same key, production has one entry for every record with an id that is not
  internal, in the order of the corpus, and the entry is made of the record alone
  (`surviving_of_distinct_keys`).  Graph and statistics are made of these entries.
  So two corpora whose released records agree in what production shows have the same
  production text (`release_text_eq_of_agree`): files, lines, times and roots do not
  show in it, and neither does anything of records that are internal or have no id.
-/
import Marginalia.Proofs.Database.Compile
import Marginalia.Release

namespace Marginalia

/-! ### Released records -/

/-- The record has an id and is not internal. -/
def Record.isReleased (r : Record) : Bool := r.id?.isSome && r.visibility != some .internal

/-- The records of a corpus that production shows, in order. -/
def releasedRecords (corpus : List Extraction) : List Record :=
  ((corpusAnnotations corpus).map fun p => p.1.record).filter Record.isReleased

/-- The hint in one text, empty when there is none. -/
def Record.summaryText (r : Record) : String := (r.ai.bind Hint.summary?).getD ""

/-- The records say the same in every field that production shows; what is missing and what is
empty count alike for tags, targets and hints. -/
structure Record.AgreesWith (r s : Record) : Prop where
  id : r.id = s.id
  name : r.name = s.name
  desc : r.desc = s.desc
  tags : r.tags.getD [] = s.tags.getD []
  targets : ∀ c, r.targets [c] = s.targets [c]
  summaryText : r.summaryText = s.summaryText
  version : r.version = s.version
  phase : r.phase = s.phase
  status : r.status = s.status

/-- The entry of a record in production, under its id. -/
def Record.released (r : Record) : String × ReleasedEntry String :=
  (r.id.getD "", {
    id := r.id.getD ""
    name := r.name
    desc := r.desc
    tags := (some (r.tags.getD [])).filter (!·.isEmpty)
    deps := (DepKind.all.map fun c => (c.name, r.targets [c])).filter fun p => !p.2.isEmpty
    ai := (some r.summaryText).filter (!·.isEmpty)
    version := r.version
    phase := r.phase
    status := r.status })

theorem Record.AgreesWith.released_eq {r s : Record} (h : r.AgreesWith s) :
    r.released = s.released := by
  simp only [Record.released, h.id, h.name, h.desc, h.tags, h.targets, h.summaryText, h.version,
    h.phase, h.status]

/-! ### Entries and records -/

theorem filter_getD_empty {α : Type} {isEmpty : α → Bool} {empty : α} (h : isEmpty empty = true)
    (x : Option α) : x.filter (!isEmpty ·) = (some (x.getD empty)).filter (!isEmpty ·) := by
  cases x with
  | none => simp [Option.filter, h]
  | some a => rfl

theorem filter_asTable_eq (r : Record) :
    (((r.deps.map Dependencies.asTable).getD []).filter fun p => !p.2.isEmpty) =
      (DepKind.all.map fun c => (c.name, r.targets [c])).filter fun p => !p.2.isEmpty := by
  cases hdeps : r.deps with
  | none =>
    have hnone : ∀ c, r.targets [c] = [] := by
      intro c
      simp [Record.targets, hdeps]
    simp [hnone]
  | some d =>
    have hkind : ∀ c, r.targets [c] = d.ofKind c := by
      intro c
      simp [Record.targets, hdeps, Dependencies.targets]
    simp [hkind, Dependencies.asTable, List.filter_filter]

theorem stripped?_of_entry {a : Note} {b : Base} {path : String} {e : Entry String}
    (h : a.entry b path = .ok e) :
    e.stripped?.map (a.key path, ·) =
      if a.record.isReleased then some a.record.released else none := by
  obtain ⟨hid, _, he⟩ := Note.entry_eq_ok h
  rw [Note.key_of_id? hid]
  -- the path of the entry is of no account below
  generalize e.id = id, e.filePath = filePath at hid he
  subst he
  have hfield : a.record.id.getD "" = id := by
    obtain ⟨hsome, _⟩ := Option.filter_eq_some_iff.mp hid
    rw [hsome, Option.getD_some]
  cases hinternal : a.record.visibility == some .internal with
  | true => simp [Entry.stripped?, Record.isReleased, bne, hinternal]
  | false =>
    have htags := filter_getD_empty List.isEmpty_nil a.record.tags
    have hsummary : (a.record.ai.bind Hint.summary?).filter Label.isGiven =
        (some a.record.summaryText).filter (!·.isEmpty) :=
      filter_getD_empty rfl _
    simp [Entry.stripped?, Record.isReleased, Record.released, bne, hinternal, hid, hfield, htags,
      hsummary, filter_asTable_eq]

/-! ### The entries in production -/

theorem surviving_of_distinct_keys {b : Base} {stamp : Stamp} {corpus : List Extraction}
    {db : Compiled} (h : compile b stamp corpus = .ok db) (hkeys : (annotationKeys corpus).Nodup) :
    db.surviving = (releasedRecords corpus).map Record.released := by
  have hentries := forall₂_of_compileEntries (compile_eq_ok h).1
  rw [idIndex_of_distinct_keys hkeys, List.forall₂_map_left_iff] at hentries
  -- no key is taken twice, so the index is the corpus itself, less what has no id
  have hsurviving : db.surviving =
      ((corpusAnnotations corpus).filter fun p => p.1.record.id?.isSome).filterMap fun p =>
        if p.1.record.isReleased then some p.1.record.released else none := by
    symm
    apply filterMap_eq_filterMap_of_forall₂ _ hentries
    rintro ⟨a, path⟩ ⟨key, e⟩ ⟨hkey, hentry⟩
    rw [← stripped?_of_entry hentry]
    exact congrArg (fun k => e.stripped?.map (k, ·)) hkey
  rw [hsurviving, releasedRecords, List.filter_map, List.map_map, ← List.filterMap_eq_map,
    List.filterMap_filter, List.filterMap_filter]
  apply List.filterMap_congr
  intro p _
  cases hid : p.1.record.id? <;> simp [Record.isReleased, hid]

/-! ### The text -/

theorem release_eq_of_surviving {db db' : Compiled} (h : db.surviving = db'.surviving)
    (hversion : db.build.version = db'.build.version) : db.release = db'.release := by
  simp only [Database.release, h, hversion]

theorem version_of_compile {b : Base} {stamp : Stamp} {corpus : List Extraction} {db : Compiled}
    (h : compile b stamp corpus = .ok db) : db.build.version = stamp.version := by
  obtain ⟨_, _, rfl⟩ := exists_entries_of_compile h
  rfl

/-- Two corpora without repeated keys that are compiled with the same version, from whatever roots
and at whatever times, have the same production text if their released records agree one by one.
Records that are internal or have no id, and files, lines, origins and entities of all records, may
differ. -/
theorem release_text_eq_of_agree {b b' : Base} {stamp stamp' : Stamp}
    {corpus corpus' : List Extraction} {db db' : Compiled}
    (h : compile b stamp corpus = .ok db) (h' : compile b' stamp' corpus' = .ok db')
    (hversion : stamp.version = stamp'.version)
    (hkeys : (annotationKeys corpus).Nodup) (hkeys' : (annotationKeys corpus').Nodup)
    (hagree : List.Forall₂ Record.AgreesWith (releasedRecords corpus) (releasedRecords corpus')) :
    compactText db.release.toJson = compactText db'.release.toJson := by
  have hsurviving : db.surviving = db'.surviving := by
    rw [surviving_of_distinct_keys h hkeys, surviving_of_distinct_keys h' hkeys']
    exact map_eq_map_of_forall₂ (fun _ _ hrs => hrs.released_eq) hagree
  have hversions : db.build.version = db'.build.version := by
    rw [version_of_compile h, version_of_compile h', hversion]
  rw [release_eq_of_surviving hsurviving hversions]

/-- Two records that are released. -/
def openCorpus : List Extraction :=
  [⟨"src/a.ts", [
      ⟨{ id := "a", desc := "Runs", deps := some (.flat ["b", "hidden"]), ai := some (.text "hint"),
         phase := some 2 }, .comment, 1, "", none⟩,
      ⟨{ id := "b", tags := some ["ui"], status := some .beta }, .comment, 9, "", some "run"⟩],
    []⟩]

/-- The same two in other words and other places, with one that is internal and one without an id
between them. -/
def paddedCorpus : List Extraction :=
  [⟨"lib/x.ts", [
      ⟨{ desc := "No id" }, .comment, 3, "", some "x"⟩,
      ⟨{ id := "a", desc := "Runs", tags := some [],
         deps := some (.classified { runtime := ["b", "hidden"] }),
         ai := some (.parts { summary := "hint", usage := "once" }),
         visibility := some .published, phase := some 2 }, .embedded, 7, "", some "start"⟩,
      ⟨{ id := "hidden", tags := some ["secret"], deps := some (.flat ["a", "b"]),
         visibility := some .internal }, .comment, 8, "", none⟩], []⟩,
   ⟨"b.ts", [⟨{ id := "b", tags := some ["ui"], status := some .beta }, .comment, 2, "", none⟩],
    []⟩]

theorem release_text_eq_of_agree_padded :
    ∃ db db', compile ⟨[], none⟩ ⟨"1", "now"⟩ openCorpus = .ok db ∧
      compile ⟨["home"], some "lib"⟩ ⟨"1", "later"⟩ paddedCorpus = .ok db' ∧
      db.ids = ["a", "b"] ∧ db'.ids = ["a", "hidden", "b"] ∧
      compactText db.release.toJson = compactText db'.release.toJson := by
  obtain ⟨db, h⟩ : ∃ db, compile ⟨[], none⟩ ⟨"1", "now"⟩ openCorpus = .ok db :=
    exists_compile _ (.inl rfl)
  obtain ⟨db', h'⟩ : ∃ db, compile ⟨["home"], some "lib"⟩ ⟨"1", "later"⟩ paddedCorpus = .ok db :=
    exists_compile _ (.inr (by decide +kernel))
  have hids : db.ids = ["a", "b"] := by
    rw [ids_of_compile h, keys_of_compileEntries (compile_eq_ok h).1]
    decide +kernel
  have hids' : db'.ids = ["a", "hidden", "b"] := by
    rw [ids_of_compile h', keys_of_compileEntries (compile_eq_ok h').1]
    decide +kernel
  have hagree : List.Forall₂ Record.AgreesWith (releasedRecords openCorpus)
      (releasedRecords paddedCorpus) := by
    constructor
    · exact ⟨rfl, rfl, rfl, rfl, by intro c; cases c <;> rfl, rfl, rfl, rfl, rfl⟩
    constructor
    · exact ⟨rfl, rfl, rfl, rfl, by intro c; cases c <;> rfl, rfl, rfl, rfl, rfl⟩
    constructor
  exact ⟨db, db', h, h', hids, hids', release_text_eq_of_agree h h' rfl (by decide +kernel)
    (by decide +kernel) hagree⟩

end Marginalia
