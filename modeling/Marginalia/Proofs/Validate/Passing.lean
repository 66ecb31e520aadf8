/-
  Marginalia/Proofs/Validate/Passing.lean
  =======================================
  **What a validation that passes says about the database.**  With all rules on and
  none that only warns, passing means that no rule found an error.  Then every
  annotation has an id and a description, neither of them empty: the rule on
  required fields sees that they are given, the schema that they are not empty.  No
  two ids are the same, so every annotation has an entry of its own, in the order
  of the corpus (`forall₂_entries_of_hasDistinctIds`).  No rule found a cycle, so
  the database has none; and a target without an entry is one that the rules let
  pass because it looks like a path (`isPathLike_of_mem_orphaned`).
-/
import Marginalia.Proofs.Validate.Agreement
import Marginalia.Proofs.Validate.Selection

namespace Marginalia.Validate

variable {o : Options} {corpus : List Extraction}

/-! ### Issues of a validation that passes -/

/-- An enabled rule that does not only warn leaves nothing but warnings. -/
theorem severity_of_passes (h : (check o corpus).passes = true) {r : Rule}
    (hrule : o.rules.contains r.name) {i : Issue} (hi : i ∈ runRule o corpus r)
    (hwarn : o.warnOnly.contains i.rule.name = false) : i.severity = .warning := by
  have hfound : i ∈ allIssues o.requiredFields o.bySegment corpus := by
    rw [← flatMap_runRule]
    exact List.mem_flatMap.mpr ⟨r, by cases r <;> decide, hi⟩
  rw [Result.passes, List.isEmpty_iff, errors_check, List.filter_eq_nil_iff] at h
  have hno := h i hfound
  rw [rule_of_mem_runRule hi] at hno hwarn
  cases hs : i.severity with
  | error => exact absurd (by simp only [hrule, hwarn, hs]; rfl) hno
  | warning => rfl

/-- All rules but those on targets and on visibility find errors only. -/
theorem severity_of_mem_runRule {r : Rule} (hdeps : r ≠ .depsExist) (hvis : r ≠ .visibility)
    {i : Issue} (hi : i ∈ runRule o corpus r) : i.severity = .error := by
  cases r with
  | uniqueIds =>
    obtain ⟨x, message, rfl⟩ := exists_of_mem_uniqueIdsFrom hi
    rfl
  | depsExist => exact absurd rfl hdeps
  | noCycles =>
    obtain ⟨c, _, rfl⟩ := List.mem_map.mp hi
    rfl
  | requiredFields =>
    obtain ⟨x, _, hi⟩ := List.mem_flatMap.mp hi
    obtain ⟨a, _, hi⟩ := List.mem_flatMap.mp hi
    obtain ⟨name, _, rfl⟩ := List.mem_map.mp hi
    rfl
  | visibility => exact absurd rfl hvis
  | schema =>
    obtain ⟨x, _, hi⟩ := List.mem_flatMap.mp hi
    obtain ⟨a, _, hi⟩ := List.mem_flatMap.mp hi
    obtain ⟨message, _, rfl⟩ := List.mem_map.mp hi
    rfl

/-- The rules that find errors only have found nothing. -/
theorem runRule_eq_nil_of_passes (h : (check {} corpus).passes = true) {r : Rule}
    (hdeps : r ≠ .depsExist) (hvis : r ≠ .visibility) : runRule {} corpus r = [] := by
  apply List.eq_nil_iff_forall_not_mem.mpr
  intro i hi
  have hrule : ({} : Options).rules.contains r.name := by cases r <;> decide
  have hwarning := severity_of_passes h hrule hi rfl
  have herror := severity_of_mem_runRule hdeps hvis hi
  simp [hwarning] at herror

/-! ### What the single rules exclude -/

theorem nodup_of_duplicateIdIssues {annotations : List Indexed}
    (h : duplicateIdIssues annotations = []) : (annotations.map (·.id)).Nodup := by
  have hfrom : ∀ (xs : List Indexed) (seen : Table String Indexed), uniqueIdsFrom seen xs = [] →
      (xs.map (·.id)).Nodup ∧ ∀ x ∈ xs, x.id ∉ Table.keys seen := by
    intro xs
    induction xs with
    | nil => intro seen _; simp
    | cons x xs ih =>
      intro seen h
      rw [uniqueIdsFrom] at h
      cases hget : Table.get? x.id seen with
      | some first => simp [hget] at h
      | none =>
        have hx : x.id ∉ Table.keys seen := Table.get?_eq_none_iff.mp hget
        simp only [hget, Table.set_of_not_mem hx] at h
        obtain ⟨hnodup, hnew⟩ := ih _ h
        have hnew' : ∀ y ∈ xs, y.id ∉ Table.keys seen ∧ y.id ≠ x.id := by
          intro y hy
          simpa [Table.keys] using hnew y hy
        constructor
        · rw [List.map_cons, List.nodup_cons]
          refine ⟨?_, hnodup⟩
          intro hmem
          obtain ⟨y, hy, heq⟩ := List.mem_map.mp hmem
          exact (hnew' y hy).2 heq
        · intro y hy
          rcases List.mem_cons.mp hy with rfl | hy
          · exact hx
          · exact (hnew' y hy).1
  exact (hfrom annotations [] h).1

theorem hasField_of_missingFieldIssues {required : List String}
    (h : missingFieldIssues required corpus = []) {x : Extraction} (hx : x ∈ corpus) {a : Note}
    (ha : a ∈ x.annotations) {name : String} (hname : name ∈ required) :
    hasField a.record name = true := by
  have hnote := List.flatMap_eq_nil_iff.mp (List.flatMap_eq_nil_iff.mp h x hx) a ha
  have hfilter := List.filter_eq_nil_iff.mp (List.map_eq_nil_iff.mp hnote) name hname
  simpa using hfilter

theorem check_of_checkFields {declared : List (String × Check)} {fields : List (String × Json)}
    (h : checkFields declared fields = []) {key : String} {check : Check}
    (hkey : (key, check) ∈ declared) {v : Json} (hv : Table.get? key fields = some v) :
    check v = [] := by
  have hdeclared := List.flatMap_eq_nil_iff.mp (List.append_eq_nil_iff.mp h).1 (key, check) hkey
  simpa [hv] using hdeclared

theorem minLength_le_of_checkText {rule : TextRule} {s : String}
    (h : checkText rule (.str s) = []) : rule.minLength ≤ s.length := by
  by_contra hlt
  have hshort : s.length < rule.minLength := Nat.lt_of_not_le hlt
  simp only [checkText, hshort, if_true] at h
  split at h <;> simp [violation] at h

/-! ### Annotations of a validation that passes -/

section

variable (h : (check {} corpus).passes = true) {x : Extraction} (hx : x ∈ corpus) {a : Note}
  (ha : a ∈ x.annotations)

include h hx ha

/-- A required text that the schema does not allow to be empty is given and not empty. -/
theorem exists_text_of_passes (key : String) (rule : TextRule) {text : Option String}
    (hkey : key ∈ ({} : Options).requiredFields) (hfield : hasField a.record key = text.isSome)
    (htext : a.record.toJson.get? key = text.map .str)
    (hdeclared : (key, nullable (checkText rule)) ∈ annotationFields)
    (hrule : 0 < rule.minLength) : ∃ s, text = some s ∧ s ≠ "" := by
  have hrequired : missingFieldIssues ({} : Options).requiredFields corpus = [] :=
    runRule_eq_nil_of_passes h (r := .requiredFields) (by decide) (by decide)
  have hschema : schemaIssues corpus = [] :=
    runRule_eq_nil_of_passes h (r := .schema) (by decide) (by decide)
  have hmessages : schemaMessages a.record = [] :=
    List.map_eq_nil_iff.mp
      (List.flatMap_eq_nil_iff.mp (List.flatMap_eq_nil_iff.mp hschema x hx) a ha)
  rw [hasField_of_missingFieldIssues hrequired hx ha hkey] at hfield
  obtain ⟨s, rfl⟩ := Option.isSome_iff_exists.mp hfield.symm
  have hlength : rule.minLength ≤ s.length :=
    minLength_le_of_checkText
      (check_of_checkFields (List.map_eq_nil_iff.mp hmessages) hdeclared htext)
  refine ⟨s, rfl, ?_⟩
  rintro rfl
  simp at hlength
  omega

theorem exists_id_of_passes : ∃ id, a.record.id = some id ∧ id ≠ "" :=
  exists_text_of_passes h hx ha "id" ⟨128, 1, some (idForm, isIdText)⟩ (by decide) rfl
    ((Table.get?_filterMap_some (by simp [Table.keys]) "id").trans rfl)
    (by simp [annotationFields]) (by decide)

theorem exists_desc_of_passes : ∃ desc, a.record.desc = some desc ∧ desc ≠ "" :=
  exists_text_of_passes h hx ha "desc" ⟨1000, 1, none⟩ (by decide) rfl
    ((Table.get?_filterMap_some (by simp [Table.keys]) "desc").trans rfl)
    (by simp [annotationFields]) (by decide)

end

theorem hasDistinctIds_of_passes (h : (check {} corpus).passes = true) :
    HasDistinctIds corpus where
  given x hx a ha := by
    obtain ⟨id, hid, hne⟩ := exists_id_of_passes h hx ha
    simp [Record.id?, hid, hne]
  distinct :=
    nodup_of_duplicateIdIssues
      (runRule_eq_nil_of_passes h (r := .uniqueIds) (by decide) (by decide))

/-! ### The database of a validation that passes -/

/-- With distinct ids every annotation has an entry of its own, in the order of the corpus. -/
theorem forall₂_entries_of_hasDistinctIds {b : Base} {stamp : Stamp} {db : Compiled}
    (h : compile b stamp corpus = .ok db) (hids : HasDistinctIds corpus) :
    List.Forall₂ (fun p q => p.1.record.id = some q.1 ∧ p.1.entry b p.2 = .ok q.2)
      (corpusAnnotations corpus) db.entries := by
  have hpairs := forall₂_of_compileEntries (compile_eq_ok h).1
  rw [idIndex_of_hasDistinctIds hids, ← map_key_eq_map_indexed hids,
    List.forall₂_map_left_iff] at hpairs
  apply hpairs.imp
  rintro ⟨a, path⟩ ⟨key, e⟩ ⟨hkey, hentry⟩
  have hid : a.record.id? = some e.id := (Note.entry_eq_ok hentry).1
  obtain rfl : e.id = key := (Note.key_of_id? hid path).symm.trans hkey
  exact ⟨(Option.filter_eq_some_iff.mp hid).1, hentry⟩

theorem isPathLike_of_mem_orphaned {b : Base} {stamp : Stamp} {db : Compiled}
    (h : compile b stamp corpus = .ok db) (hpasses : (check {} corpus).passes = true) {t : String}
    (ht : t ∈ db.stats.orphaned) : isPathLike t = true := by
  have hids := hasDistinctIds_of_passes hpasses
  rw [orphaned_of_compile h, List.mem_eraseDups, List.mem_filter,
    declared_of_hasDistinctIds h hids, List.flatMap_map] at ht
  obtain ⟨hdeclared, hunknown⟩ := ht
  obtain ⟨x, hx, htarget⟩ := List.mem_flatMap.mp hdeclared
  have hno : ((indexed corpus).map (·.id)).contains t = false := by
    rw [← keys_entries_of_hasDistinctIds h hids, ← Bool.not_eq_true, List.contains_iff_mem,
      ← Table.has_iff]
    simpa using hunknown
  by_contra hpath
  -- a target that is no path and no id is an error
  have hnone : resolve true ((indexed corpus).map (·.id)) t = none := by
    rw [resolve, hno]
    simp [hpath]
  have hissue : x.issue .depsExist .error
      ("Dependency \"" ++ t ++ "\" declared in " ++ x.id ++ " does not match any known @mm:id.") ∈
      runRule {} corpus .depsExist := by
    refine List.mem_flatMap.mpr ⟨x, hx, List.mem_map.mpr ⟨t, List.mem_filter.mpr ⟨htarget, ?_⟩, ?_⟩⟩
    · rw [hnone]
      rfl
    · rw [if_neg hpath]
  exact absurd (severity_of_passes hpasses (by decide) hissue rfl) (by simp [Indexed.issue])

/-- The message about a target without an entry. -/
def orphanWarning (t : String) : String :=
  "Dependency \"" ++ t ++ "\" is referenced but has no @mm:id annotation."

theorem warnings_of_passes {b : Base} {stamp : Stamp} {db : Compiled}
    (h : compile b stamp corpus = .ok db) (hpasses : (check {} corpus).passes = true) :
    db.integrity.warnings = db.stats.orphaned.map orphanWarning := by
  have hdescribed : ((Table.values db.entries).filter fun e => !e.desc.any Label.isGiven) = [] := by
    apply List.filter_eq_nil_iff.mpr
    intro e he
    obtain ⟨⟨id, e'⟩, hmem, rfl⟩ := List.mem_map.mp he
    obtain ⟨a, path, hnote, _, hentry⟩ := exists_note_of_mem_entries (compile_eq_ok h).1 hmem
    obtain ⟨x, hx, hnote⟩ := List.mem_flatMap.mp hnote
    obtain ⟨a', ha, heq⟩ := List.mem_map.mp hnote
    obtain ⟨rfl, rfl⟩ := Prod.mk.inj heq
    obtain ⟨desc, hdesc, hne⟩ := exists_desc_of_passes hpasses hx ha
    have hentryDesc : e'.desc = some desc := by rw [(Note.entry_eq_ok hentry).2.2, hdesc]
    simp [hentryDesc, hne]
  have hwarnings : db.integrity.warnings = db.stats.orphaned.map orphanWarning ++
      ((Table.values db.entries).filter fun e => !e.desc.any Label.isGiven).map fun e =>
        "Entry \"" ++ e.id ++ "\" is missing @mm:desc (" ++ e.filePath ++ ":"
          ++ Text.showInt e.line ++ ")" := rfl
  rw [hwarnings, hdescribed, List.map_nil, List.append_nil]

/-- A corpus that passes validation with the default options compiles.  Every annotation has an
entry of its own, in the order of the corpus.  There is no cycle, so the database is sound; the
targets without an entry look like paths, and the warnings are one for each of them. -/
theorem compile_of_passes (cwd : List String) (stamp : Stamp) (corpus : List Extraction)
    (hpasses : (check {} corpus).passes = true) :
    ∃ db, compile ⟨cwd, none⟩ stamp corpus = .ok db ∧
      db.ids.map some = (corpusAnnotations corpus).map (·.1.record.id) ∧
      List.Forall₂ (fun p q => p.1.record.id = some q.1 ∧ p.1.entry ⟨cwd, none⟩ p.2 = .ok q.2)
        (corpusAnnotations corpus) db.entries ∧
      db.runtimeCycles = [] ∧ db.integrity.isSound = true ∧
      (∀ t ∈ db.stats.orphaned, '/' ∈ t.toList) ∧
      db.integrity.warnings = db.stats.orphaned.map orphanWarning := by
  have hids := hasDistinctIds_of_passes hpasses
  obtain ⟨db, h⟩ : ∃ db, compile ⟨cwd, none⟩ stamp corpus = .ok db := exists_compile stamp (.inl rfl)
  have hentries := forall₂_entries_of_hasDistinctIds h hids
  have hcycles : db.runtimeCycles = [] := by
    rw [← cyclesOf_runtimeTargets_of_hasDistinctIds h hids]
    exact List.map_eq_nil_iff.mp
      (runRule_eq_nil_of_passes hpasses (r := .noCycles) (by decide) (by decide))
  refine ⟨db, h, ?_, hentries, hcycles, ?_, ?_, warnings_of_passes h hpasses⟩
  · rw [ids_of_compile h, Table.keys, List.map_map]
    exact (map_eq_map_of_forall₂ (fun _ _ hpq => hpq.1) hentries).symm
  · simp [Integrity.isSound, Database.integrity, hcycles]
  · intro t ht
    simpa [isPathLike] using isPathLike_of_mem_orphaned h hpasses ht

/-- A corpus that passes: a dependency is named by the last segment of a path, another one looks
like a path and names nothing. -/
def describedCorpus : List Extraction :=
  [{ path := "src/a.ts"
     annotations :=
       [{ record := { id := "a", desc := "A", deps := some (.flat ["lib/b", "ext/gone", "b"]) }
          origin := .comment, line := 1, raw := "" }] },
   { path := "b.ts"
     annotations :=
       [{ record := { id := "b", desc := "B", visibility := some .internal }
          origin := .embedded, line := 2, raw := "" }] }]

theorem compile_of_passes_described :
    (check {} describedCorpus).passes = true ∧
    ∃ db, compile ⟨[], none⟩ ⟨defaultVersion, ""⟩ describedCorpus = .ok db ∧ db.ids = ["a", "b"] ∧
      db.integrity.isSound = true ∧
      db.integrity.warnings = ["lib/b", "ext/gone"].map orphanWarning := by
  have hpasses : (check {} describedCorpus).passes = true := by decide +kernel
  obtain ⟨db, h, hids, _, _, hsound, _, hwarnings⟩ :=
    compile_of_passes [] ⟨defaultVersion, ""⟩ describedCorpus hpasses
  refine ⟨hpasses, db, h, ?_, hsound, ?_⟩
  · exact List.map_injective_iff.mpr (fun _ _ => Option.some.inj) (hids.trans (by decide +kernel))
  · rw [hwarnings, ← flaggedTargets_of_hasDistinctIds h (hasDistinctIds_of_passes hpasses),
      map_flaggedTarget_unknownTargetIssues]
    decide +kernel

end Marginalia.Validate
