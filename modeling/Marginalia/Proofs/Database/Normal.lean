/-
  Marginalia/Proofs/Database/Normal.lean
  ======================================
  **Reading gives the normal form.**  A document may hold numbers as strings, a
  string in place of a list, null in place of a label or several spellings of one
  phase.  Whatever it holds, the database that is read from it has no label that is
  null, counts by texts, and has phases that are distinct and can be written and
  read again (`Database.isNormal_of_ofJson`).  So a document that is read, written
  and read again gives the same database (`Database.ofJson_toJson_of_ofJson`).

  Counts are the one part that can be read from a list of pairs, with labels that
  are no texts.  Such labels do not survive as keys of an object, hence the
  condition that counts stand in objects (`Database.CountsInObjects`).
-/
import Marginalia.Proofs.Database.Compile
import Marginalia.Proofs.Database.Document

namespace Marginalia

open Marginalia.Json

/-! ### Labels that are null -/

theorem bind_present_ne_null (v : Option Json) : v.bind Json.present ≠ some .null := by
  intro h
  obtain ⟨w, _, hw⟩ := Option.bind_eq_some_iff.mp h
  cases w <;> simp [Json.present] at hw

theorem Hint.isNormal_of_ofJson? {v : Json} {hint : Hint Json} (h : Hint.ofJson? v = some hint) :
    hint.IsNormal := by
  cases v with
  | str s =>
    obtain rfl := Option.some.inj h
    trivial
  | obj fields =>
    obtain rfl := Option.some.inj h
    constructor
    · exact bind_present_ne_null _
    · exact bind_present_ne_null _
  | _ => cases h

theorem Entry.isNormal_of_ofJson {v : Json} {e : Entry Json} (h : Entry.ofJson v = .ok e) :
    e.IsNormal := by
  simp only [Entry.ofJson_eq, bind_eq_ok, Except.ok.injEq] at h
  obtain ⟨fields, _, id, _, filePath, _, _, _, line, _, _, _, origin, _, tags, _, deps, _,
    visibility, _, phase, _, status, _, rfl⟩ := h
  refine ⟨bind_present_ne_null _, bind_present_ne_null _, bind_present_ne_null _,
    bind_present_ne_null _, ?_⟩
  intro hint hai
  obtain ⟨value, _, hvalue⟩ := Option.bind_eq_some_iff.mp hai
  exact Hint.isNormal_of_ofJson? hvalue

/-! ### Counts -/

/-- The members of the statistics that count by label. -/
def countMembers : List String := ["byStatus", "byVisibility", "byTag"]

theorem textKeys_of_toTable {counts : Option Json} (hcounts : ∀ v, counts = some v → v.IsObject)
    {t : Table Json Json} (h : toTable (counts.getD (.obj [])) = .ok t) : TextKeys t := by
  obtain ⟨fields, hfields⟩ : (counts.getD (.obj [])).IsObject := by
    cases counts with
    | none => exact ⟨[], rfl⟩
    | some v => exact hcounts v rfl
  rw [hfields] at h
  obtain rfl := Except.ok.inj h
  intro p hp
  obtain ⟨⟨k, v⟩, _, rfl⟩ := List.mem_map.mp hp
  exact ⟨k, rfl⟩

theorem isShort_of_toInt_str {s : String} {n : Int} (h : toInt (.str s) = .ok n) :
    Text.IsShort n := by
  rw [toInt] at h
  cases hread : Text.readInt s.toList with
  | error fault => simp [hread, Except.mapError] at h
  | ok m =>
    rw [hread] at h
    obtain rfl := Except.ok.inj h
    exact Text.isShort_of_readInt hread

theorem isShort_of_mem_phases {fields : List (String × Json)} {phases : List (Int × Json)}
    (h : fields.mapM (fun p => (toInt (.str p.1)).map (·, p.2)) = .ok phases) {p : Int × Json}
    (hp : p ∈ phases) : Text.IsShort p.1 := by
  obtain ⟨q, _, hq⟩ := exists_mem_of_forall₂ (forall₂_of_mapM_eq_ok h) hp
  obtain ⟨n, hn, rfl⟩ := map_eq_ok.mp hq
  exact isShort_of_toInt_str hn

theorem Stats.isNormal_of_ofJson {v : Json} {s : Stats Json Json}
    (hcounts : ∀ key ∈ countMembers, ∀ counts, v.get? key = some counts → counts.IsObject)
    (h : Stats.ofJson v = .ok s) : s.IsNormal := by
  simp only [Stats.ofJson, bind_eq_ok, Except.ok.injEq] at h
  obtain ⟨fields, hfields, total, _, byStatus, hstatus, byVisibility, hvisibility, keys, _, phases,
    hphases, byTag, htag, _, _, top, _, orphaned, _, rfl⟩ := h
  obtain rfl := eq_obj_of_members hfields
  -- keys that stand for one number become one phase, so the phases are distinct
  refine ⟨textKeys_of_toTable (hcounts _ (by decide)) hstatus,
    textKeys_of_toTable (hcounts _ (by decide)) hvisibility,
    textKeys_of_toTable (hcounts _ (by decide)) htag, Table.nodup_keys_ofPairs phases, ?_⟩
  intro p hp
  exact isShort_of_mem_phases hphases (Table.mem_of_mem_ofPairs hp)

/-! ### The database -/

/-- What a document counts by label stands in objects, or is missing. -/
def Database.CountsInObjects (document : Json) : Prop :=
  ∀ stats, document.get? "stats" = some stats → ∀ key ∈ countMembers,
    ∀ counts, stats.get? key = some counts → counts.IsObject

theorem Database.isNormal_of_ofJson {document : Json} {db : Stored}
    (hcounts : CountsInObjects document) (h : Database.ofJson document = .ok db) :
    db.IsNormal := by
  simp only [Database.ofJson, bind_eq_ok, Except.ok.injEq] at h
  obtain ⟨_, _, _, _, fields, _, entries, hentries, _, _, ids, _, _, _, graph, _, value, hvalue,
    stats, hstats, build, _, rfl⟩ := h
  constructor
  · intro p hp
    obtain ⟨q, _, hq⟩ := exists_mem_of_forall₂ (forall₂_of_mapM_eq_ok hentries) hp
    obtain ⟨e, he, rfl⟩ := map_eq_ok.mp hq
    exact Entry.isNormal_of_ofJson he
  · exact Stats.isNormal_of_ofJson (hcounts value (get?_of_required hvalue)) hstats

/-- A database that is read from a document is read again, the same in every part and every order,
from the document that it is written as. -/
theorem Database.ofJson_toJson_of_ofJson {document : Json} {db : Stored}
    (hcounts : CountsInObjects document) (h : Database.ofJson document = .ok db) :
    Database.ofJson db.toJson = .ok db := by
  have hnormal : db.IsNormal := Database.isNormal_of_ofJson hcounts h
  exact Database.ofJson_toJson hnormal

/-- A document with a fraction, a truth value and texts in place of numbers, texts and objects in
place of lists, null and numbers in place of texts, and one phase in three spellings. -/
def looseDocument : Json := .obj [
  ("entries", .obj [("a", .obj [
    ("id", .null), ("filePath", .bool true),
    ("line", .float (.finite true 5629499534213120 (-51))), ("source", .str "jsdoc"),
    ("name", .null), ("desc", .arr []), ("tags", .str "ui"),
    ("deps", .obj [("runtime", .str "b"), ("later", .obj [("c", .null)])]),
    ("ai", .obj [("summary", .null), ("usage", .int 0), ("examples", .str "x")]),
    ("visibility", .str ""), ("phase", .str " 1_0 "), ("status", .int 0)])]),
  ("ids", .obj [("a", .null)]),
  ("graph", .obj [("nodes", .obj [("a", .obj [("runtimeDeps", .str "b")])]), ("edges", .str "")]),
  ("stats", .obj [
    ("totalAnnotations", .bool true), ("byTag", .obj [("ui", .null)]),
    ("byPhase", .obj [("1_0", .int 1), ("+10", .int 2), ("2", .null), (" 010", .int 3)])]),
  ("buildInfo", .obj [("version", .float .nan), ("sourceFiles", .str "-٣")])]

theorem Database.ofJson_toJson_of_ofJson_loose :
    CountsInObjects looseDocument ∧ ∃ db, Database.ofJson looseDocument = .ok db ∧
      Table.keys db.stats.byPhase = [10, 2] ∧ db.ids = [.str "a"] ∧
      (Table.values db.entries).map (·.line) = [-2] ∧ db.build.sourceFiles = -3 ∧
      Database.ofJson db.toJson = .ok db := by
  have hcounts : CountsInObjects looseDocument := by
    intro stats hstats key hkey counts hget
    obtain rfl := Option.some.inj hstats
    simp only [countMembers, List.mem_cons, List.not_mem_nil, or_false] at hkey
    rcases hkey with rfl | rfl | rfl
    · cases hget
    · cases hget
    · exact ⟨_, (Option.some.inj hget).symm⟩
  obtain ⟨db, h, hphases, hids, hline, hfiles⟩ : ∃ db, Database.ofJson looseDocument = .ok db ∧
      Table.keys db.stats.byPhase = [10, 2] ∧ db.ids = [.str "a"] ∧
      (Table.values db.entries).map (·.line) = [-2] ∧ db.build.sourceFiles = -3 :=
    ⟨_, rfl, rfl, rfl, rfl, rfl⟩
  exact ⟨hcounts, db, h, hphases, hids, hline, hfiles, Database.ofJson_toJson_of_ofJson hcounts h⟩

end Marginalia
