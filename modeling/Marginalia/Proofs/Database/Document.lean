/-
  Marginalia/Proofs/Database/Document.lean
  ========================================
  **Documents give back their databases.**  Every part of a database is read back
  from the value that it is written as, with all its tables and lists in their
  order (`Database.ofJson_toJson`).  Reading takes some parts in more than one
  form; a database that holds them in the form that reading gives is normal
  (`Database.IsNormal`).
-/
import Marginalia.Database.Document
import Marginalia.Proofs.Except
import Marginalia.Proofs.Table
import Marginalia.Proofs.Text.Decimal

namespace Marginalia

open Marginalia.Json

/-! ### The form that reading gives -/

/-- No part is null. -/
def Hint.IsNormal : Hint Json → Prop
  | .text _ => True
  | .parts p => p.summary ≠ some .null ∧ p.usage ≠ some .null

/-- No label is null. -/
structure Entry.IsNormal (e : Entry Json) : Prop where
  name : e.name ≠ some .null
  desc : e.desc ≠ some .null
  version : e.version ≠ some .null
  entity : e.entity ≠ some .null
  ai : ∀ hint, e.ai = some hint → hint.IsNormal

/-- What is counted is a text. -/
def TextKeys (counts : Table Json Json) : Prop := ∀ p ∈ counts, ∃ s, p.1 = .str s

/-- Counts are by texts, and by phases that are distinct and can be read as numbers. -/
structure Stats.IsNormal (s : Stats Json Json) : Prop where
  byStatus : TextKeys s.byStatus
  byVisibility : TextKeys s.byVisibility
  byTag : TextKeys s.byTag
  phases : (Table.keys s.byPhase).Nodup
  digits : ∀ p ∈ s.byPhase, Text.IsShort p.1

/-- The entries and the statistics have the form that reading gives. -/
structure Database.IsNormal (db : Stored) : Prop where
  entries : ∀ p ∈ db.entries, p.2.IsNormal
  stats : db.stats.IsNormal

/-! ### Taking values apart -/

namespace Json

/-- The value has members. -/
def IsObject (v : Json) : Prop := ∃ fields, v = .obj fields

theorem eq_obj_of_members {v : Json} {fields : List (String × Json)} (h : members v = .ok fields) :
    v = .obj fields := by
  cases v with
  | obj fields' => rw [Except.ok.inj h]
  | _ => cases h

theorem get?_of_required {key : String} {v x : Json} (h : required key v = .ok x) :
    v.get? key = some x := by
  cases v with
  | obj fields =>
    rw [required] at h
    cases hget : Table.get? key fields with
    | none => simp [hget] at h
    | some y =>
      simp only [hget, Except.ok.injEq] at h
      rw [get?, hget, h]
  | _ => cases h

end Json

/-! ### Lists and tables -/

theorem get?_objOf {fields : List (String × Option Json)} (h : (Table.keys fields).Nodup)
    (key : String) :
    Table.get? key (fields.filterMap fun (k, v) => v.map (k, ·)) = (Table.get? key fields).join :=
  Table.get?_filterMap_some h key

theorem bind_present {v : Option Json} (h : v ≠ some .null) : v.bind Json.present = v := by
  cases v with
  | none => rfl
  | some v =>
    cases v with
    | null => exact absurd rfl h
    | _ => rfl

theorem toTable_countsJson {counts : Table Json Json} (h : TextKeys counts) :
    toTable (countsJson counts) = .ok counts := by
  have hkeys : ∀ p ∈ counts, (Json.str (Label.keyText p.1), p.2) = p := by
    rintro ⟨x, n⟩ hp
    obtain ⟨s, rfl⟩ := h _ hp
    rfl
  rw [countsJson, toTable, List.map_map]
  exact congrArg _ ((List.map_congr_left hkeys).trans (List.map_id _))

/-! ### Hints and entries -/

theorem Hint.ofJson?_toJson {hint : Hint Json} (h : hint.IsNormal) :
    Hint.ofJson? hint.toJson = some hint := by
  cases hint with
  | text s => rfl
  | parts p =>
    obtain ⟨summary, usage, examples⟩ := p
    obtain ⟨hsummary, husage⟩ : summary ≠ some .null ∧ usage ≠ some .null := h
    have hkeys : (Table.keys [("summary", summary), ("usage", usage),
        ("examples", examples.map Json.arr)]).Nodup := by simp [Table.keys]
    simp only [Hint.toJson, Json.objOf, Hint.ofJson?, get?_objOf hkeys]
    cases examples <;> simp [Table.get?, bind_present hsummary, bind_present husage]

/-- The members of the value of an entry, those that are not set included. -/
def Entry.parts (e : Entry Json) : List (String × Option Json) := [
  ("id", some (.str e.id)),
  ("name", e.name),
  ("desc", e.desc),
  ("tags", e.tags.map .arr),
  ("deps", if e.deps.isEmpty then none else some (.obj (Table.mapValues Json.arr e.deps))),
  ("ai", e.ai.map Hint.toJson),
  ("visibility", e.visibility.map fun v => .str v.name),
  ("version", e.version),
  ("phase", e.phase.map .int),
  ("status", e.status.map fun s => .str s.name),
  ("filePath", some (.str e.filePath)),
  ("line", some (.int e.line)),
  ("source", some (.str e.origin.name)),
  ("entityName", e.entity)]

theorem Entry.nodup_keys_parts (e : Entry Json) : (Table.keys e.parts).Nodup := by
  simp [Table.keys, Entry.parts]

theorem toChoice_name {α : Type} {ofName? : String → Option α} {name : α → String}
    (h : ∀ x, ofName? (name x) = some x) (kind : String) (x : α) :
    toChoice kind ofName? (.str (name x)) = .ok x := by
  simp [toChoice, h]

theorem readOption_map {α : Type} {read : Json → Shaped α} {write : α → Json}
    (h : ∀ a, read (write a) = .ok a) (x : Option α) : readOption read (x.map write) = .ok x := by
  cases x with
  | none => rfl
  | some a => simp [readOption, h a, Except.map]

/-- A choice that is set counts as given, since no name is empty. -/
theorem filter_isGiven_name {α : Type} {name : α → String} (h : ∀ x, name x ≠ "") (x : Option α) :
    (x.map fun a => Json.str (name a)).filter Json.isGiven = x.map fun a => .str (name a) := by
  cases x with
  | none => rfl
  | some a => simp [Json.isGiven, h a]

/-- The targets of the entry with these members. -/
def readDeps (fields : List (String × Json)) : Shaped (Table String (List Json)) :=
  match givenMember "deps" fields with
  | none => .ok []
  | some d => do (← members d).mapM fun (k, l) => (elements l).map (k, ·)

theorem Entry.ofJson_eq (v : Json) : Entry.ofJson v = (do
    let fields ← members v
    let id ← required "id" v
    let filePath ← required "filePath" v
    let line ← toInt (← required "line" v)
    let origin ← toChoice "Origin" Origin.ofName? (← required "source" v)
    let tags ← readOption elements (presentMember "tags" fields)
    let deps ← readDeps fields
    let visibility ←
      readOption (toChoice "Visibility" Visibility.ofName?) (givenMember "visibility" fields)
    let phase ← readOption toInt (presentMember "phase" fields)
    let status ← readOption (toChoice "Status" Status.ofName?) (givenMember "status" fields)
    .ok {
      id := id.asText, filePath := filePath.asText, line, origin
      name := presentMember "name" fields, desc := presentMember "desc" fields, tags, deps
      ai := (Table.get? "ai" fields).bind Hint.ofJson?, visibility
      version := presentMember "version" fields, phase, status
      entity := presentMember "entityName" fields }) := by
  cases v with
  | obj fields =>
    have hmembers : members (.obj fields) = .ok fields := rfl
    simp only [Entry.ofJson, readDeps, hmembers, ok_bind]
    cases givenMember "deps" fields with
    | none => rfl
    | some d => simp only [bind_assoc]
  | _ => rfl

/-- The table of targets is read back, also when it is left out for being empty. -/
theorem readDeps_of_get? {fields : List (String × Json)} {deps : Table String (List Json)}
    (h : Table.get? "deps" fields =
      if deps.isEmpty then none else some (.obj (Table.mapValues Json.arr deps))) :
    readDeps fields = .ok deps := by
  rw [readDeps, givenMember, h]
  cases deps with
  | nil => rfl
  | cons p deps => exact mapM_map_of_forall fun q _ => rfl

theorem Entry.ofJson_toJson {e : Entry Json} (h : e.IsNormal) : Entry.ofJson e.toJson = .ok e := by
  obtain ⟨fields, hfields, hget⟩ : ∃ fields, e.toJson = .obj fields ∧
      ∀ key, Table.get? key fields = (Table.get? key e.parts).join :=
    ⟨_, rfl, get?_objOf e.nodup_keys_parts⟩
  have hmust : ∀ {key v}, (Table.get? key e.parts).join = some v →
      required key (.obj fields) = .ok v := by
    intro key v hv
    simp [required, hget, hv]
  have hpresent : ∀ {key v}, (Table.get? key e.parts).join = v → v ≠ some .null →
      presentMember key fields = v := by
    intro key v hv hnull
    rw [presentMember, hget, hv, bind_present hnull]
  have hid : required "id" (.obj fields) = .ok (.str e.id) := hmust rfl
  have hpath : required "filePath" (.obj fields) = .ok (.str e.filePath) := hmust rfl
  have hline : required "line" (.obj fields) = .ok (.int e.line) := hmust rfl
  have horigin : required "source" (.obj fields) = .ok (.str e.origin.name) := hmust rfl
  have htags : presentMember "tags" fields = e.tags.map .arr :=
    hpresent rfl (by cases e.tags <;> simp)
  have hphase : presentMember "phase" fields = e.phase.map .int :=
    hpresent rfl (by cases e.phase <;> simp)
  have hname : presentMember "name" fields = e.name := hpresent rfl h.name
  have hdesc : presentMember "desc" fields = e.desc := hpresent rfl h.desc
  have hversion : presentMember "version" fields = e.version := hpresent rfl h.version
  have hentity : presentMember "entityName" fields = e.entity := hpresent rfl h.entity
  have hvisibility : givenMember "visibility" fields = e.visibility.map fun v => .str v.name := by
    rw [givenMember, hget]
    exact filter_isGiven_name (by intro v; cases v <;> decide) e.visibility
  have hstatus : givenMember "status" fields = e.status.map fun s => .str s.name := by
    rw [givenMember, hget]
    exact filter_isGiven_name (by intro s; cases s <;> decide) e.status
  have hdeps : readDeps fields = .ok e.deps := readDeps_of_get? (hget "deps")
  have hai : (Table.get? "ai" fields).bind Hint.ofJson? = e.ai := by
    have hpart : Table.get? "ai" fields = e.ai.map Hint.toJson := hget "ai"
    rw [hpart]
    cases hint : e.ai with
    | none => rfl
    | some x => exact Hint.ofJson?_toJson (h.ai x hint)
  simp only [hfields, Entry.ofJson_eq, members, hid, hpath, hline, horigin, htags, hdeps,
    hvisibility, hphase, hstatus, hname, hdesc, hversion, hentity, hai, toInt, asText,
    toChoice_name Origin.ofName?_name,
    readOption_map (fun _ => rfl : ∀ l, elements (.arr l) = .ok l),
    readOption_map (fun _ => rfl : ∀ n, toInt (.int n) = .ok n),
    readOption_map (toChoice_name Visibility.ofName?_name _),
    readOption_map (toChoice_name Status.ofName?_name _), ok_bind]

/-! ### The graph -/

theorem Node.ofJson_toJson (id : String) (n : Node Json) : Node.ofJson (n.toJson id) = .ok n := rfl

theorem Edge.ofJson_toJson (e : Edge Json) : Edge.ofJson e.toJson = .ok e := by
  have hkind := toChoice_name DepKind.ofName?_name "DepClass" e.kind
  simp [Edge.ofJson, Edge.toJson, required, Table.get?, hkind, ok_bind]

theorem DepGraph.ofJson_toJson (g : DepGraph Json) : DepGraph.ofJson g.toJson = .ok g := by
  have hnodes : (g.nodes.map fun p => (p.1, p.2.toJson p.1)).mapM
      (fun p => (Node.ofJson p.2).map (p.1, ·)) = .ok g.nodes :=
    mapM_map_of_forall fun p _ => rfl
  have hedges : (g.edges.map Edge.toJson).mapM Edge.ofJson = .ok g.edges :=
    mapM_map_of_forall fun e _ => e.ofJson_toJson
  simp [DepGraph.ofJson, DepGraph.toJson, members, readList, elements, Table.get?, hnodes, hedges,
    ok_bind, -List.mapM_map]

/-! ### Statistics -/

theorem toInt_showInt {n : Int} (h : Text.IsShort n) :
    toInt (.str (Text.showInt n)) = .ok n := by
  have htext : (Text.showInt n).toList = Text.decimalInt n := String.toList_ofList
  rw [toInt, htext, Text.readInt_decimalInt h]
  rfl

theorem Stats.ofJson_toJson {s : Stats Json Json} (h : s.IsNormal) :
    Stats.ofJson s.toJson = .ok s := by
  have hphases : (s.byPhase.map fun p => (Text.showInt p.1, p.2)).mapM
      (fun p => (toInt (.str p.1)).map (·, p.2)) = .ok s.byPhase := by
    apply mapM_map_of_forall
    intro p hp
    simp [toInt_showInt (h.digits p hp), Except.map]
  have htop : (s.top.map fun p => Json.obj [("id", p.1), ("dependentCount", .int p.2)]).mapM
      (fun item => do
        let id ← required "id" item
        let count ← toInt (← required "dependentCount" item)
        .ok (id, count)) = .ok s.top :=
    mapM_map_of_forall fun p _ => rfl
  have htotal : toInt (.int s.total) = .ok s.total := rfl
  simp [Stats.ofJson, Stats.toJson, members, readList, elements, Table.get?, ok_bind, htotal,
    toTable_countsJson h.byStatus, toTable_countsJson h.byVisibility, toTable_countsJson h.byTag,
    hphases, htop, Table.ofPairs_of_nodup h.phases, -List.mapM_map]

/-! ### The database -/

theorem Build.ofJson_toJson (b : Build) : Build.ofJson b.toJson = .ok b := rfl

/-- A normal database is read back from its document. -/
theorem Database.ofJson_toJson {db : Stored} (h : db.IsNormal) :
    Database.ofJson db.toJson = .ok db := by
  have hentries : (Table.mapValues Entry.toJson db.entries).mapM
      (fun p => (Entry.ofJson p.2).map (p.1, ·)) = .ok db.entries := by
    apply mapM_map_of_forall
    intro p hp
    simp [Entry.ofJson_toJson (h.entries p hp), Except.map]
  simp [Database.ofJson, Database.toJson, required, members, elements, Table.get?, hentries,
    DepGraph.ofJson_toJson, Stats.ofJson_toJson h.stats, Build.ofJson_toJson, ok_bind]

end Marginalia
