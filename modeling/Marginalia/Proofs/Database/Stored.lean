/-
  Marginalia/Proofs/Database/Stored.lean
  ======================================
  **Compiled databases as documents.**  No table of a compiled database has a key
  twice, and its numbers stay within the extent of the corpus.  So its document is
  exact, which means that it is read back from its text (`Database.isExact_toJson`),
  and the database is stored in the form that reading gives
  (`Database.isNormal_stored`).  No two databases are stored alike
  (`Database.stored_injective`).
-/
import Marginalia.Proofs.Database.Counts
import Marginalia.Proofs.Database.Document
import Marginalia.Proofs.Json.RoundTrip

namespace Marginalia

open Marginalia.Json

/-! ### Distinct keys -/

/-- No table of a database has a key twice. -/
structure Database.KeysDistinct (db : Compiled) : Prop where
  entries : (Table.keys db.entries).Nodup
  deps : ∀ p ∈ db.entries, (Table.keys p.2.deps).Nodup
  nodes : (Table.keys db.graph.nodes).Nodup
  byStatus : (Table.keys db.stats.byStatus).Nodup
  byVisibility : (Table.keys db.stats.byVisibility).Nodup
  byPhase : (Table.keys db.stats.byPhase).Nodup
  byTag : (Table.keys db.stats.byTag).Nodup

theorem Dependencies.nodup_keys_asTable (d : Dependencies) : (Table.keys d.asTable).Nodup := by
  have hall : (Table.keys (DepKind.all.map fun c => (c.name, d.ofKind c))).Nodup := by
    simp [Table.keys, DepKind.all, DepKind.name]
  exact (List.filter_sublist.map Prod.fst).nodup hall

theorem keysDistinct_of_compile {b : Base} {stamp : Stamp} {corpus : List Extraction}
    {db : Compiled} (h : compile b stamp corpus = .ok db) : db.KeysDistinct := by
  obtain ⟨entries, hentries, rfl⟩ := exists_entries_of_compile h
  have hkeys := nodup_keys_of_compileEntries hentries
  refine ⟨hkeys, ?_, ?_, nodup_keys_tallyAll _, nodup_keys_tallyAll _, nodup_keys_tallyAll _,
    nodup_keys_tallyAll _⟩
  · rintro ⟨id, e⟩ hp
    obtain ⟨a, path, _, _, hentry⟩ := exists_note_of_mem_entries hentries hp
    obtain ⟨_, _, heq⟩ := Note.entry_eq_ok hentry
    have hdeps : e.deps = (a.record.deps.map Dependencies.asTable).getD [] := by rw [heq]
    change (Table.keys e.deps).Nodup
    rw [hdeps]
    cases a.record.deps with
    | none => exact List.nodup_nil
    | some d => exact d.nodup_keys_asTable
  · rw [nodes_declaredGraph hkeys, Table.keys_tabulate]
    exact hkeys

/-! ### Exact values

The room that a value needs is counted from that of its innermost parts. -/

variable {room : Nat}

theorem isExact_texts (l : List String) : IsExact (room + 1) (.arr (l.map .str)) := by
  apply IsExact.arr
  intro v hv
  obtain ⟨s, _, rfl⟩ := List.mem_map.mp hv
  exact .str s

/-- A part that is not set, or has an exact value. -/
def SetExactly (room : Nat) (v : Option Json) : Prop := ∀ x, v = some x → IsExact room x

theorem setExactly_some {v : Json} (h : IsExact room v) : SetExactly room (some v) := by
  rintro _ ⟨⟩
  exact h

theorem setExactly_map {α : Type} {f : α → Json} {x : Option α}
    (h : ∀ a, x = some a → IsExact room (f a)) : SetExactly room (x.map f) := by
  intro v hv
  obtain ⟨a, ha, rfl⟩ := Option.map_eq_some_iff.mp hv
  exact h a ha

theorem isExact_objOf {fields : List (String × Option Json)} (hkeys : (Table.keys fields).Nodup)
    (h : ∀ p ∈ fields, SetExactly room p.2) : IsExact (room + 1) (Json.objOf fields) := by
  apply IsExact.obj ((Table.keys_filterMap_some_sublist fields).nodup hkeys)
  intro q hq
  obtain ⟨p, hp, hq⟩ := List.mem_filterMap.mp hq
  obtain ⟨v, hv, rfl⟩ := Option.map_eq_some_iff.mp hq
  exact h p hp v hv

theorem Hint.isExact_toJson (hint : Hint String) :
    IsExact (room + 2) (hint.map Json.str).toJson := by
  cases hint with
  | text s => exact .str s
  | parts p =>
    apply isExact_objOf (by simp [Table.keys])
    simp only [List.forall_mem_cons]
    refine ⟨setExactly_map fun s _ => .str s, setExactly_map fun s _ => .str s, ?_, by simp⟩
    rw [Option.map_map]
    exact setExactly_map fun l _ => isExact_texts l

theorem Entry.isExact_toJson {e : Entry String} (hdeps : (Table.keys e.deps).Nodup)
    (hline : Text.IsShort e.line) (hphase : ∀ n, e.phase = some n → Text.IsShort n) :
    IsExact (room + 3) (e.map Json.str).toJson := by
  have htext : ∀ x : Option String, SetExactly (room + 2) (x.map Json.str) := fun x =>
    setExactly_map fun s _ => .str s
  have hname : ∀ {α : Type} (name : α → String) (x : Option α),
      SetExactly (room + 2) (x.map fun a => .str (name a)) := fun name x =>
    setExactly_map fun a _ => .str (name a)
  have hdeps' : SetExactly (room + 2) (if (e.map Json.str).deps.isEmpty then none
      else some (.obj (Table.mapValues Json.arr (e.map Json.str).deps))) := by
    intro v hv
    obtain ⟨_, rfl⟩ : _ ∧ _ = v := by simpa using hv
    apply IsExact.obj
    · rwa [Table.keys_mapValues, Entry.map, Table.keys_mapValues]
    · intro p hp
      obtain ⟨q, hq, rfl⟩ := List.mem_map.mp hp
      obtain ⟨r, _, rfl⟩ := List.mem_map.mp hq
      exact isExact_texts r.2
  apply isExact_objOf (e.map Json.str).nodup_keys_parts
  simp only [Entry.parts, List.forall_mem_cons]
  refine ⟨setExactly_some (.str _), htext _, htext _, ?_, hdeps', ?_, hname _ _, htext _, ?_,
    hname _ _, setExactly_some (.str _), setExactly_some (.int hline), setExactly_some (.str _),
    htext _, by simp⟩
  · rw [Entry.map, Option.map_map]
    exact setExactly_map fun l _ => isExact_texts l
  · rw [Entry.map, Option.map_map]
    exact setExactly_map fun hint _ => hint.isExact_toJson
  · exact setExactly_map fun n hn => .int (hphase n hn)

theorem Node.isExact_toJson (id : String) (n : Node String) :
    IsExact (room + 2) ((n.map Json.str).toJson id) := by
  apply IsExact.obj (by simp [Table.keys])
  simp only [List.forall_mem_cons]
  exact ⟨.str id, isExact_texts _, isExact_texts _, isExact_texts _, isExact_texts _, by simp⟩

theorem Edge.isExact_toJson (e : Edge String) :
    IsExact (room + 1) (e.map Json.str).toJson := by
  apply IsExact.obj (by simp [Table.keys])
  simp only [List.forall_mem_cons]
  exact ⟨.str _, .str _, .str _, by simp⟩

theorem DepGraph.isExact_toJson {g : DepGraph String} (hkeys : (Table.keys g.nodes).Nodup) :
    IsExact (room + 4) (g.map Json.str).toJson := by
  apply IsExact.obj (by simp [Table.keys])
  simp only [List.forall_mem_cons]
  refine ⟨?_, ?_, by simp⟩
  · apply IsExact.obj
    · simpa [Table.keys, DepGraph.map, Table.mapValues, Function.comp_def] using hkeys
    · intro p hp
      obtain ⟨q, hq, rfl⟩ := List.mem_map.mp hp
      obtain ⟨⟨id, n⟩, _, rfl⟩ := List.mem_map.mp hq
      exact n.isExact_toJson id
  · apply IsExact.arr
    intro v hv
    obtain ⟨e, he, rfl⟩ := List.mem_map.mp hv
    obtain ⟨e, _, rfl⟩ := List.mem_map.mp he
    exact e.isExact_toJson

theorem isExact_countsJson {counts : Table String Nat} (hkeys : (Table.keys counts).Nodup)
    (h : ∀ p ∈ counts, Text.IsShort p.2) :
    IsExact (room + 1) (countsJson (counts.map fun (x, n) => (Json.str x, Json.nat n))) := by
  apply IsExact.obj
  · rw [Table.keys, List.map_map, List.map_map]
    exact hkeys
  · intro p hp
    obtain ⟨q, hq, rfl⟩ := List.mem_map.mp hp
    obtain ⟨r, hr, rfl⟩ := List.mem_map.mp hq
    exact .int (h r hr)

/-- Phases that are short have different texts, for they can be read back. -/
theorem nodup_map_showInt {phases : List Int} (hphases : phases.Nodup)
    (h : ∀ n ∈ phases, Text.IsShort n) : (phases.map Text.showInt).Nodup := by
  apply hphases.map_on
  intro m hm n hn heq
  have hread := toInt_showInt (h m hm)
  rw [heq, toInt_showInt (h n hn)] at hread
  exact (Except.ok.inj hread).symm

/-! ### The document of a database -/

/-- The numbers of a database are within the bound of what can be read, and so are its phases. -/
structure Database.IsShort (db : Compiled) : Prop where
  numbers : ∃ bound < 10 ^ Text.maxDigits, db.Within bound
  phase : ∀ p ∈ db.entries, ∀ n, p.2.phase = some n → Text.IsShort n
  byPhase : ∀ n ∈ Table.keys db.stats.byPhase, Text.IsShort n

theorem isShort_of_compile {b : Base} {stamp : Stamp} {corpus : List Extraction} {db : Compiled}
    (h : compile b stamp corpus = .ok db) (hextent : corpusExtent corpus < 10 ^ Text.maxDigits)
    (hphases : ∀ p ∈ corpusAnnotations corpus, ∀ n, p.1.record.phase = some n → Text.IsShort n) :
    db.IsShort := by
  have hwithin := within_of_compile h
  obtain ⟨entries, hentries, rfl⟩ := exists_entries_of_compile h
  have hphase : ∀ p ∈ entries, ∀ n, p.2.phase = some n → Text.IsShort n := by
    rintro ⟨id, e⟩ hp n hn
    obtain ⟨a, path, hnote, _, hentry⟩ := exists_note_of_mem_entries hentries hp
    obtain ⟨_, _, heq⟩ := Note.entry_eq_ok hentry
    have hsame : e.phase = a.record.phase := by rw [heq]
    exact hphases (a, path) hnote n (hsame ▸ hn)
  refine ⟨⟨_, hextent, hwithin⟩, hphase, ?_⟩
  intro n hn
  obtain ⟨q, hq, rfl⟩ := List.mem_map.mp hn
  obtain ⟨e, he, hphase'⟩ := List.mem_filterMap.mp (mem_tallyAll_iff.mp hq).1
  obtain ⟨p, hp, rfl⟩ := List.mem_map.mp he
  exact hphase p hp _ hphase'

theorem Stats.isExact_toJson {db : Compiled} (hkeys : db.KeysDistinct) (hshort : db.IsShort) :
    IsExact (room + 3) (db.stats.map Json.str Json.nat).toJson := by
  obtain ⟨bound, hbound, hwithin⟩ := hshort.numbers
  have hcount : ∀ {n : Nat}, n ≤ bound → Text.IsShort n := fun h =>
    Text.isShort_of_le hbound (by simpa using h)
  apply IsExact.obj (by simp [Table.keys])
  simp only [List.forall_mem_cons]
  refine ⟨.int (Text.isShort_of_le hbound hwithin.total),
    isExact_countsJson hkeys.byStatus fun p hp => hcount (hwithin.byStatus p hp),
    isExact_countsJson hkeys.byVisibility fun p hp => hcount (hwithin.byVisibility p hp), ?_,
    isExact_countsJson hkeys.byTag fun p hp => hcount (hwithin.byTag p hp), ?_,
    isExact_texts _, by simp⟩
  · apply IsExact.obj
    · have htexts := nodup_map_showInt hkeys.byPhase hshort.byPhase
      simpa [Table.keys, Stats.map, Table.mapValues, Function.comp_def] using htexts
    · intro p hp
      obtain ⟨q, hq, rfl⟩ := List.mem_map.mp hp
      obtain ⟨r, hr, rfl⟩ := List.mem_map.mp hq
      exact .int (hcount (hwithin.byPhase r hr))
  · apply IsExact.arr
    intro v hv
    obtain ⟨q, hq, rfl⟩ := List.mem_map.mp hv
    obtain ⟨r, hr, rfl⟩ := List.mem_map.mp hq
    apply IsExact.obj (by simp [Table.keys])
    simp only [List.forall_mem_cons]
    exact ⟨.str _, .int (Text.isShort_of_le hbound (hwithin.top r hr)), by simp⟩

/-- A document opens five containers one inside the other: dependencies in an entry, say. -/
theorem Database.isExact_toJson {db : Compiled} (hkeys : db.KeysDistinct) (hshort : db.IsShort) :
    IsExact 5 db.stored.toJson := by
  obtain ⟨bound, hbound, hwithin⟩ := hshort.numbers
  apply IsExact.obj (by simp [Table.keys])
  simp only [List.forall_mem_cons]
  refine ⟨?_, isExact_texts _, DepGraph.isExact_toJson hkeys.nodes,
    Stats.isExact_toJson hkeys hshort, ?_, by simp⟩
  · apply IsExact.obj
    · rw [Table.keys_mapValues, Database.stored, Database.map, Table.keys_mapValues]
      exact hkeys.entries
    · intro p hp
      obtain ⟨q, hq, rfl⟩ := List.mem_map.mp hp
      obtain ⟨r, hr, rfl⟩ := List.mem_map.mp hq
      exact Entry.isExact_toJson (hkeys.deps r hr)
        (Text.isShort_of_le hbound (hwithin.line r hr)) (hshort.phase r hr)
  · apply IsExact.obj (by simp [Table.keys])
    simp only [List.forall_mem_cons]
    exact ⟨.str _, .str _, .int (Text.isShort_of_le hbound hwithin.sourceFiles), .str _, by simp⟩

/-! ### Normal form -/

theorem Hint.isNormal_map (hint : Hint String) : (hint.map Json.str).IsNormal := by
  cases hint with
  | text s => trivial
  | parts p => exact ⟨by cases p.summary <;> simp, by cases p.usage <;> simp⟩

theorem Entry.isNormal_map (e : Entry String) : (e.map Json.str).IsNormal := by
  refine ⟨by simp [Entry.map], by simp [Entry.map], by simp [Entry.map], by simp [Entry.map], ?_⟩
  intro hint h
  obtain ⟨hint', _, rfl⟩ := Option.map_eq_some_iff.mp h
  exact hint'.isNormal_map

theorem textKeys_map {counts : Table String Nat} :
    TextKeys (counts.map fun (x, n) => (Json.str x, Json.nat n)) := by
  intro p hp
  obtain ⟨⟨x, n⟩, _, rfl⟩ := List.mem_map.mp hp
  exact ⟨x, rfl⟩

theorem Database.isNormal_stored {db : Compiled} (hkeys : db.KeysDistinct) (hshort : db.IsShort) :
    db.stored.IsNormal := by
  refine ⟨?_, textKeys_map, textKeys_map, textKeys_map, ?_, ?_⟩
  · intro p hp
    obtain ⟨q, _, rfl⟩ := List.mem_map.mp hp
    exact q.2.isNormal_map
  · rw [Database.stored, Database.map, Stats.map, Table.keys_mapValues]
    exact hkeys.byPhase
  · intro p hp
    obtain ⟨q, hq, rfl⟩ := List.mem_map.mp hp
    exact hshort.byPhase _ (List.mem_map_of_mem hq)

/-! ### Different databases are stored differently -/

section Injective

variable {α β : Type} {f : α → β} {f' : β → α}

theorem Hint.map_map_of_inverse (hf : ∀ x, f' (f x) = x) (hint : Hint α) :
    (hint.map f).map f' = hint := by
  cases hint <;> simp [Hint.map, Function.comp_def, hf]

theorem Entry.map_map_of_inverse (hf : ∀ x, f' (f x) = x) (e : Entry α) :
    (e.map f).map f' = e := by
  simp [Entry.map, Table.mapValues, Function.comp_def, hf, Hint.map_map_of_inverse hf]

theorem DepGraph.map_map_of_inverse (hf : ∀ x, f' (f x) = x) (g : DepGraph α) :
    (g.map f).map f' = g := by
  simp [DepGraph.map, Node.map, Edge.map, Table.mapValues, Function.comp_def, hf]

theorem Database.map_map_of_inverse {κ μ : Type} {g : κ → μ} {g' : μ → κ}
    (hf : ∀ x, f' (f x) = x) (hg : ∀ n, g' (g n) = n) (db : Database α κ) :
    (db.map f g).map f' g' = db := by
  have hstats : (db.stats.map f g).map f' g' = db.stats := by
    simp [Stats.map, Table.mapValues, Function.comp_def, hf, hg]
  simp [Database.map, Table.mapValues, Function.comp_def, hf, Entry.map_map_of_inverse hf,
    DepGraph.map_map_of_inverse hf, hstats]

end Injective

/-- Texts and counts can be taken back from the values that they are stored as. -/
theorem Database.stored_injective : Function.Injective Database.stored := by
  intro db other h
  have hback : ∀ db : Compiled,
      db.stored.map (fun v => v.text?.getD "") (fun v => (v.whole?.getD 0).toNat) = db := by
    intro db
    exact db.map_map_of_inverse (fun _ => rfl) (fun _ => rfl)
  rw [← hback db, h, hback other]

end Marginalia
