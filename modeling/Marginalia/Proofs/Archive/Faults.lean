/-
  Marginalia/Proofs/Archive/Faults.lean
  =====================================
  **Which faults reading a stored database gives.**  Reading asks some parts of a
  document for members and takes some as whole numbers (`askedParts`,
  `askedNumbers`).  A database is only read if all of the first are objects and none
  of the second is infinite; if they are so, reading a document gives a database or
  says what is wrong with the archive.  Otherwise a fault of another kind may come
  first, as with bytes that are no text, integers that are too long and containers
  nested too deep (`read_outcome`).  No room is enough for every document
  (`readWithin_openings`).

  What a reading asks for is followed through its steps: `Asks` says that it gives
  those two faults only at parts that are asked for, and no result unless all of
  them are right.
-/
import Marginalia.Archive
import Marginalia.Proofs.Database.Document
import Marginalia.Proofs.Json.RoundTrip
import Marginalia.Proofs.Text.Utf8

namespace Marginalia

namespace Json

/-- The value is a number without bound. -/
def IsInfinite (v : Json) : Prop := ∃ negative, v = .float (.infinite negative)

/-- The reading asks some values for members, takes some as whole numbers, and does not go on
after one that is not so. -/
def Asks {α : Type} (reading : Shaped α) (parts numbers : List Json) : Prop :=
  match reading with
  | .ok _ => (∀ v ∈ parts, v.IsObject) ∧ ∀ v ∈ numbers, ¬ v.IsInfinite
  | .error .noPart => ∃ v ∈ parts, ¬ v.IsObject
  | .error .infinite => ∃ v ∈ numbers, v.IsInfinite
  | .error _ => True

/-! ### Steps -/

section Steps

variable {α β : Type} {r : Shaped α} {parts numbers parts' numbers' : List Json}

theorem Asks.of_eq (h : Asks r parts numbers) (hparts : parts = parts')
    (hnumbers : numbers = numbers') : Asks r parts' numbers' := hparts ▸ hnumbers ▸ h

theorem asks_ok (x : α) : Asks (.ok x) [] [] := ⟨by simp, by simp⟩

/-- One step after another asks for what both ask. -/
theorem Asks.bind {next : α → Shaped β} (h : Asks r parts numbers)
    (hnext : ∀ x, r = .ok x → Asks (next x) parts' numbers') :
    Asks (r >>= next) (parts ++ parts') (numbers ++ numbers') := by
  cases r with
  | error fault =>
    cases fault with
    | noPart =>
      obtain ⟨v, hv, hobject⟩ := h
      exact ⟨v, List.mem_append_left _ hv, hobject⟩
    | infinite =>
      obtain ⟨v, hv, hinfinite⟩ := h
      exact ⟨v, List.mem_append_left _ hv, hinfinite⟩
    | _ => trivial
  | ok x =>
    have hx := hnext x rfl
    rw [ok_bind]
    cases hnext : next x with
    | error fault =>
      rw [hnext] at hx
      cases fault with
      | noPart =>
        obtain ⟨v, hv, hobject⟩ := hx
        exact ⟨v, List.mem_append_right _ hv, hobject⟩
      | infinite =>
        obtain ⟨v, hv, hinfinite⟩ := hx
        exact ⟨v, List.mem_append_right _ hv, hinfinite⟩
      | _ => trivial
    | ok y =>
      rw [hnext] at hx
      exact ⟨List.forall_mem_append.mpr ⟨h.1, hx.1⟩, List.forall_mem_append.mpr ⟨h.2, hx.2⟩⟩

theorem Asks.after {next : α → Shaped β} (h : Asks r [] [])
    (hnext : ∀ x, r = .ok x → Asks (next x) parts numbers) : Asks (r >>= next) parts numbers :=
  h.bind hnext

theorem Asks.map (h : Asks r parts numbers) (f : α → β) : Asks (r.map f) parts numbers := by
  cases r with
  | error fault => cases fault <;> exact h
  | ok x => exact h

/-- Reading a list asks for what each of its items asks. -/
theorem asks_mapM {f : α → Shaped β} {ps ns : α → List Json} {l : List α}
    (h : ∀ x ∈ l, Asks (f x) (ps x) (ns x)) : Asks (l.mapM f) (l.flatMap ps) (l.flatMap ns) := by
  induction l with
  | nil => exact asks_ok []
  | cons x l ih =>
    have hl := ih fun y hy => h y (List.mem_cons_of_mem _ hy)
    rw [List.mapM_cons]
    refine (h x List.mem_cons_self).bind fun y _ => ?_
    exact (hl.bind fun ys _ => asks_ok (y :: ys)).of_eq (List.append_nil _) (List.append_nil _)

theorem asks_mapM_nothing {f : α → Shaped β} {l : List α} (h : ∀ x ∈ l, Asks (f x) [] []) :
    Asks (l.mapM f) [] [] :=
  (asks_mapM h).of_eq (by simp) (by simp)

end Steps

/-! ### Values -/

theorem asks_members (v : Json) : Asks (members v) [v] [] := by
  cases v with
  | obj fields =>
    refine ⟨?_, by simp⟩
    intro v hv
    exact ⟨fields, List.mem_singleton.mp hv⟩
  | _ =>
    refine ⟨_, List.mem_singleton.mpr rfl, ?_⟩
    rintro ⟨fields, h⟩
    cases h

theorem asks_toInt (v : Json) : Asks (toInt v) [] [v] := by
  have hfinite : ∀ {w : Json} {n : Int}, ¬ w.IsInfinite → Asks (.ok n) [] [w] := by
    intro w n hw
    refine ⟨by simp, ?_⟩
    intro v hv
    rwa [List.mem_singleton.mp hv]
  cases v with
  | float x =>
    cases x with
    | infinite s => exact ⟨_, List.mem_singleton.mpr rfl, s, rfl⟩
    | nan => trivial
    | finite s m e => exact hfinite (by rintro ⟨_, h⟩; cases h)
  | int n => exact hfinite (by rintro ⟨_, h⟩; cases h)
  | bool b => exact hfinite (by rintro ⟨_, h⟩; cases h)
  | str s =>
    rw [toInt]
    cases Text.readInt s.toList with
    | error fault => trivial
    | ok n => exact hfinite (by rintro ⟨_, h⟩; cases h)
  | _ => trivial

theorem asks_required (key : String) (v : Json) : Asks (required key v) [] [] := by
  unfold required
  repeat' split
  all_goals first | exact asks_ok _ | trivial

theorem asks_elements (v : Json) : Asks (elements v) [] [] := by
  cases v with
  | arr items => exact asks_ok _
  | str s => exact asks_ok _
  | obj fields => exact asks_ok _
  | _ => trivial

theorem asks_toChoice {α : Type} (kind : String) (ofName? : String → Option α) (v : Json) :
    Asks (toChoice kind ofName? v) [] [] := by
  unfold toChoice
  repeat' split
  all_goals first | exact asks_ok _ | trivial

theorem asks_readList (key : String) (fields : List (String × Json)) :
    Asks (readList key fields) [] [] := asks_elements _

theorem asks_toTable (v : Json) : Asks (toTable v) [] [] := by
  have hkey : ∀ k : Json, Asks (toKey k) [] [] := by
    intro k
    unfold toKey
    split
    · exact asks_ok k
    · trivial
  have hpair : ∀ p : Json × Nat, Asks (toPair p.2 p.1) [] [] := by
    rintro ⟨x, i⟩
    refine (asks_elements x).after fun l _ => ?_
    split
    · exact (hkey _).after fun k _ => asks_ok (k, _)
    · trivial
  have hpairs : Asks (elements v >>= fun l => l.zipIdx.mapM (fun p => toPair p.2 p.1) >>=
      fun pairs => .ok (Table.ofPairs pairs)) [] [] := by
    refine (asks_elements v).after fun l _ => ?_
    exact (asks_mapM_nothing fun p _ => hpair p).after fun pairs _ => asks_ok _
  cases v with
  | obj fields => exact asks_ok _
  | _ => exact hpairs

/-! ### Parts that may be missing -/

theorem asks_readOption {α : Type} {f : Json → Shaped α} (h : ∀ v, Asks (f v) [] [])
    (o : Option Json) : Asks (readOption f o) [] [] := by
  cases o with
  | none => exact asks_ok none
  | some v => exact (h v).map some

theorem asks_readOption_toInt (o : Option Json) : Asks (readOption toInt o) [] o.toList := by
  cases o with
  | none => exact asks_ok none
  | some v => exact (asks_toInt v).map some

theorem asks_members_getD (o : Option Json) : Asks (members (o.getD (.obj []))) o.toList [] := by
  cases o with
  | none => exact asks_ok []
  | some v => exact asks_members v

theorem asks_toInt_getD (o : Option Json) (n : Int) : Asks (toInt (o.getD (.int n))) [] o.toList := by
  cases o with
  | none => exact asks_ok n
  | some v => exact asks_toInt v

/-- The values of an object. -/
def values : Json → List Json
  | .obj fields => Table.values fields
  | _ => []

/-- The items of a list. -/
def items : Json → List Json
  | .arr l => l
  | _ => []

/-- Reading a table asks for it and for what each of its values asks. -/
theorem asks_table {α β : Type} {f : Json → Shaped α} {ps ns : Json → List Json}
    (h : ∀ v, Asks (f v) (ps v) (ns v)) (v : Json) {next : Table String α → Shaped β}
    {parts numbers : List Json} (hnext : ∀ t, Asks (next t) parts numbers) :
    Asks (do let t ← (← members v).mapM fun p => (f p.2).map (p.1, ·); next t)
      (v :: v.values.flatMap ps ++ parts) (v.values.flatMap ns ++ numbers) := by
  refine (asks_members v).bind fun fields hfields => ?_
  obtain rfl := eq_obj_of_members hfields
  have hvalues : Asks (fields.mapM fun p => (f p.2).map (p.1, ·))
      (fields.flatMap fun p => ps p.2) (fields.flatMap fun p => ns p.2) :=
    asks_mapM fun p _ => (h p.2).map _
  refine (hvalues.bind fun t _ => hnext t).of_eq ?_ ?_
  · simp [values, Table.values, List.flatMap_map]
  · simp [values, Table.values, List.flatMap_map]

theorem asks_table_getD {α β : Type} {f : Json → Shaped α} {ps ns : Json → List Json}
    (h : ∀ v, Asks (f v) (ps v) (ns v)) (o : Option Json) {next : Table String α → Shaped β}
    {parts numbers : List Json} (hnext : ∀ t, Asks (next t) parts numbers) :
    Asks (do let t ← (← members (o.getD (.obj []))).mapM fun p => (f p.2).map (p.1, ·); next t)
      ((o.toList.flatMap fun v => v :: v.values.flatMap ps) ++ parts)
      ((o.toList.flatMap fun v => v.values.flatMap ns) ++ numbers) := by
  cases o with
  | none => exact hnext []
  | some v => exact (asks_table h v hnext).of_eq (by simp) (by simp)

end Json

open Marginalia.Json

/-! ### What is asked for -/

/-- An entry has members, and so have its dependencies if they are given. -/
def Entry.askedParts (v : Json) : List Json := v :: ((v.get? "deps").filter Json.isGiven).toList

def Entry.askedNumbers (v : Json) : List Json :=
  (v.get? "line").toList ++ ((v.get? "phase").bind Json.present).toList

def DepGraph.askedParts (v : Json) : List Json :=
  v :: (v.get? "nodes").toList.flatMap fun nodes => nodes :: nodes.values

def Stats.askedParts (v : Json) : List Json := v :: (v.get? "byPhase").toList

def Stats.askedNumbers (v : Json) : List Json :=
  (v.get? "totalAnnotations").toList ++ (v.get? "topDependencies").toList.flatMap fun top =>
    top.items.flatMap fun item => (item.get? "dependentCount").toList

/-- The parts of a document that reading asks for members. -/
def Database.askedParts (v : Json) : List Json :=
  ((v.get? "entries").toList.flatMap fun entries =>
      entries :: entries.values.flatMap Entry.askedParts)
    ++ (v.get? "graph").toList.flatMap DepGraph.askedParts
    ++ (v.get? "stats").toList.flatMap Stats.askedParts
    ++ (v.get? "buildInfo").toList

/-- The parts of a document that reading takes as whole numbers. -/
def Database.askedNumbers (v : Json) : List Json :=
  ((v.get? "entries").toList.flatMap fun entries => entries.values.flatMap Entry.askedNumbers)
    ++ (v.get? "stats").toList.flatMap Stats.askedNumbers
    ++ ((v.get? "buildInfo").bind (Json.get? "sourceFiles")).toList

theorem asks_readDeps (fields : List (String × Json)) :
    Asks (readDeps fields) (givenMember "deps" fields).toList [] := by
  rw [readDeps]
  cases givenMember "deps" fields with
  | none => exact asks_ok []
  | some d =>
    refine ((asks_members d).bind fun kinds _ => ?_).of_eq (List.append_nil _) rfl
    apply asks_mapM_nothing
    intro p _
    exact (asks_elements p.2).map _

theorem Entry.asks_ofJson (v : Json) :
    Asks (Entry.ofJson v) (Entry.askedParts v) (Entry.askedNumbers v) := by
  suffices h : Asks (Entry.ofJson v) ([v] ++ (((v.get? "deps").filter Json.isGiven).toList ++ []))
      ([] ++ ((v.get? "line").toList ++ (((v.get? "phase").bind Json.present).toList ++ []))) from
    h.of_eq (by simp [Entry.askedParts]) (by simp [Entry.askedNumbers])
  rw [Entry.ofJson_eq]
  refine (asks_members v).bind fun fields hfields => ?_
  obtain rfl := eq_obj_of_members hfields
  refine (asks_required "id" _).after fun id _ => ?_
  refine (asks_required "filePath" _).after fun filePath _ => ?_
  refine (asks_required "line" _).after fun line hline => ?_
  rw [get?_of_required hline]
  refine (asks_toInt line).bind fun n _ => ?_
  refine (asks_required "source" _).after fun source _ => ?_
  refine (asks_toChoice _ _ source).after fun origin _ => ?_
  refine (asks_readOption asks_elements _).after fun tags _ => ?_
  refine (asks_readDeps fields).bind fun deps _ => ?_
  refine (asks_readOption (asks_toChoice _ _) _).after fun visibility _ => ?_
  refine (asks_readOption_toInt _).bind fun phase _ => ?_
  exact (asks_readOption (asks_toChoice _ _) _).after fun status _ => asks_ok _

theorem Node.asks_ofJson (v : Json) : Asks (Node.ofJson v) [v] [] := by
  refine (asks_members v).bind fun fields _ => ?_
  refine (asks_readList _ _).after fun runtime _ => ?_
  refine (asks_readList _ _).after fun build _ => ?_
  refine (asks_readList _ _).after fun optional _ => ?_
  exact (asks_readList _ _).after fun dependents _ => asks_ok _

theorem Edge.asks_ofJson (v : Json) : Asks (Edge.ofJson v) [] [] := by
  refine (asks_required _ v).after fun source _ => ?_
  refine (asks_required _ v).after fun target _ => ?_
  refine (asks_required _ v).after fun kind _ => ?_
  exact (asks_toChoice _ _ kind).after fun c _ => asks_ok _

theorem DepGraph.asks_ofJson (v : Json) :
    Asks (DepGraph.ofJson v) (DepGraph.askedParts v) [] := by
  suffices h : Asks (DepGraph.ofJson v)
      ([v] ++ (((v.get? "nodes").toList.flatMap fun nodes =>
        nodes :: nodes.values.flatMap fun n => [n]) ++ []))
      ([] ++ (((v.get? "nodes").toList.flatMap fun nodes =>
        nodes.values.flatMap fun _ => []) ++ [])) from
    h.of_eq (by simp [DepGraph.askedParts]) (by simp)
  refine (asks_members v).bind fun fields hfields => ?_
  obtain rfl := eq_obj_of_members hfields
  refine asks_table_getD Node.asks_ofJson _ fun nodes => ?_
  refine (asks_readList _ _).after fun l _ => ?_
  exact (asks_mapM_nothing fun e _ => Edge.asks_ofJson e).after fun edges _ => asks_ok _

theorem asks_toInt_str (s : String) : Asks (toInt (.str s)) [] [] := by
  rw [toInt]
  cases Text.readInt s.toList with
  | error fault => trivial
  | ok n => exact asks_ok n

theorem asks_topItem (item : Json) :
    Asks (do
      let id ← required "id" item
      let count ← toInt (← required "dependentCount" item)
      .ok (id, count)) [] (item.get? "dependentCount").toList := by
  refine (asks_required _ item).after fun id _ => ?_
  refine (asks_required _ item).after fun count hcount => ?_
  rw [get?_of_required hcount]
  exact (asks_toInt count).bind fun n _ => asks_ok (id, n)

/-- The characters of a text and the keys of an object, which may stand for a list too, have no
members. -/
theorem flatMap_get?_of_elements {v : Json} {l : List Json} (h : elements v = .ok l)
    (key : String) : (l.flatMap fun item => (item.get? key).toList) =
      v.items.flatMap fun item => (item.get? key).toList := by
  cases v with
  | arr l' => rw [Except.ok.inj h, items]
  | str s =>
    obtain rfl := Except.ok.inj h
    simp [items, List.flatMap_map, get?]
  | obj fields =>
    obtain rfl := Except.ok.inj h
    simp [items, List.flatMap_map, get?]
  | _ => cases h

theorem Stats.asks_ofJson (v : Json) :
    Asks (Stats.ofJson v) (Stats.askedParts v) (Stats.askedNumbers v) := by
  suffices h : Asks (Stats.ofJson v) ([v] ++ ((v.get? "byPhase").toList ++ []))
      ([] ++ ((v.get? "totalAnnotations").toList ++
        (((v.get? "topDependencies").toList.flatMap fun top =>
          top.items.flatMap fun item => (item.get? "dependentCount").toList) ++ []))) from
    h.of_eq (by simp [Stats.askedParts]) (by simp [Stats.askedNumbers])
  refine (asks_members v).bind fun fields hfields => ?_
  obtain rfl := eq_obj_of_members hfields
  refine (asks_toInt_getD _ 0).bind fun total _ => ?_
  refine (asks_toTable _).after fun byStatus _ => ?_
  refine (asks_toTable _).after fun byVisibility _ => ?_
  refine (asks_members_getD _).bind fun counts _ => ?_
  have hphases : Asks (counts.mapM fun p => (toInt (.str p.1)).map (·, p.2)) [] [] := by
    apply asks_mapM_nothing
    intro p _
    exact (asks_toInt_str p.1).map _
  refine hphases.after fun phases _ => ?_
  refine (asks_toTable _).after fun byTag _ => ?_
  refine (asks_readList _ _).after fun l hl => ?_
  have hnumbers : (((Json.obj fields).get? "topDependencies").toList.flatMap fun top =>
      top.items.flatMap fun item => (item.get? "dependentCount").toList) =
      l.flatMap fun item => (item.get? "dependentCount").toList := by
    rw [flatMap_get?_of_elements hl]
    cases hget : Table.get? "topDependencies" fields <;> simp [get?, hget, items]
  have htop : Asks _ [] _ := (asks_mapM fun item (_ : item ∈ l) => asks_topItem item).of_eq
    (by simp) hnumbers.symm
  refine htop.bind fun top _ => ?_
  exact (asks_readList _ _).after fun orphaned _ => asks_ok _

theorem Build.asks_ofJson (v : Json) :
    Asks (Build.ofJson v) [v] (v.get? "sourceFiles").toList := by
  suffices h : Asks (Build.ofJson v) ([v] ++ []) ([] ++ ((v.get? "sourceFiles").toList ++ [])) from
    h.of_eq rfl (List.append_nil _)
  refine (asks_members v).bind fun fields hfields => ?_
  obtain rfl := eq_obj_of_members hfields
  refine (asks_required _ _).after fun version _ => ?_
  exact (asks_toInt_getD _ 0).bind fun sourceFiles _ => asks_ok _

/-- Reading a document asks for the parts that are listed. -/
theorem Database.asks_ofJson (v : Json) :
    Asks (Database.ofJson v) (Database.askedParts v) (Database.askedNumbers v) := by
  suffices h : Asks (Database.ofJson v)
      (((v.get? "entries").toList.flatMap fun entries =>
          entries :: entries.values.flatMap Entry.askedParts) ++
        ((v.get? "graph").toList.flatMap DepGraph.askedParts ++
          ((v.get? "stats").toList.flatMap Stats.askedParts ++
            ((v.get? "buildInfo").toList ++ []))))
      (((v.get? "entries").toList.flatMap fun entries =>
          entries.values.flatMap Entry.askedNumbers) ++
        ([] ++ ((v.get? "stats").toList.flatMap Stats.askedNumbers ++
          (((v.get? "buildInfo").bind (Json.get? "sourceFiles")).toList ++ [])))) from
    h.of_eq (by simp [Database.askedParts]) (by simp [Database.askedNumbers])
  refine (asks_required _ v).after fun build hbuild => ?_
  refine (asks_required _ v).after fun entries hentries => ?_
  rw [get?_of_required hbuild, get?_of_required hentries]
  simp only [Option.toList_some, List.flatMap_singleton]
  refine asks_table Entry.asks_ofJson entries fun table => ?_
  refine (asks_required _ v).after fun ids _ => ?_
  refine (asks_elements ids).after fun ids _ => ?_
  refine (asks_required _ v).after fun graph hgraph => ?_
  rw [get?_of_required hgraph]
  simp only [Option.toList_some, List.flatMap_singleton]
  refine (DepGraph.asks_ofJson graph).bind fun graph _ => ?_
  refine (asks_required _ v).after fun stats hstats => ?_
  rw [get?_of_required hstats]
  simp only [Option.toList_some, List.flatMap_singleton]
  refine (Stats.asks_ofJson stats).bind fun stats _ => ?_
  exact (Build.asks_ofJson build).bind fun build _ => asks_ok _

/-! ### Reading the file of a database -/

namespace Archive

open Marginalia.Text

/-- The file that is read for a path. -/
def fileOf (w : Workspace) (path : Path) : Path :=
  if w.isFolder path then fileIn path databaseName else path

/-- Every part that is asked for members has them. -/
def AllObjects (document : Json) : Prop := ∀ v ∈ Database.askedParts document, v.IsObject

/-- No number that is asked for is infinite. -/
def AllFinite (document : Json) : Prop := ∀ v ∈ Database.askedNumbers document, ¬ v.IsInfinite

/-- A document gives a database if all its parts are right, a fault of the archive, or the fault of
a part that is asked for and not as it has to be. -/
theorem ofDocument_outcome (path : String) (document : Json) :
    (∃ db, ofDocument path document = .ok db ∧ AllObjects document ∧ AllFinite document) ∨
    (∃ cause, ofDocument path document = .error (.archive path cause)) ∨
    (ofDocument path document = .error (.shape .noPart) ∧ ¬ AllObjects document) ∨
    (ofDocument path document = .error (.shape .infinite) ∧ ¬ AllFinite document) := by
  have hasks := Database.asks_ofJson document
  cases document with
  | obj fields =>
    simp only [ofDocument]
    cases formatOf fields with
    | str name =>
      by_cases hname : name = databaseFormat
      · simp only [hname, if_true]
        cases hread : Database.ofJson (.obj fields) with
        | ok db =>
          rw [hread] at hasks
          exact .inl ⟨db, rfl, hasks⟩
        | error fault =>
          rw [hread] at hasks
          cases fault with
          | noPart =>
            obtain ⟨v, hv, hobject⟩ := hasks
            exact .inr (.inr (.inl ⟨rfl, fun hall => hobject (hall v hv)⟩))
          | infinite =>
            obtain ⟨v, hv, hinfinite⟩ := hasks
            exact .inr (.inr (.inr ⟨rfl, fun hall => hall v hv hinfinite⟩))
          | _ => exact .inr (.inl ⟨_, rfl⟩)
      · simp only [hname, if_false]
        exact .inr (.inl ⟨_, rfl⟩)
    | _ => exact .inr (.inl ⟨_, rfl⟩)
  | _ => exact .inr (.inl ⟨_, rfl⟩)

theorem readWithin_of_readBytes (limit : Nat) {w : Workspace} {path : Path} {bytes : List UInt8}
    (h : w.readBytes (fileOf w path) = .ok bytes) :
    readWithin limit w path = (decodeUtf8 bytes).mapError Fault.encoding >>= fun cs =>
      decode limit (fileOf w path).text (normalizeNewlines cs) := by
  have hpath : w.hasPath (fileOf w path) = true := by
    rw [Workspace.hasPath]
    cases hfind : w.find (fileOf w path) with
    | ok t => rfl
    | error cause => simp [Workspace.readBytes, hfind] at h
  have htext : w.readText (fileOf w path) =
      (decodeUtf8 bytes).mapError Fault.encoding >>= fun cs => .ok (normalizeNewlines cs) := by
    rw [Workspace.readText, Workspace.readExact, h]
    rfl
  have hread : readWithin limit w path = if w.hasPath (fileOf w path) then
      w.readText (fileOf w path) >>= decode limit (fileOf w path).text
    else .error (.archive (fileOf w path).text .notFound) := rfl
  rw [hread, hpath, if_pos rfl, htext]
  cases (decodeUtf8 bytes).mapError Fault.encoding <;> rfl

/-- What reading an existing file gives, whatever bytes it holds and however many containers there
is room for.  Bytes that are no text, integers with too many digits and containers that are nested
too deep give faults of their own.  A document gives a database only if every part that is asked
for members is an object and every number that is asked for is finite, and if so it gives a database
or a fault of the archive.  Of documents with half of a surrogate pair in a string nothing is said:
such a string is no text here. -/
theorem read_outcome (limit : Nat) {w : Workspace} {path : Path} {bytes : List UInt8}
    (h : w.readBytes (fileOf w path) = .ok bytes) :
    match decodeUtf8 bytes with
    | .error fault => readWithin limit w path = .error (.encoding fault)
    | .ok cs =>
      match Json.readWithin limit (normalizeNewlines cs) with
      | .error .notJson => readWithin limit w path = .error (.archive (fileOf w path).text .notJson)
      | .error (.hugeInteger digits) =>
        readWithin limit w path = .error (.value (.tooManyDigits digits))
      | .error .tooDeep => readWithin limit w path = .error .tooDeep
      | .ok document =>
        Json.IsPaired (normalizeNewlines cs) →
        (∃ db, readWithin limit w path = .ok db ∧ AllObjects document ∧ AllFinite document) ∨
        (∃ cause, readWithin limit w path = .error (.archive (fileOf w path).text cause)) ∨
        (readWithin limit w path = .error (.shape .noPart) ∧ ¬ AllObjects document) ∨
        (readWithin limit w path = .error (.shape .infinite) ∧ ¬ AllFinite document) := by
  rw [readWithin_of_readBytes limit h]
  cases decodeUtf8 bytes with
  | error fault => rfl
  | ok cs =>
    have hok : (Except.ok cs : Except Utf8Fault _).mapError Fault.encoding = .ok cs := rfl
    simp only [hok, ok_bind, decode]
    cases Json.readWithin limit (normalizeNewlines cs) with
    | error fault => cases fault <;> rfl
    | ok document => exact fun _ => ofDocument_outcome _ document

/-- A workspace with a database file of these bytes. -/
def holding (bytes : List UInt8) : Workspace := ⟨.folder [(databaseName, .file bytes)], []⟩

theorem readBytes_holding (bytes : List UInt8) :
    (holding bytes).readBytes (fileOf (holding bytes) ⟨"", []⟩) = .ok bytes := rfl

/-- Reading stops with a fault that says nothing about the archive. -/
def escapes : Except Fault Stored → Bool
  | .ok _ => false
  | .error (.archive _ _) => false
  | .error _ => true

/-- The text of a document with these entries. -/
def documentText (entries : String) : String :=
  "\x7b\"buildInfo\":\x7b\"format\":\"metamode-v2\"\x7d,\"entries\":" ++ entries ++ "\x7d"

/-- A list in place of the entries is asked for members, where there is room to read it. -/
theorem read_outcome_list_of_entries :
    let text := (documentText "[]").toList
    let document := Json.obj
      [("buildInfo", .obj [("format", .str databaseFormat)]), ("entries", .arr [])]
    Json.readWithin 2 text = .ok document ∧ Json.IsPaired text ∧ ¬ AllObjects document ∧
      readWithin 2 (holding (encodeUtf8 text)) ⟨"", []⟩ = .error (.shape .noPart) ∧
      readWithin 1 (holding (encodeUtf8 text)) ⟨"", []⟩ = .error .tooDeep := by
  intro text document
  have hjson : Json.readWithin 2 text = .ok document := by rfl
  have hdeep : Json.readWithin 1 text = .error .tooDeep := by rfl
  have hpaired : Json.IsPaired text := by decide +kernel
  have hreturn : normalizeNewlines text = text := by decide +kernel
  have hobjects : ¬ AllObjects document := by
    intro hall
    obtain ⟨fields, h⟩ := hall (.arr []) (List.mem_cons_self)
    cases h
  have hfinite : AllFinite document := fun v hv => absurd hv List.not_mem_nil
  have hescapes : escapes (readWithin 2 (holding (encodeUtf8 text)) ⟨"", []⟩) = true := by
    decide +kernel
  have houtcome := read_outcome 2 (readBytes_holding (encodeUtf8 text))
  have hroom := read_outcome 1 (readBytes_holding (encodeUtf8 text))
  simp only [decodeUtf8_encodeUtf8, hreturn, hjson] at houtcome
  simp only [decodeUtf8_encodeUtf8, hreturn, hdeep] at hroom
  refine ⟨hjson, hpaired, hobjects, ?_, hroom⟩
  rcases houtcome hpaired with ⟨db, hdb, _⟩ | ⟨cause, hcause⟩ | ⟨hpart, _⟩ | ⟨_, hinfinite⟩
  · rw [hdb] at hescapes
    cases hescapes
  · rw [hcause] at hescapes
    cases hescapes
  · exact hpart
  · exact absurd hfinite hinfinite

/-- A text that begins more arrays than there is room for. -/
def openings (limit : Nat) : List Char := List.replicate (limit + 1) '['

theorem readWithin_openings (limit : Nat) :
    readWithin limit (holding (encodeUtf8 (openings limit))) ⟨"", []⟩ = .error .tooDeep := by
  have hreturn : normalizeNewlines (openings limit) = openings limit :=
    normalizeNewlines_of_no_return fun hmem => absurd (List.eq_of_mem_replicate hmem) (by decide)
  have hdeep := Json.readWithin_replicate_open limit []
  rw [List.append_nil] at hdeep
  have hok : (Except.ok (openings limit) : Except Utf8Fault _).mapError Fault.encoding =
      .ok (openings limit) := rfl
  rw [readWithin_of_readBytes limit (readBytes_holding _), decodeUtf8_encodeUtf8, hok, ok_bind,
    hreturn, decode, openings, hdeep]

/-- Not every file is read or refused as an archive: not one that is no text, not a document with a
list in place of the entries, not one with an infinite line, and whatever room there is, not one
that is nested too deep for it. -/
theorem read_escapes :
    escapes (read (holding [0xff, 0x7b, 0x7d]) ⟨"", []⟩) = true ∧
    escapes (read (holding (encodeUtf8 (documentText "[]").toList)) ⟨"", []⟩) = true ∧
    escapes (read (holding (encodeUtf8 (documentText
      "\x7b\"a\":\x7b\"id\":\"a\",\"filePath\":\"f\",\"line\":1e999\x7d\x7d").toList)) ⟨"", []⟩) =
        true ∧
    ∀ limit, escapes (readWithin limit (holding (encodeUtf8 (openings limit))) ⟨"", []⟩) = true := by
  refine ⟨by decide +kernel, by decide +kernel, by decide +kernel, fun limit => ?_⟩
  rw [readWithin_openings]
  rfl

end Archive

end Marginalia
