/-
  Marginalia/Proofs/Record/RoundTrip.lean
  =======================================
  **Records are read back from their comments.**  A record is written as a list of
  keys with texts (`Record.written`), one to a line.  Each key fills one place of the
  record, so the places can be filled one after another (`applyAll_line`); the parts
  of a hint share one place, which holds no hint as long as it has no part (`hintOf`).

    * `documentLines_toJson`: the lines of the document of a record are those of its
      keys and texts.
    * `applyAll_written`: the keys and texts, applied to the empty record one after
      another, give the record.
    * `parseComment_renderComment`: a plain record is read back from its comment in
      either style.
-/
import Marginalia.Proofs.Record.Plain

namespace Marginalia

open Marginalia.Text Marginalia.Literal Marginalia.Extract

/-! ### Hints -/

/-- A plain text that does not look like a hint with parts, or plain parts, at least one of
them. -/
def Hint.IsPlain : Hint String → Prop
  | .text s => IsPlainText s ∧ ¬ ['{'] <+: s.toList ∧ ¬ "summary:".toList <+: s.toList
  | .parts p => p ≠ {} ∧ (∀ s ∈ p.summary, IsPlainText s) ∧ (∀ s ∈ p.usage, IsPlainText s) ∧
      ∀ l ∈ p.examples, l ≠ [] ∧ ∀ s ∈ l, IsItemText s

/-- A key with its text, if there is one. -/
def keyLine (k : FieldKey) (text : Option String) : List (FieldKey × String) :=
  text.toList.map fun s => (k, s)

/-- The keys and texts of a hint. -/
def Hint.written : Hint String → List (FieldKey × String)
  | .text s => keyLine .ai (some s)
  | .parts p => keyLine .aiSummary p.summary ++ keyLine .aiUsage p.usage ++
      keyLine .aiExamples (p.examples.map joinedItems)

/-- A key and its text on a line. -/
def asLine (p : FieldKey × String) : String := Writer.fieldLine p.1.spelling p.2

theorem hintLines_toJson (p : HintParts String) (h : p.examples ≠ some []) :
    ∃ fields, (Hint.map Json.str (.parts p)).toJson = .obj fields ∧
      Writer.hintLines fields = .ok ((Hint.parts p).written.map asLine) := by
  obtain ⟨summary, usage, examples⟩ := p
  refine ⟨_, rfl, ?_⟩
  have hkeys : (Table.keys [("summary", summary.map Json.str), ("usage", usage.map Json.str),
      ("examples", (examples.map (·.map Json.str)).map Json.arr)]).Nodup := by simp [Table.keys]
  unfold Writer.hintLines
  simp only [get?_objOf hkeys, Table.get?, String.reduceBEq, if_true, if_false, Bool.false_eq_true,
    Option.join_some]
  cases examples with
  | none => cases summary <;> cases usage <;> rfl
  | some l =>
    have hgiven : (Json.arr (l.map Json.str)).isGiven = true := by
      simpa [Json.isGiven] using h
    have hjoined : Json.joined "," (Json.arr (l.map Json.str)) = .ok (joinedItems l) :=
      joined_strings l
    simp only [Option.map_some, hgiven, hjoined, if_true, Except.map, ok_bind]
    cases summary <;> cases usage <;> rfl

/-- The parts of a hint, as a hint if there is one. -/
def hintOf (p : HintParts String) : Option (Hint String) := if p = {} then none else some (.parts p)

theorem partsOf_hintOf (p : HintParts String) : partsOf (hintOf p) = p := by
  unfold hintOf
  split
  · rename_i h
    exact h.symm
  · rfl

theorem hintOf_of_ne {p : HintParts String} (h : p ≠ {}) : hintOf p = some (.parts p) := if_neg h

theorem applyHint_text {s : String} (h : (Hint.text s).IsPlain) :
    applyHint none s.toList = .text s := by
  obtain ⟨hplain, hbrace, hsummary⟩ := h
  have hobject : startsWith ['{'] (trim s.toList) = false := by
    rw [hplain.trimmed, Bool.eq_false_iff]
    exact fun hopen => hbrace (List.isPrefixOf_iff_prefix.mp hopen)
  have hmark : summaryAfterMark? (unquoted s.toList) = none := by
    have hstart : startsWith "summary:".toList s.toList = false := by
      rw [Bool.eq_false_iff]
      exact fun hopen => hsummary (List.isPrefixOf_iff_prefix.mp hopen)
    rw [hplain.unquoted_eq]
    simp only [summaryAfterMark?, hstart, Bool.false_and, Bool.false_eq_true, if_false]
  simp only [applyHint, hobject, hmark, scalarOf_of_isPlainText hplain, if_false,
    Bool.false_eq_true]

/-! ### Applying what was written -/

/-- The record after keys with texts. -/
def applyAll (r : Record) (fields : List (FieldKey × String)) : Except IntFault Record :=
  fields.foldlM (fun r p => r.apply p.1 p.2.toList) r

theorem writeFields_spelling (r : Record) (fields : List (FieldKey × String)) :
    r.writeFields (fields.map fun p => (p.1.spelling.toList, p.2.toList)) = applyAll r fields := by
  rw [Record.writeFields, applyAll, List.foldlM_map]
  simp only [Record.writeField, FieldKey.ofText?_spelling]

theorem applyAll_append (r : Record) (fields fields' : List (FieldKey × String)) :
    applyAll r (fields ++ fields') = applyAll r fields >>= (applyAll · fields') :=
  List.foldlM_append

/-- One key fills one place of the record, `fill`, if its text is there. -/
theorem applyAll_line {α : Type} {k : FieldKey} {x : Option α} {text : α → String}
    (fill : Option α → Record)
    (h : ∀ a ∈ x, (fill none).apply k (text a).toList = .ok (fill (some a))) :
    applyAll (fill none) (keyLine k (x.map text)) = .ok (fill x) := by
  cases x with
  | none => rfl
  | some a =>
    have ha := h a rfl
    simp only [applyAll, keyLine, Option.map_some, Option.toList_some, List.map_cons, List.map_nil,
      List.foldlM_cons, List.foldlM_nil, ha, ok_bind]
    rfl

theorem applyAll_line_text {k : FieldKey} {x : Option String} (fill : Option String → Record)
    (h : ∀ s ∈ x, (fill none).apply k s.toList = .ok (fill (some s))) :
    applyAll (fill none) (keyLine k x) = .ok (fill x) := by
  have hline : applyAll (fill none) (keyLine k (x.map id)) = .ok (fill x) := applyAll_line fill h
  rwa [Option.map_id_apply] at hline

theorem applyAll_parts (r : Record) {p : HintParts String} (h : (Hint.parts p).IsPlain) :
    applyAll { r with ai := none } (Hint.parts p).written =
      .ok { r with ai := some (.parts p) } := by
  obtain ⟨summary, usage, examples⟩ := p
  obtain ⟨hne, hsummary, husage, hexamples⟩ := h
  have hstart : none = hintOf {} := rfl
  have hfirst : applyAll { r with ai := hintOf {} } (keyLine .aiSummary summary) =
      .ok { r with ai := hintOf { summary } } := by
    refine applyAll_line_text (fun s => { r with ai := hintOf { summary := s } }) fun s hs => ?_
    have hset : hintOf { summary := some s } = _ := hintOf_of_ne (by simp)
    simp only [Record.apply, partsOf_hintOf, scalarOf_of_isPlainText (hsummary s hs), hset]
  have hsecond : applyAll { r with ai := hintOf { summary } } (keyLine .aiUsage usage) =
      .ok { r with ai := hintOf { summary, usage } } := by
    refine applyAll_line_text (fun s => { r with ai := hintOf { summary, usage := s } })
      fun s hs => ?_
    have hset : hintOf { summary, usage := some s } = _ := hintOf_of_ne (by simp)
    simp only [Record.apply, partsOf_hintOf, scalarOf_of_isPlainText (husage s hs), hset]
  have hthird : applyAll { r with ai := hintOf { summary, usage } }
      (keyLine .aiExamples (examples.map joinedItems)) =
      .ok { r with ai := hintOf ⟨summary, usage, examples⟩ } := by
    refine applyAll_line (fun l => { r with ai := hintOf ⟨summary, usage, l⟩ }) fun l hl => ?_
    have hset : hintOf ⟨summary, usage, some l⟩ = _ := hintOf_of_ne (by simp)
    simp only [Record.apply, partsOf_hintOf, listOf_joinedItems (hexamples l hl).2, hset]
  rw [Hint.written, applyAll_append, applyAll_append, hstart, hfirst, ok_bind, hsecond, ok_bind,
    hthird, hintOf_of_ne hne]

theorem applyAll_hint (r : Record) {h : Hint String} (hplain : h.IsPlain) :
    applyAll { r with ai := none } h.written = .ok { r with ai := some h } := by
  cases h with
  | text s =>
    refine applyAll_line_text (x := some s) (fun x => { r with ai := x.map Hint.text })
      fun t ht => ?_
    obtain rfl : s = t := by simpa using ht
    simp only [Record.apply, Option.map_none, Option.map_some, applyHint_text hplain]
  | parts p => exact applyAll_parts r hplain

/-! ### Records -/

/-- The texts of the record are plain, its lists have items, and its phase can be read. -/
structure Record.IsPlain (r : Record) : Prop where
  id : ∀ s ∈ r.id, IsPlainText s
  name : ∀ s ∈ r.name, IsPlainText s
  desc : ∀ s ∈ r.desc, IsPlainText s
  tags : ∀ l ∈ r.tags, ∀ s ∈ l, IsItemText s
  deps : ∀ d ∈ r.deps, d.IsPlain
  ai : ∀ h ∈ r.ai, h.IsPlain
  version : ∀ s ∈ r.version, IsPlainText s
  phase : ∀ n ∈ r.phase, IsShort n

/-- The keys and texts of a record. -/
def Record.written (r : Record) : List (FieldKey × String) :=
  [keyLine .id r.id, keyLine .name r.name, keyLine .desc r.desc, keyLine .tags (r.tags.map joinedItems),
    keyLine .deps (r.deps.map fun d => joinedItems d.items), (r.ai.map Hint.written).getD [],
    keyLine .visibility (r.visibility.map Visibility.name), keyLine .version r.version,
    keyLine .phase (r.phase.map showInt), keyLine .status (r.status.map Status.name)].flatten

theorem isPlainText_visibility (v : Visibility) : IsPlainText v.name := by
  cases v <;> decide

theorem isPlainText_status (s : Status) : IsPlainText s.name := by
  cases s <;> decide

/-- The keys and texts of a plain record, applied to the empty record, give the record. -/
theorem applyAll_written {r : Record} (h : r.IsPlain) : applyAll {} r.written = .ok r := by
  obtain ⟨id, name, desc, tags, deps, ai, visibility, version, phase, status⟩ := r
  have hid : applyAll {} (keyLine .id id) = .ok { id } :=
    applyAll_line_text (fun x => { id := x }) fun s hs => by
      simp only [Record.apply, scalarOf_of_isPlainText (h.id s hs)]
  have hname : applyAll { id } (keyLine .name name) = .ok { id, name } :=
    applyAll_line_text (fun x => { id, name := x }) fun s hs => by
      simp only [Record.apply, scalarOf_of_isPlainText (h.name s hs)]
  have hdesc : applyAll { id, name } (keyLine .desc desc) = .ok { id, name, desc } :=
    applyAll_line_text (fun x => { id, name, desc := x }) fun s hs => by
      simp only [Record.apply, scalarOf_of_isPlainText (h.desc s hs)]
  have htags : applyAll { id, name, desc } (keyLine .tags (tags.map joinedItems)) =
      .ok { id, name, desc, tags } :=
    applyAll_line (fun x => { id, name, desc, tags := x }) fun l hl => by
      simp only [Record.apply, listOf_joinedItems (h.tags l hl)]
  have hdeps : applyAll { id, name, desc, tags }
      (keyLine .deps (deps.map fun d => joinedItems d.items)) =
        .ok { id, name, desc, tags, deps } :=
    applyAll_line (fun x => { id, name, desc, tags, deps := x }) fun d hd => by
      simp only [Record.apply, depsOfText_items (h.deps d hd)]
  have hai : applyAll { id, name, desc, tags, deps } ((ai.map Hint.written).getD []) =
      .ok { id, name, desc, tags, deps, ai } := by
    cases ai with
    | none => rfl
    | some hint => exact applyAll_hint { id, name, desc, tags, deps } (h.ai hint rfl)
  have hvisibility : applyAll { id, name, desc, tags, deps, ai }
      (keyLine .visibility (visibility.map Visibility.name)) =
      .ok { id, name, desc, tags, deps, ai, visibility } :=
    applyAll_line (fun x => { id, name, desc, tags, deps, ai, visibility := x }) fun v _ => by
      simp only [Record.apply, scalarOf_of_isPlainText (isPlainText_visibility v),
        Visibility.ofName?_name]
      rfl
  have hversion : applyAll { id, name, desc, tags, deps, ai, visibility }
      (keyLine .version version) = .ok { id, name, desc, tags, deps, ai, visibility, version } :=
    applyAll_line_text (fun x => { id, name, desc, tags, deps, ai, visibility, version := x })
      fun s hs => by simp only [Record.apply, scalarOf_of_isPlainText (h.version s hs)]
  have hphase : applyAll { id, name, desc, tags, deps, ai, visibility, version }
      (keyLine .phase (phase.map showInt)) =
      .ok { id, name, desc, tags, deps, ai, visibility, version, phase } :=
    applyAll_line (fun x => { id, name, desc, tags, deps, ai, visibility, version, phase := x })
      fun n hn => by
        simp only [Record.apply, leadingInt?_showInt (h.phase n hn)]
        rfl
  have hstatus : applyAll { id, name, desc, tags, deps, ai, visibility, version, phase }
      (keyLine .status (status.map Status.name)) =
      .ok { id, name, desc, tags, deps, ai, visibility, version, phase, status } :=
    applyAll_line
      (fun x => { id, name, desc, tags, deps, ai, visibility, version, phase, status := x })
      fun s _ => by
        simp only [Record.apply, scalarOf_of_isPlainText (isPlainText_status s),
          Status.ofName?_name]
        rfl
  simp only [Record.written, List.flatten_cons, List.flatten_nil, List.append_nil,
    applyAll_append, hid, hname, hdesc, htags, hdeps, hai, hvisibility, hversion, hphase, hstatus,
    ok_bind]

/-! ### Writing -/

/-- The members of the document of a record, those that are not set included. -/
def Record.parts (r : Record) : List (String × Option Json) := [
  ("id", r.id.map .str),
  ("name", r.name.map .str),
  ("desc", r.desc.map .str),
  ("tags", r.tags.map Json.strings),
  ("deps", r.deps.map Dependencies.toJson),
  ("ai", r.ai.map fun h => (h.map Json.str).toJson),
  ("visibility", r.visibility.map fun v => .str v.name),
  ("version", r.version.map .str),
  ("phase", r.phase.map .int),
  ("status", r.status.map fun s => .str s.name)]

theorem Record.nodup_keys_parts (r : Record) : (Table.keys r.parts).Nodup := by
  simp [Table.keys, Record.parts]

/-- The lines of one field, if it is set. -/
def linesUnder (key : String) (value : Option Json) : Json.Shaped (List String) :=
  match value.bind Json.present with
  | some v => Writer.linesOf key v
  | none => .ok []

/-- A field that is set gives a line. -/
theorem linesUnder_map {α : Type} {key : String} {k : FieldKey} {x : Option α} {value : α → Json}
    {text : α → String} (hpresent : ∀ a, (value a).present = some (value a))
    (h : ∀ a ∈ x, Writer.linesOf key (value a) = .ok [asLine (k, text a)]) :
    linesUnder key (x.map value) = .ok ((keyLine k (x.map text)).map asLine) := by
  cases x with
  | none => rfl
  | some a =>
    rw [linesUnder, Option.map_some, Option.bind_some, hpresent]
    exact h a rfl

theorem linesUnder_text {key : String} {k : FieldKey} (x : Option String)
    (h : ∀ s, Writer.linesOf key (.str s) = .ok [asLine (k, s)]) :
    linesUnder key (x.map .str) = .ok ((keyLine k x).map asLine) := by
  have hline : linesUnder key (x.map .str) = .ok ((keyLine k (x.map id)).map asLine) :=
    linesUnder_map (fun _ => rfl) fun s _ => h s
  rwa [Option.map_id_apply] at hline

theorem joinedItems_isEmpty {items : List String} (h : ∀ t ∈ items, IsItemText t)
    (hne : items ≠ []) : (joinedItems items).isEmpty = false := by
  rw [Bool.eq_false_iff]
  intro hempty
  rw [String.isEmpty_iff] at hempty
  apply hne
  rw [← listOf_joinedItems h, hempty]
  decide

theorem linesUnder_tags (tags : Option (List String)) :
    linesUnder "tags" (tags.map Json.strings) =
      .ok ((keyLine .tags (tags.map joinedItems)).map asLine) := by
  apply linesUnder_map
  · intro l
    rfl
  · intro l _
    have hline : Writer.linesOf "tags" (Json.strings l) =
        (Json.joined "," (Json.strings l)).map fun t => [Writer.fieldLine "tags" t] := rfl
    rw [hline, joined_strings]
    rfl

theorem linesUnder_deps {deps : Option Dependencies} (h : ∀ d ∈ deps, d.IsPlain) :
    linesUnder "deps" (deps.map Dependencies.toJson) =
      .ok ((keyLine .deps (deps.map fun d => joinedItems d.items)).map asLine) := by
  apply linesUnder_map
  · intro d
    cases d <;> rfl
  · intro d hd
    have hline : Writer.linesOf "deps" d.toJson = (Writer.depsText d.toJson).map fun t =>
        if t.isEmpty then [] else [Writer.fieldLine "deps" t] := rfl
    have hitems := joinedItems_isEmpty (h d hd).isItemText (h d hd).items_ne_nil
    rw [hline, depsText_toJson, Except.map, hitems]
    rfl

theorem linesUnder_ai {ai : Option (Hint String)} (h : ∀ hint ∈ ai, hint.IsPlain) :
    linesUnder "ai" (ai.map fun hint => (hint.map Json.str).toJson) =
      .ok (((ai.map Hint.written).getD []).map asLine) := by
  cases ai with
  | none => rfl
  | some hint =>
    cases hint with
    | text s => rfl
    | parts p =>
      obtain ⟨fields, hjson, hlines⟩ := hintLines_toJson p (by
        intro hempty
        exact ((h _ rfl).2.2.2 [] hempty).1 rfl)
      rw [linesUnder, Option.map_some, Option.bind_some, hjson]
      exact hlines

/-- The lines of a document are those of its members, one after another. -/
theorem documentLines_of_parts {r : Record} {lists : List (List String)}
    (h : List.Forall₂ (fun p ls => linesUnder p.1 p.2 = .ok ls) r.parts lists) :
    r.toJson.members >>= Writer.documentLines = .ok lists.flatten := by
  obtain ⟨fields, hjson, hget⟩ : ∃ fields, r.toJson = .obj fields ∧
      ∀ key, Table.get? key fields = (Table.get? key r.parts).join :=
    ⟨_, rfl, get?_objOf r.nodup_keys_parts⟩
  have hfound : ∀ p ∈ r.parts, Table.get? p.1 fields = p.2 := by
    intro p hp
    rw [hget, Table.get?_of_mem r.nodup_keys_parts hp, Option.join_some]
  have hlines : List.Forall₂ (fun p ls => linesUnder p.1 (Table.get? p.1 fields) = .ok ls)
      r.parts lists := by
    apply ((List.forall₂_and_left _ _).mpr ⟨hfound, h⟩).imp
    rintro p ls ⟨hp, hls⟩
    rwa [hp]
  have hlists : Writer.documentLines fields =
      ((r.parts.map (·.1)).mapM fun key => linesUnder key (Table.get? key fields)).map
        List.flatten := rfl
  rw [hjson, Json.members, ok_bind, hlists, List.mapM_map, Function.comp_def,
    mapM_eq_ok_of_forall₂ hlines]
  rfl

/-- The lines of the document of a plain record are those of its keys and texts. -/
theorem documentLines_toJson {r : Record} (h : r.IsPlain) :
    r.toJson.members >>= Writer.documentLines = .ok (r.written.map asLine) := by
  rw [Record.written, List.map_flatten]
  apply documentLines_of_parts
  refine .cons ?_ <| .cons ?_ <| .cons ?_ <| .cons (linesUnder_tags r.tags) <|
    .cons (linesUnder_deps h.deps) <| .cons (linesUnder_ai h.ai) <| .cons ?_ <| .cons ?_ <|
    .cons ?_ <| .cons ?_ .nil
  · exact linesUnder_text r.id fun s => rfl
  · exact linesUnder_text r.name fun s => rfl
  · exact linesUnder_text r.desc fun s => rfl
  · exact linesUnder_map (fun _ => rfl) fun v _ => rfl
  · exact linesUnder_text r.version fun s => rfl
  · exact linesUnder_map (fun _ => rfl) fun n _ => rfl
  · exact linesUnder_map (fun _ => rfl) fun s _ => rfl

theorem isLineText_of_mem_line {k : FieldKey} {x : Option String}
    (h : ∀ s ∈ x, IsLineText s.toList) : ∀ p ∈ keyLine k x, IsLineText p.2.toList := by
  intro p hp
  obtain ⟨s, hs, rfl⟩ := List.mem_map.mp hp
  exact h s (Option.mem_toList.mp hs)

theorem isLineText_of_mem_line_map {α : Type} {k : FieldKey} {x : Option α} {text : α → String}
    (h : ∀ a ∈ x, IsLineText (text a).toList) :
    ∀ p ∈ keyLine k (x.map text), IsLineText p.2.toList := by
  apply isLineText_of_mem_line
  intro s hs
  obtain ⟨a, ha, rfl⟩ := Option.map_eq_some_iff.mp hs
  exact h a ha

theorem Hint.IsPlain.isLineText {h : Hint String} (hplain : h.IsPlain) :
    ∀ p ∈ h.written, IsLineText p.2.toList := by
  cases h with
  | text s =>
    apply isLineText_of_mem_line
    intro t ht
    obtain rfl : s = t := by simpa using ht
    exact hplain.1.toIsLineText
  | parts p =>
    obtain ⟨_, hsummary, husage, hexamples⟩ := hplain
    simp only [Hint.written, List.forall_mem_append]
    refine ⟨⟨?_, ?_⟩, ?_⟩
    · exact isLineText_of_mem_line fun s hs => (hsummary s hs).toIsLineText
    · exact isLineText_of_mem_line fun s hs => (husage s hs).toIsLineText
    · exact isLineText_of_mem_line_map fun l hl => isLineText_joinedItems (hexamples l hl).2

/-- Everything that is written of a plain record can stand on a line. -/
theorem Record.IsPlain.isLineText {r : Record} (h : r.IsPlain) :
    ∀ p ∈ r.written, IsLineText p.2.toList := by
  have hai : ∀ p ∈ (r.ai.map Hint.written).getD [], IsLineText p.2.toList := by
    cases hr : r.ai with
    | none => simp
    | some hint => exact (h.ai hint hr).isLineText
  simp only [Record.written, List.flatten_cons, List.flatten_nil, List.forall_mem_append,
    List.append_nil]
  refine ⟨?_, ?_, ?_, ?_, ?_, hai, ?_, ?_, ?_, ?_⟩
  · exact isLineText_of_mem_line fun s hs => (h.id s hs).toIsLineText
  · exact isLineText_of_mem_line fun s hs => (h.name s hs).toIsLineText
  · exact isLineText_of_mem_line fun s hs => (h.desc s hs).toIsLineText
  · exact isLineText_of_mem_line_map fun l hl => isLineText_joinedItems (h.tags l hl)
  · exact isLineText_of_mem_line_map fun d hd => isLineText_joinedItems (h.deps d hd).isItemText
  · exact isLineText_of_mem_line_map fun v _ => (isPlainText_visibility v).toIsLineText
  · exact isLineText_of_mem_line fun s hs => (h.version s hs).toIsLineText
  · exact isLineText_of_mem_line_map fun n _ => (isPlainText_showInt n).toIsLineText
  · exact isLineText_of_mem_line_map fun s _ => (isPlainText_status s).toIsLineText

/-- A plain record is read back from its comment, in either style. -/
theorem parseComment_renderComment (style : Writer.Style) {r : Record} (h : r.IsPlain) :
    ∃ text, r.toJson.members >>= Writer.renderComment style = .ok text ∧
      parseComment text.toList = .ok r := by
  refine ⟨Writer.comment style (r.written.map asLine), ?_, ?_⟩
  · have hrender : r.toJson.members >>= Writer.renderComment style =
        (r.toJson.members >>= Writer.documentLines).map (Writer.comment style) := rfl
    rw [hrender, documentLines_toJson h]
    rfl
  · have hfields : commentFields (Writer.comment style (r.written.map asLine)).toList = _ :=
      commentFields_comment style h.isLineText
    rw [parseComment, hfields, writeFields_spelling]
    exact applyAll_written h

theorem parseComment_renderComment_full :
    let r : Record := {
      id := some "auth.login", name := some "", desc := some "signs * in / \"now\" ü",
      tags := some ["a b", "c"],
      deps := some (.classified { runtime := ["build", "x:y"], optional := ["runtime:z"] }),
      ai := some (.parts { usage := some "summary: \x7bx", examples := some ["one", "two"] }),
      visibility := some .internal, version := some "1.0", phase := some (-12),
      status := some .exp }
    r.IsPlain ∧ ∃ text, r.toJson.members >>= Writer.renderComment .block = .ok text ∧
      parseComment text.toList = .ok r := by
  intro r
  have hplain : r.IsPlain := by
    refine ⟨by decide, by decide, by decide, by decide, ?_, ?_, by decide, ?_⟩
    · rintro d ⟨rfl⟩
      refine ⟨⟨.runtime, by decide⟩, fun c => ?_⟩
      cases c <;> decide
    · rintro h ⟨rfl⟩
      exact ⟨by decide, by decide, by decide, by decide⟩
    · rintro n ⟨rfl⟩
      exact (length_decimal_le (k := 2) (by decide) (by decide)).trans (by decide)
  exact ⟨hplain, parseComment_renderComment .block hplain⟩

end Marginalia
