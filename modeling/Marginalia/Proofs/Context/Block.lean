/-
  Marginalia/Proofs/Context/Block.lean
  ====================================
  **The JSON block of a prompt.**  A prompt in the JSON format holds its entries
  between two fences, and what stands between them is read as the entries, whatever
  their texts hold (`json_block_is_entries`).

  The first fence is the first backquote of the prompt.  The second one begins with a
  line break before a backquote, and in what is written no line begins with a
  backquote (`Unfenced`): a string has no line break of its own, and a line begins
  with blanks, a quote, a number or a bracket.  Texts of this kind may be joined, so
  that it is enough to look at the pieces of a written form.
-/
import Marginalia.Proofs.Context.Select
import Marginalia.Proofs.Context.Trim
import Marginalia.Proofs.Database.Stored
import Marginalia.Proofs.Text.Search
import Mathlib.Data.List.Chain

namespace Marginalia.Context

open Marginalia.Text

/-! ### Fences -/

/-- The line that opens a block. -/
def openingFence : List Char := ['\x60', '\x60', '\x60', 'j', 's', 'o', 'n', '\n']

/-- The line break and the fence that close a block. -/
def closingFence : List Char := ['\n', '\x60', '\x60', '\x60']

theorem cut?_openingFence {a b : List Char} (h : '\x60' ∉ a) :
    cut? openingFence (a ++ (openingFence ++ b)) = some (a, b) := by
  apply cut?_of_first
  intro t ht hne
  cases t with
  | nil => exact absurd rfl hne
  | cons c t =>
    have hc : '\x60' ≠ c := by
      rintro rfl
      exact h (ht.subset List.mem_cons_self)
    simp [startsWith, openingFence, List.isPrefixOf, hc]

/-! ### Lines without a fence -/

/-- No line of the text begins with a backquote. -/
def Unfenced (cs : List Char) : Prop := ('\n' :: cs).IsChain fun a b => a = '\n' → b ≠ '\x60'

theorem Unfenced.append {a b : List Char} (ha : Unfenced a) (hb : Unfenced b) :
    Unfenced (a ++ b) := by
  obtain ⟨hhead, hrest⟩ := List.isChain_cons.mp hb
  rw [Unfenced, ← List.cons_append, List.isChain_append]
  refine ⟨ha, hrest, ?_⟩
  intro _ _ c hc _
  exact hhead c hc rfl

theorem unfenced_of_not_mem {cs : List Char} (h : '\x60' ∉ cs) : Unfenced cs := by
  have hchain : ∀ first, (first :: cs).IsChain fun a b => a = '\n' → b ≠ '\x60' := by
    induction cs with
    | nil => exact fun first => .singleton first
    | cons c cs ih =>
      intro first
      obtain ⟨hc, hcs⟩ := List.ne_and_not_mem_of_not_mem_cons h
      exact .cons_cons (fun _ => Ne.symm hc) (ih hcs c)
  exact hchain '\n'

theorem unfenced_of_one_line {c : Char} {cs : List Char} (hc : c ≠ '\x60') (h : '\n' ∉ c :: cs) :
    Unfenced (c :: cs) := by
  have hchain : ∀ first, first ≠ '\n' → '\n' ∉ cs →
      (first :: cs).IsChain fun a b => a = '\n' → b ≠ '\x60' := by
    clear h
    induction cs with
    | nil => exact fun first _ _ => .singleton first
    | cons d cs ih =>
      intro first hfirst hcs
      obtain ⟨hd, hcs⟩ := List.ne_and_not_mem_of_not_mem_cons hcs
      exact .cons_cons (fun heq => absurd heq hfirst) (ih d (Ne.symm hd) hcs)
  obtain ⟨hfirst, hcs⟩ := List.ne_and_not_mem_of_not_mem_cons h
  exact .cons_cons (fun _ => hc) (hchain c (Ne.symm hfirst) hcs)

theorem Unfenced.of_isPrinted {cs : List Char} (h : Json.IsPrinted cs) : Unfenced cs := by
  induction h with
  | nil => exact .singleton _
  | mark h =>
    apply unfenced_of_not_mem
    intro hmem
    obtain rfl := List.mem_singleton.mp hmem
    exact absurd h (by decide)
  | word h =>
    simp only [List.mem_cons, List.not_mem_nil, or_false] at h
    apply unfenced_of_not_mem
    rcases h with rfl | rfl | rfl <;> decide
  | newline depth =>
    apply unfenced_of_not_mem
    simp [Json.Layout.newline, Json.Layout.indented]
  | int n =>
    apply unfenced_of_not_mem
    intro hmem
    exact forall_mem_decimalInt (P := fun c => c ≠ '\x60') (by decide) (by decide) n _ hmem rfl
  | str s => exact unfenced_of_one_line (by decide) (Json.not_mem_writeString (by decide) s)
  | append _ _ iha ihb => exact iha.append ihb

theorem cut?_closingFence {a b : List Char} (h : Unfenced a) :
    cut? closingFence (a ++ (closingFence ++ b)) = some (a, b) := by
  apply cut?_of_first
  intro t ht hne
  -- the fence can begin in the text only at a line break; what follows that is in the text, or is
  -- the line break of the fence itself
  have hchain := h.tail.suffix ht
  rcases t with _ | ⟨c, _ | ⟨d, t⟩⟩
  · exact absurd rfl hne
  · simp [startsWith, closingFence, List.isPrefixOf]
  · have hd : c = '\n' → '\x60' ≠ d := fun hc => Ne.symm ((List.isChain_cons_cons.mp hchain).1 hc)
    by_cases hc : '\n' = c
    · simp [startsWith, closingFence, List.isPrefixOf, hd hc.symm]
    · simp [startsWith, closingFence, List.isPrefixOf, hc]

/-! ### The text of a prompt -/

theorem intercalate_newline_append (ls : List (List Char)) {ms : List (List Char)} (h : ms ≠ []) :
    ['\n'].intercalate (ls ++ ms) =
      (ls.flatMap fun l => l ++ ['\n']) ++ ['\n'].intercalate ms := by
  induction ls with
  | nil => rfl
  | cons l ls ih =>
    have hne : ls ++ ms ≠ [] := by simp [h]
    obtain ⟨k, ks, hks⟩ := List.exists_cons_of_ne_nil hne
    rw [List.cons_append, hks, List.intercalate_cons_cons, ← hks, ih]
    simp

/-- The lines of a prompt in the JSON format before its block. -/
def linesBefore (t : Template) : List String :=
  (if t.preamble.isEmpty then [] else [t.preamble, ""]) ++ ["## MetaMode Context (JSON)", ""]

/-- The lines of the block. -/
def blockLines (entries : List (List (String × Json))) : List String :=
  ["\x60\x60\x60json", Json.render .indented (.arr (entries.map .obj)), "\x60\x60\x60"]

/-- The lines after the block. -/
def linesAfter (t : Template) : List String :=
  "" :: if t.instruction.isEmpty then [] else ["## Instructions", "", t.instruction, ""]

/-- Lines with a line break after each. -/
def ended (lines : List String) : List Char :=
  (lines.map String.toList).flatMap fun l => l ++ ['\n']

theorem ended_blockLines (entries : List (List (String × Json))) :
    ended (blockLines entries) =
      openingFence ++ (Json.write .indented 0 (.arr (entries.map .obj)) ++
        (closingFence ++ ['\n'])) := by
  simp [ended, blockLines, openingFence, closingFence, Json.render]

/-- A prompt in the JSON format is made of a frame and the written entries. -/
theorem exists_toList_promptText (t : Template) (entries : List (List (String × Json))) :
    ∃ after, (promptText t .json entries).toList =
      ended (linesBefore t) ++ (openingFence ++
        (Json.write .indented 0 (.arr (entries.map .obj)) ++ (closingFence ++ after))) := by
  have hlines : promptText t .json entries =
      String.intercalate "\n" (linesBefore t ++ (blockLines entries ++ linesAfter t)) := by
    simp [promptText, bodyLines, linesBefore, blockLines, linesAfter]
  have hbreak : "\n".toList = ['\n'] := rfl
  have hafter : (linesAfter t).map String.toList ≠ [] := by simp [linesAfter]
  refine ⟨'\n' :: ['\n'].intercalate ((linesAfter t).map String.toList), ?_⟩
  rw [hlines, String.toList_intercalate, hbreak, List.map_append, List.map_append,
    intercalate_newline_append _ (by simp [hafter]), intercalate_newline_append _ hafter,
    ← ended, ← ended, ended_blockLines]
  simp

theorem not_mem_toList_ofList {c : Char} {cs : List Char} (h : cs.contains c = false) :
    c ∉ (String.ofList cs).toList := by
  rw [String.toList_ofList]
  simpa using h

theorem Agent.not_mem_preamble (a : Agent) : '\x60' ∉ a.template.preamble.toList := by
  cases a
  all_goals
    simp only [Agent.template, String.toList_append, List.mem_append, not_or]
    and_intros
    all_goals exact not_mem_toList_ofList rfl

/-- Nothing before the block has a backquote. -/
theorem not_mem_linesBefore (a : Agent) : '\x60' ∉ ended (linesBefore a.template) := by
  have hline : ∀ line ∈ linesBefore a.template, '\x60' ∉ line.toList := by
    intro line hline
    rcases List.mem_append.mp hline with hline | hline
    · split at hline
      · exact absurd hline List.not_mem_nil
      · simp only [List.mem_cons, List.not_mem_nil, or_false] at hline
        rcases hline with rfl | rfl
        · exact a.not_mem_preamble
        · exact not_mem_toList_ofList rfl
    · simp only [List.mem_cons, List.not_mem_nil, or_false] at hline
      rcases hline with rfl | rfl
      · exact not_mem_toList_ofList rfl
      · exact not_mem_toList_ofList rfl
  intro hmem
  obtain ⟨l, hl, hmem⟩ := List.mem_flatMap.mp hmem
  obtain ⟨line, hmap, rfl⟩ := List.mem_map.mp hl
  exact hline line hmap (by simpa using hmem)

/-! ### Entries of a prompt -/

/-- Numbers with more than `maxDigits` digits cannot be written. -/
def isWritable : Json → Bool
  | .int n => (decimal n.natAbs).length ≤ maxDigits
  | _ => true

theorem mem_select {κ : Type} {db : Database String κ} {o : Options String} {e : Entry String}
    (h : e ∈ (select db o).1) : e ∈ Table.values db.entries := by
  have hall : e ∈ initialSelection db o ++
      (if o.includeDeps then (needed db (initialSelection db o)).filterMap db.entry? else []) := by
    unfold select at h
    dsimp only at h
    split at h
    · unfold takeInt at h
      split at h <;> exact List.mem_of_mem_take h
    · exact h
  rcases List.mem_append.mp hall with hstart | hadded
  · exact mem_initialSelection hstart
  · split at hadded
    · obtain ⟨x, _, hx⟩ := List.mem_filterMap.mp hadded
      exact List.mem_map.mpr ⟨(x, e), Table.mem_of_get?_eq_some hx, rfl⟩
    · exact absurd hadded List.not_mem_nil

theorem mem_of_mem_pick {names : List String} {fields : List (String × Json)} {p : String × Json}
    (h : p ∈ pick names fields) : p.1 ∈ names ∧ p ∈ fields := by
  obtain ⟨n, hn, hp⟩ := List.mem_filterMap.mp (Table.mem_of_mem_ofPairs h)
  obtain ⟨v, hv, rfl⟩ := Option.map_eq_some_iff.mp hp
  exact ⟨hn, Table.mem_of_get?_eq_some hv⟩

theorem nodup_keys_contextEntry (names : List String) (e : Entry String) :
    (Table.keys (contextEntry names e)).Nodup := by
  rw [contextEntry, Table.keys, List.map_append]
  apply List.nodup_append.mpr
  refine ⟨Table.nodup_keys_ofPairs _, Table.nodup_keys_ofPairs _, ?_⟩
  intro k hk k' hk' heq
  obtain ⟨p, hp, rfl⟩ := List.mem_map.mp hk
  obtain ⟨q, hq, rfl⟩ := List.mem_map.mp hk'
  have hfixed := (mem_of_mem_pick hp).1
  have hother := (List.mem_filter.mp (mem_of_mem_pick hq).1).2
  simp [← heq, hfixed] at hother

/-- Every member of an entry is a number, or one of the entry with its numbers blotted out. -/
theorem mem_fields_cases {e : Entry String} {p : String × Json} (h : p ∈ e.fields) :
    (∃ n, p.2 = .int n) ∨ p ∈ ({ e with line := 0, phase := none } : Entry String).fields := by
  have hparts : ∀ q ∈ (e.map Json.str).parts, (∀ v ∈ q.2, ∃ n, v = .int n) ∨
      q ∈ (({ e with line := 0, phase := none } : Entry String).map Json.str).parts := by
    intro q hq
    simp only [Entry.parts, Entry.map, List.mem_cons, List.not_mem_nil, or_false] at hq ⊢
    rcases hq with rfl | rfl | rfl | rfl | rfl | rfl | rfl | rfl | rfl | rfl | rfl | rfl | rfl | rfl
    all_goals simp
  obtain ⟨q, hq, hp⟩ := List.mem_filterMap.mp h
  obtain ⟨v, hv, rfl⟩ := Option.map_eq_some_iff.mp hp
  rcases hparts q hq with hnumber | hsame
  · exact .inl (hnumber v hv)
  · exact .inr (List.mem_filterMap.mpr ⟨q, hsame, hp⟩)

theorem isExact_of_mem_fields {e : Entry String} (hdeps : (Table.keys e.deps).Nodup)
    {p : String × Json} (h : p ∈ e.fields) (hp : isWritable p.2 = true) :
    Json.IsExact 2 p.2 := by
  rcases mem_fields_cases h with ⟨n, hn⟩ | hsame
  · rw [hn, isWritable, decide_eq_true_eq] at hp
    rw [hn]
    exact .int hp
  · have hzero : IsShort 0 := isShort_of_natAbs_lt (Nat.pow_pos (by decide))
    have hexact : Json.IsExact 3
        (({ e with line := 0, phase := none } : Entry String).map Json.str).toJson :=
      Entry.isExact_toJson hdeps hzero (by simp)
    cases hexact with
    | obj _ hfields => exact hfields p hsame

theorem isExact_contextEntry {e : Entry String} (hdeps : (Table.keys e.deps).Nodup)
    {names : List String} (h : ∀ p ∈ contextEntry names e, isWritable p.2 = true) :
    Json.IsExact 3 (.obj (contextEntry names e)) := by
  apply Json.IsExact.obj (nodup_keys_contextEntry names e)
  intro p hp
  have hmem : p ∈ e.fields := by
    rcases List.mem_append.mp hp with hfixed | hother
    · exact (mem_of_mem_pick hfixed).2
    · exact (mem_of_mem_pick hother).2
  exact isExact_of_mem_fields hdeps hmem (h p hp)

/-! ### The block -/

theorem prompt_build {κ : Type} (db : Database String κ) (o : Options String) :
    (build db o).prompt = promptText o.agent.template o.format (build db o).entries := rfl

theorem exists_of_mem_entries_build {κ : Type} {db : Database String κ} {o : Options String}
    {fields : List (String × Json)} (h : fields ∈ (build db o).entries) :
    ∃ e ∈ Table.values db.entries, fields = contextEntry o.shownFields e := by
  have hall : fields ∈ (select db o).1.map (contextEntry o.shownFields) := List.mem_of_mem_take h
  obtain ⟨e, he, rfl⟩ := List.mem_map.mp hall
  exact ⟨e, mem_select he, rfl⟩

/-- In a prompt in the JSON format what stands between the first opening fence and the first closing
fence after it is read as the entries of the prompt, whatever their texts hold.  The entries have to
be such that they can be written: whole numbers cannot if they have more than `maxDigits` digits. -/
theorem json_block_is_entries {b : Base} {stamp : Stamp} {corpus : List Extraction} {db : Compiled}
    (h : compile b stamp corpus = .ok db) {o : Options String} (hformat : o.format = .json)
    (hnumbers : ∀ fields ∈ (build db o).entries, ∀ p ∈ fields, isWritable p.2 = true) :
    ∃ before rest body after,
      cut? openingFence (build db o).prompt.toList = some (before, rest) ∧
      cut? closingFence rest = some (body, after) ∧
      Json.read body = .ok (.arr ((build db o).entries.map .obj)) := by
  have hexact : Json.IsExact 4 (.arr ((build db o).entries.map .obj)) := by
    apply Json.IsExact.arr
    intro v hv
    obtain ⟨fields, hfields, rfl⟩ := List.mem_map.mp hv
    have hwritable := hnumbers fields hfields
    obtain ⟨e, he, rfl⟩ := exists_of_mem_entries_build hfields
    obtain ⟨p, hp, rfl⟩ := List.mem_map.mp he
    exact isExact_contextEntry ((keysDistinct_of_compile h).deps p hp) hwritable
  obtain ⟨after, hprompt⟩ :=
    exists_toList_promptText o.agent.template (build db o).entries
  rw [← hformat, ← prompt_build] at hprompt
  have hopening := cut?_openingFence (not_mem_linesBefore o.agent)
    (b := Json.write .indented 0 (.arr ((build db o).entries.map .obj)) ++ (closingFence ++ after))
  rw [← hprompt] at hopening
  have hclosing : Unfenced (Json.write .indented 0 (.arr ((build db o).entries.map .obj))) :=
    .of_isPrinted (Json.isPrinted_write hexact 0)
  refine ⟨_, _, _, _, hopening, cut?_closingFence hclosing, ?_⟩
  have hbreaks : Json.Breaks [] := by simp [Json.Breaks]
  have htokens := Json.tokens_write hexact 0 hbreaks
  have hend : Json.tokens [] = [] := rfl
  rw [List.append_nil, hend, List.append_nil] at htokens
  rw [Json.read, Json.readWithin, htokens, Json.ofTokens_tokensOf hexact (by decide)]

/-- Texts that try to close the block: with fences on lines of their own, quotes, a backslash and a
control character. -/
def fencedCorpus : List Extraction :=
  [⟨"m.ts", [
      ⟨{ id := "a\n\x60\x60\x60", desc := "\n\x60\x60\x60\n\x60\x60\x60json\n[]\n\x60\x60\x60",
         tags := some ["\"", "\\", "\x60"], phase := some (-3) }, .comment, 1, "", none⟩], []⟩]

theorem json_block_is_entries_fenced :
    ∃ db, compile ⟨[], none⟩ ⟨defaultVersion, ""⟩ fencedCorpus = .ok db ∧
      ∃ before rest body after,
        cut? openingFence (build db { format := .json }).prompt.toList = some (before, rest) ∧
        cut? closingFence rest = some (body, after) ∧
        Json.read body = .ok (.arr ((build db { format := .json }).entries.map .obj)) := by
  obtain ⟨db, h, hnumbers⟩ : ∃ db, compile ⟨[], none⟩ ⟨defaultVersion, ""⟩ fencedCorpus = .ok db ∧
      ∀ fields ∈ (build db { format := .json }).entries, ∀ p ∈ fields, isWritable p.2 = true :=
    ⟨_, rfl, by decide +kernel⟩
  exact ⟨db, h, json_block_is_entries h rfl hnumbers⟩

end Marginalia.Context
