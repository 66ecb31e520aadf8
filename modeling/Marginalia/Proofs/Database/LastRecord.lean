/-
  Marginalia/Proofs/Database/LastRecord.lean
  ==========================================
  **Which annotation an entry is made of.**  The annotations of a corpus are kept
  by key, and those without an id have keys too: the name of their file with the
  entity or the line.  Nothing keeps such a key apart from an id, so an annotation
  without an id can take the place of one that has it; it is then left out of the
  database together with the id.

    * No id has two entries, and every entry is made of the last annotation that
      carries its id.
    * An id of the corpus is missing in the database exactly if, after the last
      annotation that carries it, another one without an id has it as its key
      (`compile_keeps_last_unless_shadowed`, `compile_loses_shadowed_id`).
-/
import Marginalia.Proofs.Database.Compile

namespace Marginalia

/-! ### The index by key -/

theorem get?_annotationIndex (corpus : List Extraction) (key : String) :
    Table.get? key (annotationIndex corpus) =
      ((corpusAnnotations corpus).filter fun p => p.1.key p.2 == key).getLast? := by
  rw [annotationIndex, Table.get?_ofPairs, List.filter_map, List.getLast?_map, Option.map_map]
  exact congrFun Option.map_id _

theorem get?_idIndex (corpus : List Extraction) (key : String) :
    Table.get? key (idIndex corpus) =
      (Table.get? key (annotationIndex corpus)).filter fun p => p.1.record.id?.isSome :=
  Table.get?_filter (Table.nodup_keys_ofPairs _) _ key

/-- What the entries of a corpus hold under an id is made of what the index holds there. -/
theorem exists_get?_of_forall₂ {α β : Type} {R : α → β → Prop} {t : Table String α}
    {t' : Table String β} (h : List.Forall₂ (fun p q => p.1 = q.1 ∧ R p.2 q.2) t t') {key : String}
    {v : α} (hv : Table.get? key t = some v) : ∃ w, Table.get? key t' = some w ∧ R v w := by
  induction h with
  | nil => simp [Table.get?] at hv
  | @cons p q t t' hpq _ ih =>
    obtain ⟨k, v'⟩ := p
    obtain ⟨k', w⟩ := q
    obtain ⟨rfl, hR⟩ : k = k' ∧ R v' w := hpq
    by_cases hk : k = key
    · simp only [Table.get?, hk, beq_self_eq_true, if_true, Option.some.injEq] at hv ⊢
      exact ⟨w, rfl, hv ▸ hR⟩
    · simp only [Table.get?, beq_iff_eq, hk, if_false] at hv ⊢
      exact ih hv

/-! ### Keys that take the place of ids -/

/-- An annotation without an id whose key is this id. -/
def Shadows (id : String) (p : Note × String) : Prop :=
  p.1.record.id? = none ∧ p.1.key p.2 = id

/-- An annotation whose key is an id carries the id or shadows it. -/
theorem key_eq_iff {id : String} {p : Note × String} :
    p.1.key p.2 = id ↔ p.1.record.id? = some id ∨ Shadows id p := by
  constructor
  · intro hkey
    cases hid : p.1.record.id? with
    | none => exact .inr ⟨hid, hkey⟩
    | some id' =>
      rw [Note.key_of_id? hid] at hkey
      exact .inl (congrArg some hkey)
  · rintro (hid | hshadows)
    · exact Note.key_of_id? hid p.2
    · exact hshadows.2

section

variable {corpus : List Extraction} {before after : List (Note × String)} {a : Note}
  {path id : String}

/-- What the index holds under an id that no later annotation takes as its key. -/
theorem get?_idIndex_of_not_shadowed
    (hcorpus : corpusAnnotations corpus = before ++ (a, path) :: after)
    (hid : a.record.id? = some id) (hlast : ∀ p ∈ after, p.1.record.id? ≠ some id)
    (h : ∀ p ∈ after, ¬ Shadows id p) : Table.get? id (idIndex corpus) = some (a, path) := by
  have hafter : (after.filter fun p => p.1.key p.2 == id) = [] := by
    apply List.filter_eq_nil_iff.mpr
    intro p hp hkey
    rcases key_eq_iff.mp (beq_iff_eq.mp hkey) with hcarries | hshadows
    · exact hlast p hp hcarries
    · exact h p hp hshadows
  have hkey : (a.key path == id) = true := beq_iff_eq.mpr (Note.key_of_id? hid path)
  rw [get?_idIndex, get?_annotationIndex, hcorpus, List.filter_append, List.filter_cons,
    if_pos hkey, hafter, List.getLast?_append]
  simp [Option.filter, hid]

theorem get?_idIndex_of_shadowed
    (hcorpus : corpusAnnotations corpus = before ++ (a, path) :: after)
    (hlast : ∀ p ∈ after, p.1.record.id? ≠ some id) {p : Note × String} (hp : p ∈ after)
    (h : Shadows id p) : Table.get? id (idIndex corpus) = none := by
  obtain ⟨q, hq⟩ : ∃ q, (after.filter fun p => p.1.key p.2 == id).getLast? = some q := by
    apply Option.ne_none_iff_exists'.mp
    rw [Ne, List.getLast?_eq_none_iff, List.filter_eq_nil_iff]
    intro hnone
    exact hnone p hp (beq_iff_eq.mpr h.2)
  obtain ⟨hmem, hkey⟩ := List.mem_filter.mp (List.mem_of_getLast? hq)
  -- the last annotation with this key does not carry the id, so it has none
  have hnone : q.1.record.id? = none :=
    ((key_eq_iff.mp (beq_iff_eq.mp hkey)).resolve_left (hlast q hmem)).1
  have hsplit : corpusAnnotations corpus = (before ++ [(a, path)]) ++ after := by
    rw [hcorpus, List.append_assoc]
    rfl
  rw [get?_idIndex, get?_annotationIndex, hsplit, List.filter_append, List.getLast?_append, hq]
  simp [Option.filter, hnone]

end

/-! ### What compiling keeps -/

/-- In a compiled database no id stands twice, and every id is one of the corpus.  Take the last
annotation that carries an id: the id is in the database exactly if no later annotation without an
id has it as its key, and its entry is then made of that annotation and its file. -/
theorem compile_keeps_last_unless_shadowed {b : Base} {stamp : Stamp} {corpus : List Extraction}
    {db : Compiled} (h : compile b stamp corpus = .ok db) :
    db.ids.Nodup ∧ db.ids = Table.keys db.entries ∧
    (∀ id ∈ db.ids, ∃ p ∈ corpusAnnotations corpus, p.1.record.id? = some id) ∧
    ∀ before a path after id, corpusAnnotations corpus = before ++ (a, path) :: after →
      a.record.id? = some id → (∀ p ∈ after, p.1.record.id? ≠ some id) →
        (id ∈ db.ids ↔ ∀ p ∈ after, ¬ Shadows id p) ∧
        (id ∈ db.ids → ∃ e, Table.get? id db.entries = some e ∧ a.entry b path = .ok e) := by
  have hentries := (compile_eq_ok h).1
  have hids := ids_of_compile h
  refine ⟨hids ▸ nodup_keys_of_compileEntries hentries, hids, ?_, ?_⟩
  · intro id hid
    rw [hids] at hid
    obtain ⟨⟨id', e⟩, hmem, rfl⟩ := List.mem_map.mp hid
    obtain ⟨a, path, hnote, hcarries, _⟩ := exists_note_of_mem_entries hentries hmem
    exact ⟨(a, path), hnote, hcarries⟩
  · intro before a path after id hcorpus hid hlast
    have hmem : id ∈ db.ids ↔ ∀ p ∈ after, ¬ Shadows id p := by
      rw [hids, keys_of_compileEntries hentries]
      constructor
      · intro hkey p hp hshadows
        exact Table.get?_eq_none_iff.mp (get?_idIndex_of_shadowed hcorpus hlast hp hshadows) hkey
      · intro hno
        by_contra hkey
        rw [← Table.get?_eq_none_iff, get?_idIndex_of_not_shadowed hcorpus hid hlast hno] at hkey
        simp at hkey
    refine ⟨hmem, fun hkept => ?_⟩
    exact exists_get?_of_forall₂ (R := fun p e => p.1.entry b p.2 = .ok e)
      (forall₂_of_compileEntries hentries)
      (get?_idIndex_of_not_shadowed hcorpus hid hlast (hmem.mp hkept))

/-- Two annotations of one id, and a third one without an id whose entity has that name. -/
def repeatedCorpus : List Extraction :=
  [⟨"one.ts", [⟨{ id := "dup", desc := "First" }, .comment, 1, "", none⟩], []⟩,
   ⟨"two.ts", [⟨{ id := "dup", desc := "Second" }, .comment, 1, "", none⟩,
     ⟨{ desc := "No id" }, .comment, 3, "", some "dup"⟩], []⟩]

theorem compile_keeps_last_unless_shadowed_repeated :
    ∃ db, compile ⟨[], none⟩ ⟨defaultVersion, ""⟩ repeatedCorpus = .ok db ∧ "dup" ∈ db.ids ∧
      ∃ e, Table.get? "dup" db.entries = some e ∧ e.desc = some "Second" ∧
        e.filePath = "two.ts" := by
  obtain ⟨db, h⟩ : ∃ db, compile ⟨[], none⟩ ⟨defaultVersion, ""⟩ repeatedCorpus = .ok db :=
    exists_compile _ (.inl rfl)
  obtain ⟨_, _, _, hkeeps⟩ := compile_keeps_last_unless_shadowed h
  obtain ⟨hmem, hentry⟩ := hkeeps
    [(⟨{ id := "dup", desc := "First" }, .comment, 1, "", none⟩, "one.ts")]
    ⟨{ id := "dup", desc := "Second" }, .comment, 1, "", none⟩ "two.ts"
    [(⟨{ desc := "No id" }, .comment, 3, "", some "dup"⟩, "two.ts")] "dup" rfl
    (by decide +kernel) (by decide +kernel)
  have hkept : "dup" ∈ db.ids := by
    rw [hmem]
    intro p hp hshadows
    obtain rfl := List.mem_singleton.mp hp
    exact absurd hshadows.2 (by decide +kernel)
  obtain ⟨e, hget, he⟩ := hentry hkept
  obtain ⟨_, hpath, heq⟩ := Note.entry_eq_ok he
  have hshown : Base.show ⟨[], none⟩ "two.ts" = .ok "two.ts" :=
    congrArg Except.ok (by decide +kernel)
  refine ⟨db, h, hkept, e, hget, by rw [heq], ?_⟩
  exact Except.ok.inj (hpath.symm.trans hshown)

/-- An annotation of another file shadows the id in front of it. -/
def shadowedCorpus : List Extraction :=
  [⟨"lib/b.ts", [⟨{ id := "a.ts:run", desc := "Runs" }, .comment, 1, "", none⟩], []⟩,
   ⟨"src/a.ts", [⟨{ desc := "No id" }, .comment, 1, "", some "run"⟩], []⟩]

/-- Not every id of a corpus is in the database: here the only one is lost. -/
theorem compile_loses_shadowed_id :
    (∃ p ∈ corpusAnnotations shadowedCorpus, p.1.record.id? = some "a.ts:run") ∧
    ∃ db, compile ⟨[], none⟩ ⟨defaultVersion, ""⟩ shadowedCorpus = .ok db ∧ db.ids = [] := by
  obtain ⟨db, h⟩ : ∃ db, compile ⟨[], none⟩ ⟨defaultVersion, ""⟩ shadowedCorpus = .ok db :=
    exists_compile _ (.inl rfl)
  refine ⟨by decide +kernel, db, h, ?_⟩
  rw [ids_of_compile h, keys_of_compileEntries (compile_eq_ok h).1]
  decide +kernel

end Marginalia
