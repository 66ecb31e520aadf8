/-
  Marginalia/Proofs/Archive/RoundTrip.lean
  ========================================
  **A stored database reads back.**  The text of a compiled database is read as the
  database (`decode_encode`).  Its two files are found where they were written, with
  the text as it was: it has no carriage return, it ends in a brace, so only the
  line feed after it is taken off, and the digest has no blanks.  Hence the folder
  reads as the database and its digest is right (`reads_back_of_compile`).
-/
import Marginalia.Archive
import Marginalia.Proofs.Database.Stored
import Marginalia.Proofs.Text.Utf8
import Marginalia.Proofs.Workspace.Writing

namespace Marginalia.Archive

open Marginalia.Text

/-! ### Texts -/

theorem hasPath_of_find {w : Workspace} {p : Path} {t : FileTree} (h : w.find p = .ok t) :
    w.hasPath p = true := by
  simp [Workspace.hasPath, h, Except.toBool]

/-- A text without carriage returns is read as it was written. -/
theorem readText_of_find {w : Workspace} {p : Path} {cs : List Char}
    (h : w.find p = .ok (.file (encodeUtf8 cs))) (hcs : '\r' ∉ cs) : w.readText p = .ok cs := by
  have hexact : w.readExact p = .ok cs := by
    rw [Workspace.readExact, Workspace.readBytes, h, ok_bind, decodeUtf8_encodeUtf8]
    rfl
  rw [Workspace.readText, hexact, ok_bind, normalizeNewlines_of_no_return hcs]

theorem dropFinalNewlines_concat (cs : List Char) :
    dropFinalNewlines (cs ++ ['}'] ++ ['\n']) = cs ++ ['}'] := by
  simp [dropFinalNewlines, List.dropWhile]

theorem trim_concat_newline {cs : List Char} (h : ∀ c ∈ cs, isBlank c = false) :
    trim (cs ++ ['\n']) = cs := by
  have hright : ∀ {ds : List Char}, (∀ c ∈ ds, isBlank c = false) → ds.dropWhile isBlank = ds := by
    intro ds hds
    cases ds with
    | nil => rfl
    | cons d ds => simp [List.dropWhile, hds d List.mem_cons_self]
  have hnewline : isBlank '\n' = true := by decide
  cases cs with
  | nil => simp [trim, trimLeft, trimRight, List.dropWhile, hnewline]
  | cons c cs =>
    have hleft : trimLeft (c :: cs ++ ['\n']) = c :: cs ++ ['\n'] :=
      trimLeft_cons_of_not_blank _ (h c List.mem_cons_self)
    have hdrop : ((c :: cs ++ ['\n']).reverse).dropWhile isBlank = (c :: cs).reverse := by
      rw [List.reverse_append, List.reverse_singleton, List.singleton_append,
        List.dropWhile_cons_of_pos hnewline]
      exact hright fun d hd => h d (List.mem_reverse.mp hd)
    rw [trim, hleft, trimRight, hdrop, List.reverse_reverse]

theorem exists_hexChar_of_mem_digest {cs : List Char} {c : Char} (h : c ∈ (digest cs).toList) :
    ∃ d < 16, c = hexChar d := by
  rw [digest, Digest.sha256Hex, String.toList_ofList] at h
  obtain ⟨byte, _, hc⟩ := List.mem_flatMap.mp h
  exact Json.exists_hexChar_of_mem hc

/-! ### The text of a database -/

theorem toList_encode (db : Stored) : (encode db).toList = Json.write .indented 0 db.toJson :=
  String.toList_ofList

/-- The text of a compiled database is read as the database wherever there is room for five
containers. -/
theorem decode_encode {db : Compiled} (hkeys : db.KeysDistinct) (hshort : db.IsShort)
    (hformat : db.build.format = databaseFormat) {limit : Nat} (hlimit : 5 ≤ limit)
    (path : String) : decode limit path ((encode db.stored).toList ++ ['\n']) = .ok db.stored := by
  have hread := Json.readWithin_write (Database.isExact_toJson hkeys hshort) hlimit 0
  have hfields := Database.ofJson_toJson (Database.isNormal_stored hkeys hshort)
  rw [toList_encode, decode, hread]
  have hname : formatOf [
      ("entries", .obj (Table.mapValues Entry.toJson db.stored.entries)),
      ("ids", .arr db.stored.ids),
      ("graph", db.stored.graph.toJson),
      ("stats", db.stored.stats.toJson),
      ("buildInfo", db.stored.build.toJson)] = .str databaseFormat := by
    have hbuild : db.stored.build.format = databaseFormat := hformat
    simp [formatOf, Table.get?, Build.toJson, hbuild]
  simp only [ofDocument, Database.toJson] at hfields ⊢
  simp only [hname, hfields, if_true]
  rfl

/-! ### The files of a database -/

/-- Writing makes the folder and leaves both files in it. -/
theorem write_run (db : Stored) {w made : Workspace} {folder : Path}
    (hcwd : w.tree.HasFolder w.cwd)
    (hmake : w.makeFrom (w.origin folder) folder.parts = .ok made)
    (hdatabase : made.isFolder (fileIn folder databaseName) = false)
    (hdigest : made.isFolder (fileIn folder digestName) = false) :
    ∃ w', (write db folder).run.run w =
        (.ok (fileIn folder databaseName, fileIn folder digestName), w') ∧
      w'.isFolder folder = true ∧
      w'.find (fileIn folder databaseName) =
        .ok (.file (encodeUtf8 ((encode db).toList ++ ['\n']))) ∧
      w'.find (fileIn folder digestName) =
        .ok (.file (encodeUtf8 ((digest (encode db).toList).toList ++ ['\n']))) := by
  obtain ⟨hmade, hfolder⟩ := Work.makeFolder_run hcwd hmake
  obtain ⟨w₁, hrun₁, hfolder₁, hfind₁, hother₁⟩ :=
    Work.writeFile_run (by decide) hfolder hdatabase (encodeUtf8 ((encode db).toList ++ ['\n']))
  have hfree : w₁.isFolder (fileIn folder digestName) = false := by
    rw [Workspace.isFolder, Workspace.folder?, fileIn, hother₁ digestName (by decide) (by decide)]
    exact hdigest
  obtain ⟨w₂, hrun₂, hfolder₂, hfind₂, hother₂⟩ :=
    Work.writeFile_run (by decide) hfolder₁ hfree
      (encodeUtf8 ((digest (encode db).toList).toList ++ ['\n']))
  refine ⟨w₂, ?_, hfolder₂, ?_, hfind₂⟩
  · have htext (cs : String) :
        encodeUtf8 (cs ++ "\n").toList = encodeUtf8 (cs.toList ++ ['\n']) := by
      rw [String.toList_append]
      rfl
    rw [← htext] at hrun₁ hrun₂
    exact (Work.bind_run hmade).trans ((Work.bind_run hrun₁).trans (Work.bind_run hrun₂))
  · rw [fileIn, hother₂ databaseName (by decide) (by decide)]
    exact hfind₁

/-- A compiled database that is written into a folder is read back from it, with every part the
same and in the same order, and its digest is right.  The folder has to be one that can be made and
has no folders in place of the two files.  Counts and lines are bounded only as far as numbers are
read at all: the extent has at most `maxDigits` digits. -/
theorem reads_back_of_compile {b : Base} {stamp : Stamp} {corpus : List Extraction} {db : Compiled}
    (h : compile b stamp corpus = .ok db) (hextent : corpusExtent corpus < 10 ^ maxDigits)
    (hphases : ∀ p ∈ corpusAnnotations corpus, ∀ n, p.1.record.phase = some n → IsShort n)
    {w made : Workspace} {folder : Path} (hcwd : w.tree.HasFolder w.cwd)
    (hmake : w.makeFrom (w.origin folder) folder.parts = .ok made)
    (hdatabase : made.isFolder (fileIn folder databaseName) = false)
    (hdigest : made.isFolder (fileIn folder digestName) = false) :
    ∃ w', (write db.stored folder).run.run w =
        (.ok (fileIn folder databaseName, fileIn folder digestName), w') ∧
      read w' folder = .ok db.stored ∧
      (∀ other : Compiled, read w' folder = .ok other.stored → other = db) ∧
      verify w' folder = .ok true := by
  have hkeys := keysDistinct_of_compile h
  have hshort := isShort_of_compile h hextent hphases
  have hformat : db.build.format = databaseFormat := by
    obtain ⟨entries, _, rfl⟩ := exists_entries_of_compile h
    rfl
  obtain ⟨w', hrun, hfolder, hfile, hfile'⟩ :=
    write_run db.stored hcwd hmake hdatabase hdigest
  obtain ⟨cs, hcs⟩ : ∃ cs, (encode db.stored).toList = cs ++ ['}'] := by
    rw [toList_encode]
    exact Json.exists_write_obj 0 _
  have htext : w'.readText (fileIn folder databaseName) =
      .ok ((encode db.stored).toList ++ ['\n']) := by
    apply readText_of_find hfile
    rw [toList_encode, List.mem_append, not_or]
    exact ⟨Json.not_mem_write (Database.isExact_toJson hkeys hshort) 0, by decide⟩
  have hexpected : w'.readText (fileIn folder digestName) =
      .ok ((digest (encode db.stored).toList).toList ++ ['\n']) := by
    apply readText_of_find hfile'
    rw [List.mem_append, not_or]
    refine ⟨fun hmem => ?_, by decide⟩
    obtain ⟨d, hd, hdigit⟩ := exists_hexChar_of_mem_digest hmem
    have hall : ∀ d < 16, '\r' ≠ hexChar d := by decide
    exact hall d hd hdigit
  have hread : read w' folder = .ok db.stored := by
    simp only [read, readWithin, hfolder, if_true, hasPath_of_find hfile, htext, ok_bind]
    exact decode_encode hkeys hshort hformat (by decide) _
  refine ⟨w', hrun, hread, ?_, ?_⟩
  · intro other hother
    rw [hread] at hother
    exact Database.stored_injective (Except.ok.inj hother).symm
  · have hblank : ∀ c ∈ (digest (encode db.stored).toList).toList, isBlank c = false := by
      intro c hc
      obtain ⟨d, hd, rfl⟩ := exists_hexChar_of_mem_digest hc
      have hall : ∀ d < 16, isBlank (hexChar d) = false := by decide
      exact hall d hd
    have hdrop : dropFinalNewlines ((encode db.stored).toList ++ ['\n']) =
        (encode db.stored).toList := by
      rw [hcs, dropFinalNewlines_concat]
    simp only [verify, hasPath_of_find hfile, hasPath_of_find hfile', Bool.and_self, if_true,
      htext, hexpected, ok_bind, hdrop, trim_concat_newline hblank, String.ofList_toList,
      beq_self_eq_true]

/-- Annotations with parts of every kind, text beyond ASCII and characters that are escaped. -/
def variedCorpus : List Extraction :=
  [⟨"src/a.ts", [
      ⟨{ id := "café", name := "Zoë \"q\"", desc := "line\r\nnext\t\u2028",
         tags := some ["ui", "ui"],
         deps := some (.classified { runtime := ["b", "gone"], optional := ["b"] }),
         ai := some (.parts { summary := "s", examples := some ["x"] }),
         visibility := some .internal, phase := some (-12), status := some .beta },
        .embedded, 3, "", some "run"⟩,
      ⟨{ id := "b", deps := some (.flat ["café"]), ai := some (.text "hint"), phase := some 2 },
        .comment, 9, "", none⟩], []⟩]

/-- A workspace in whose current directory nothing stands yet. -/
def emptyHome : Workspace := ⟨.folder [("home", .folder [])], ["home"]⟩

/-- The database of these is written into folders that are made for it. -/
theorem reads_back_of_compile_varied :
    ∃ db w', compile ⟨[], none⟩ ⟨defaultVersion, "now"⟩ variedCorpus = .ok db ∧
      (write db.stored (Path.mk "" ["out", "db"])).run.run emptyHome =
        (.ok (⟨"", ["out", "db", databaseName]⟩, ⟨"", ["out", "db", digestName]⟩), w') ∧
      read w' ⟨"", ["out", "db"]⟩ = .ok db.stored ∧ verify w' ⟨"", ["out", "db"]⟩ = .ok true := by
  obtain ⟨db, h⟩ : ∃ db, compile ⟨[], none⟩ ⟨defaultVersion, "now"⟩ variedCorpus = .ok db :=
    exists_compile _ (.inl rfl)
  have hbound : 10 ^ 2 ≤ 10 ^ maxDigits := Nat.pow_le_pow_right (by decide) (by decide)
  have hextent : corpusExtent variedCorpus < 10 ^ 2 := by decide +kernel
  have hphases : ∀ p ∈ corpusAnnotations variedCorpus, ∀ n ∈ p.1.record.phase,
      n.natAbs < 10 ^ 2 := by decide +kernel
  let folder : Path := ⟨"", ["out", "db"]⟩
  have hmake : emptyHome.makeFrom (emptyHome.origin folder) folder.parts =
      .ok ⟨.folder [("home", .folder [("out", .folder [("db", .folder [])])])], ["home"]⟩ := rfl
  obtain ⟨w', hrun, hread, _, hverify⟩ := reads_back_of_compile h
    (Nat.lt_of_lt_of_le hextent hbound)
    (fun p hp n hn => isShort_of_natAbs_lt (Nat.lt_of_lt_of_le (hphases p hp n hn) hbound))
    ⟨[], rfl⟩ hmake rfl rfl
  exact ⟨db, w', h, hrun, hread, hverify⟩

end Marginalia.Archive
