/-
  Marginalia/Proofs/Draft/Staged.lean
  ===================================
  **Staged files and the entries made of them.**  An entry shows its file by the
  components below the root, if the path of the file begins with those of the root,
  and else by the way from the root; the check of staged files always takes the way.
  The two are the same unless a `..` follows the components of the root
  (`Base.show_eq_wayFrom`): below a directory that the way starts from, components
  without `..` are the way itself (`Path.wayFrom_of_relativeTo?`), wherever the current
  directory lies and whatever `..` the root holds.  So a file that an entry is made of
  is never reported as one without annotations (`missingAnnotations_omits_source`).
-/
import Marginalia.Draft
import Marginalia.Proofs.Database.Compile

namespace Marginalia

/-! ### Ways below a directory -/

namespace Path

theorem resolveFrom_append (done cs ds : List String) :
    resolveFrom done (cs ++ ds) = resolveFrom (resolveFrom done cs) ds := by
  induction cs generalizing done with
  | nil => rfl
  | cons c cs ih => exact ih _

/-- Components without `..` are all kept. -/
theorem resolveFrom_of_not_mem {cs : List String} (h : ".." ∉ cs) (done : List String) :
    resolveFrom done cs = done ++ cs := by
  induction cs generalizing done with
  | nil => exact (List.append_nil done).symm
  | cons c cs ih =>
    obtain ⟨hc, hcs⟩ : ".." ≠ c ∧ ".." ∉ cs := by simpa using h
    rw [resolveFrom, if_neg (Ne.symm hc), ih hcs, List.append_assoc]
    rfl

theorem commonLength_append (cs ds : List String) : commonLength cs (cs ++ ds) = cs.length := by
  induction cs with
  | nil => cases ds <;> rfl
  | cons c cs ih => simp [commonLength, ih]

/-- A path that begins with the components of a base leads to what is below it. -/
theorem absolute_of_parts_eq_append {s start : String} {below : List String}
    (hroot : rootOf s = rootOf start) (hparts : components s = components start ++ below)
    (h : ".." ∉ below) (cwd : List String) :
    absolute cwd s = absolute cwd start ++ below := by
  rw [absolute, absolute, hroot, hparts]
  split
  · rw [← List.append_assoc, resolveFrom_append, resolveFrom_of_not_mem h]
  · rw [resolveFrom_append, resolveFrom_of_not_mem h]

theorem parts_eq_append_of_relativeTo? {p base q : Path} (h : p.relativeTo? base = some q) :
    p.root = base.root ∧ q.root = "" ∧ p.parts = base.parts ++ q.parts := by
  unfold relativeTo? at h
  split at h
  · rename_i hbelow
    obtain rfl := Option.some.inj h
    rw [Bool.and_eq_true, decide_eq_true_eq, List.isPrefixOf_iff_prefix] at hbelow
    obtain ⟨hroot, below, hparts⟩ := hbelow
    exact ⟨hroot, rfl, by rw [← hparts, List.drop_left]⟩
  · cases h

/-- The way to a path below a directory, if no `..` stands below it. -/
theorem wayFrom_of_relativeTo? {s start : String} {q : Path}
    (h : (ofString s).relativeTo? (ofString start) = some q) (hdots : ".." ∉ q.parts)
    (cwd : List String) : wayFrom cwd s start = q := by
  obtain ⟨hroot, hrelative, hparts⟩ := parts_eq_append_of_relativeTo? h
  have hfrom := absolute_of_parts_eq_append hroot hparts hdots cwd
  rw [wayFrom, hfrom, commonLength_append, List.drop_left, Nat.sub_self]
  cases q
  subst hrelative
  rfl

end Path

/-! ### The path of an entry -/

/-- No `..` follows the components that a path shares with a directory. -/
def Path.StaysBelow (path start : String) : Prop :=
  let parts := (ofString path).parts
  ".." ∉ parts.drop (commonLength (ofString start).parts parts)

/-- A path is shown by the way from the root, also where it is shown by what stands below it. -/
theorem Base.show_eq_wayFrom {cwd : List String} {root path shown : String}
    (h : Base.show ⟨cwd, some root⟩ path = .ok shown) (hdots : Path.StaysBelow path root) :
    shown = (Path.wayFrom cwd path root).text := by
  unfold Base.show at h
  cases hbelow : (Path.ofString path).relativeTo? (Path.ofString root) with
  | none =>
    simp only [hbelow] at h
    split at h
    · cases h
    · exact (Except.ok.inj h).symm
  | some q =>
    simp only [hbelow] at h
    obtain ⟨_, _, hparts⟩ := Path.parts_eq_append_of_relativeTo? hbelow
    have hq : ".." ∉ q.parts := by
      rwa [Path.StaysBelow, hparts, Path.commonLength_append, List.drop_left] at hdots
    rw [Path.wayFrom_of_relativeTo? hbelow hq]
    exact (Except.ok.inj h).symm

namespace Draft

/-! ### Reports -/

/-- A reported path is one that no entry shows, neither as it is staged nor by the way to it. -/
theorem not_shown_of_mem_missingAnnotations {db : Compiled} {cwd : List String} {root : String}
    {staged : List String} {m : Missing} (h : m ∈ missingAnnotations db cwd root staged)
    {p : String × Entry String} (hp : p ∈ db.entries) :
    p.2.filePath ≠ m.path ∧ p.2.filePath ≠ (Path.wayFrom cwd m.path root).text := by
  obtain ⟨path, hpath, rfl⟩ := List.mem_map.mp h
  have hshown : p.2.filePath ∈ (Table.values db.entries).map (·.filePath) :=
    List.mem_map_of_mem (List.mem_map_of_mem hp)
  have hreported := (List.mem_filter.mp hpath).2
  rw [Bool.and_eq_true, Bool.and_eq_true, Bool.not_eq_true', Bool.not_eq_true',
    ← Bool.not_eq_true, ← Bool.not_eq_true, List.contains_iff_mem, List.contains_iff_mem]
    at hreported
  obtain ⟨⟨_, hpath⟩, hway⟩ := hreported
  exact ⟨ne_of_mem_of_not_mem hshown hpath, ne_of_mem_of_not_mem hshown hway⟩

/-- A database that is compiled from a root shows a file, of which one of its entries is made, by
the way from the root, if no `..` follows the components that the file shares with the root.  So no
check of staged files with that root reports the file. -/
theorem missingAnnotations_omits_source {cwd : List String} {root : String} {stamp : Stamp}
    {corpus : List Extraction} {db : Compiled}
    (h : compile ⟨cwd, some root⟩ stamp corpus = .ok db) {id path : String} {a : Note}
    (hsource : (id, a, path) ∈ idIndex corpus) (hdots : Path.StaysBelow path root) :
    (∃ e, Table.get? id db.entries = some e ∧ e.filePath = (Path.wayFrom cwd path root).text) ∧
      ∀ staged, ∀ m ∈ missingAnnotations db cwd root staged, m.path ≠ path := by
  have hentries := (compile_eq_ok h).1
  obtain ⟨e, he, hentry⟩ := exists_entry_of_mem_idIndex hentries hsource
  obtain ⟨_, hshow, _⟩ := Note.entry_eq_ok hentry
  have hshown := Base.show_eq_wayFrom hshow hdots
  refine ⟨⟨e, Table.get?_of_mem (nodup_keys_of_compileEntries hentries) he, hshown⟩, ?_⟩
  rintro staged m hm rfl
  exact (not_shown_of_mem_missingAnnotations hm he).2 hshown

/-- Files below a root in several spellings, one that is named from the file system's root, and one
beside the root. -/
def spelledCorpus : List Extraction :=
  [⟨"../u/proj//src/./a.ts", [⟨{ id := "a" }, .comment, 1, "", none⟩], []⟩,
   ⟨"/home/u/proj/b.py", [⟨{ id := "b" }, .comment, 1, "", none⟩], []⟩,
   ⟨"lib/c.js", [⟨{ id := "c" }, .embedded, 4, "", none⟩], []⟩]

theorem missingAnnotations_omits_source_spelled :
    ∃ db, compile ⟨["home", "u"], some "../u/proj/"⟩ ⟨defaultVersion, ""⟩ spelledCorpus = .ok db ∧
      (Table.values db.entries).map (·.filePath) = ["src/a.ts", "b.py", "../lib/c.js"] ∧
      Path.StaysBelow "../u/proj//src/./a.ts" "../u/proj/" ∧
      (∀ m ∈ missingAnnotations db ["home", "u"] "../u/proj/"
          ["../u/proj//src/./a.ts", "d.ts"], m.path ≠ "../u/proj//src/./a.ts") ∧
      (missingAnnotations db ["home", "u"] "../u/proj/"
          ["../u/proj//src/./a.ts", "d.ts"]).map (·.path) = ["d.ts"] := by
  obtain ⟨db, h, hpaths, hreported⟩ :
      ∃ db, compile ⟨["home", "u"], some "../u/proj/"⟩ ⟨defaultVersion, ""⟩ spelledCorpus =
          .ok db ∧
        (Table.values db.entries).map (·.filePath) = ["src/a.ts", "b.py", "../lib/c.js"] ∧
        (missingAnnotations db ["home", "u"] "../u/proj/"
          ["../u/proj//src/./a.ts", "d.ts"]).map (·.path) = ["d.ts"] :=
    ⟨_, rfl, by decide +kernel, by decide +kernel⟩
  have hdots : Path.StaysBelow "../u/proj//src/./a.ts" "../u/proj/" := by
    unfold Path.StaysBelow
    decide +kernel
  have hsource : ("a", ⟨{ id := "a" }, .comment, 1, "", none⟩, "../u/proj//src/./a.ts") ∈
      idIndex spelledCorpus := by decide +kernel
  exact ⟨db, h, hpaths, hdots, (missingAnnotations_omits_source h hsource hdots).2 _, hreported⟩

end Draft

end Marginalia
