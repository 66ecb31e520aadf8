/-
  Marginalia/Proofs/Workspace/Search.lean
  =======================================
  **What a search finds, and in which order.**  A search goes from folder to folder
  and decides about one name at a time.  Its decisions along the way to a file add up
  to a condition on the location of the file (`Search.Reaches`): one step into a folder
  takes one name off the location and one folder off the depth that is left
  (`Search.reaches_cons`).  So exactly the files at such locations are visited
  (`Search.mem_visit_iff`), by induction on the tree.

  Within a folder the entries are sorted by name and all names differ, so what is
  visited under one name precedes what is visited under the next; the locations are
  visited in their lexicographic order (`Search.pairwise_visit`).
-/
import Marginalia.Proofs.Except
import Marginalia.Proofs.Table
import Marginalia.Workspace.Search

namespace Marginalia

/-! ### Files of a tree -/

namespace FileTree

/-- In no folder two entries have the same name. -/
inductive HasDistinctNames : FileTree → Prop where
  | file (bytes : List UInt8) : HasDistinctNames (.file bytes)
  | folder {entries : List (String × FileTree)} (names : (Table.keys entries).Nodup)
      (below : ∀ p ∈ entries, HasDistinctNames p.2) : HasDistinctNames (.folder entries)

/-- What holds of files, and of a folder if it holds of its entries, holds of every tree. -/
theorem forall_of_entries {P : FileTree → Prop} (file : ∀ bytes, P (.file bytes))
    (folder : ∀ entries, (∀ p ∈ entries, P p.2) → P (.folder entries)) : ∀ t, P t
  | .file bytes => file bytes
  | .folder entries => folder entries fun p hp =>
      have hsmaller : sizeOf p.2 < sizeOf (FileTree.folder entries) := by
        have hentries := List.sizeOf_lt_of_mem hp
        obtain ⟨name, t⟩ := p
        simp only [FileTree.folder.sizeOf_spec, Prod.mk.sizeOf_spec] at hentries ⊢
        omega
      forall_of_entries file folder p.2
termination_by t => sizeOf t
decreasing_by exact hsmaller

theorem mem_files_folder_iff {entries : List (String × FileTree)}
    {f : List String × List UInt8} :
    f ∈ (FileTree.folder entries).files ↔
      ∃ p ∈ entries, ∃ g ∈ p.2.files, f = (p.1 :: g.1, g.2) := by
  rw [files]
  induction entries with
  | nil => simp [filesOf]
  | cons p entries ih =>
    obtain ⟨name, t⟩ := p
    rw [filesOf, List.mem_append, ih, List.mem_map]
    simp only [List.mem_cons, exists_eq_or_imp, eq_comm]

end FileTree

namespace Search

variable (s : Search)

/-! ### Locations within reach -/

/-- The search gets to a file at this location below a folder that lies `above` folders deep: no
name on the way is left out, no more folders than allowed lie above the file, none at all below the
first one unless the search is recursive, and the name of the file has one of the endings. -/
structure Reaches (above : Nat) (place : List String) : Prop where
  below : place ≠ []
  kept : ∀ name ∈ place, s.excludes name = false
  depth : ∀ limit ∈ s.maxDepth, ((above + place.dropLast.length : Nat) : Int) ≤ limit
  direct : s.recursive = false → place.dropLast = []
  ending : ∀ name ∈ place.getLast?, s.accepts name = true

theorem tooDeep_eq_false_iff {depth : Nat} :
    s.tooDeep depth = false ↔ ∀ limit ∈ s.maxDepth, (depth : Int) ≤ limit := by
  cases h : s.maxDepth <;> simp [tooDeep, h]

variable {s}

theorem reaches_singleton {above : Nat} {name : String} :
    s.Reaches above [name] ↔
      s.tooDeep above = false ∧ s.excludes name = false ∧ s.accepts name = true := by
  rw [tooDeep_eq_false_iff]
  constructor
  · intro h
    exact ⟨h.depth, h.kept name List.mem_cons_self, h.ending name rfl⟩
  · rintro ⟨hdepth, hkept, hending⟩
    refine ⟨by simp, by simpa using hkept, hdepth, fun _ => rfl, ?_⟩
    rintro other ⟨rfl⟩
    exact hending

/-- One step into a folder. -/
theorem reaches_cons {above : Nat} {name : String} {place : List String} (h : place ≠ []) :
    s.Reaches above (name :: place) ↔ s.tooDeep above = false ∧ s.excludes name = false ∧
      s.recursive = true ∧ s.Reaches (above + 1) place := by
  have hlength : above + (name :: place).dropLast.length = above + 1 + place.dropLast.length := by
    simp only [List.dropLast_cons_of_ne_nil h, List.length_cons]
    omega
  have hlast : (name :: place).getLast? = place.getLast? := List.getLast?_cons_of_ne_nil h
  rw [tooDeep_eq_false_iff]
  constructor
  · intro hreach
    have hrec : s.recursive = true := by
      cases hrec : s.recursive with
      | true => rfl
      | false => simpa [List.dropLast_cons_of_ne_nil h] using hreach.direct hrec
    have hdepth := hreach.depth
    rw [hlength] at hdepth
    refine ⟨?_, hreach.kept name List.mem_cons_self, hrec, h, ?_, hdepth, ?_, ?_⟩
    · intro limit hlimit
      have hbelow := hdepth limit hlimit
      omega
    · exact fun other hother => hreach.kept other (List.mem_cons_of_mem name hother)
    · exact fun hnot => absurd (hrec.symm.trans hnot) (by decide)
    · exact fun other hother => hreach.ending other (hlast ▸ hother)
  · rintro ⟨_, hname, hrec, hreach⟩
    refine ⟨by simp, ?_, ?_, ?_, ?_⟩
    · exact List.forall_mem_cons.mpr ⟨hname, hreach.kept⟩
    · rw [hlength]
      exact hreach.depth
    · exact fun hnot => absurd (hrec.symm.trans hnot) (by decide)
    · exact fun other hother => hreach.ending other (hlast ▸ hother)

/-! ### The files that are visited -/

/-- The files visited under one name. -/
def underName (s : Search) (depth : Nat) (name : String) (t : FileTree) :
    List (List String × List UInt8) :=
  if s.excludes name then []
  else
    match t with
    | .file bytes => if s.accepts name then [([name], bytes)] else []
    | .folder _ =>
      if s.recursive then (s.visit (depth + 1) t).map fun (place, bytes) => (name :: place, bytes)
      else []

theorem visitEntries_eq (depth : Nat) (entries : List (String × FileTree)) :
    s.visitEntries depth entries = entries.map fun p => (p.1, s.underName depth p.1 p.2) := by
  induction entries with
  | nil => simp [visitEntries]
  | cons p entries ih =>
    obtain ⟨name, t⟩ := p
    cases t <;> simp only [visitEntries, ih, underName, List.map_cons]

theorem visit_folder (depth : Nat) (entries : List (String × FileTree)) :
    s.visit depth (.folder entries) =
      if s.tooDeep depth then []
      else ((entries.map fun p => (p.1, s.underName depth p.1 p.2)).mergeSort
        fun a b => a.1 ≤ b.1).flatMap Prod.snd := by
  rw [visit, visitEntries_eq]

theorem mem_visit_folder_iff {depth : Nat} {entries : List (String × FileTree)}
    {f : List String × List UInt8} :
    f ∈ s.visit depth (.folder entries) ↔
      s.tooDeep depth = false ∧ ∃ p ∈ entries, f ∈ s.underName depth p.1 p.2 := by
  rw [visit_folder]
  cases h : s.tooDeep depth with
  | true => simp
  | false => simp [List.mem_flatMap, List.mem_mergeSort]

/-- What is visited under a name are the files there that are within reach. -/
theorem mem_underName_iff {depth : Nat} (hdepth : s.tooDeep depth = false) {name : String}
    {t : FileTree} (ih : ∀ g, g ∈ s.visit (depth + 1) t ↔ g ∈ t.files ∧ s.Reaches (depth + 1) g.1)
    {f : List String × List UInt8} :
    f ∈ s.underName depth name t ↔
      ∃ g ∈ t.files, f = (name :: g.1, g.2) ∧ s.Reaches depth (name :: g.1) := by
  cases t with
  | file bytes =>
    simp only [FileTree.files, List.mem_singleton, exists_eq_left, reaches_singleton, hdepth,
      true_and, underName]
    cases s.excludes name <;> cases s.accepts name <;> simp
  | folder entries =>
    have hreach : ∀ g ∈ (FileTree.folder entries).files, s.Reaches depth (name :: g.1) ↔
        s.tooDeep depth = false ∧ s.excludes name = false ∧ s.recursive = true ∧
          s.Reaches (depth + 1) g.1 := by
      intro g hg
      obtain ⟨p, _, g, _, rfl⟩ := FileTree.mem_files_folder_iff.mp hg
      exact reaches_cons (by simp)
    simp only [underName]
    constructor
    · intro hf
      split at hf
      · simp at hf
      · rename_i hname
        split at hf
        · rename_i hrec
          obtain ⟨g, hg, rfl⟩ := List.mem_map.mp hf
          obtain ⟨hfile, hbelow⟩ := (ih g).mp hg
          exact ⟨g, hfile, rfl, (hreach g hfile).mpr ⟨hdepth, by simpa using hname, hrec, hbelow⟩⟩
        · simp at hf
    · rintro ⟨g, hg, rfl, hplace⟩
      obtain ⟨_, hname, hrec, hbelow⟩ := (hreach g hg).mp hplace
      simp only [hname, hrec, if_true, Bool.false_eq_true, if_false]
      exact List.mem_map.mpr ⟨g, (ih g).mpr ⟨hg, hbelow⟩, rfl⟩

/-- A search visits the files at locations that it reaches, and no others. -/
theorem mem_visit_iff (t : FileTree) : ∀ (depth : Nat) (f : List String × List UInt8),
    f ∈ s.visit depth t ↔ f ∈ t.files ∧ s.Reaches depth f.1 := by
  induction t using FileTree.forall_of_entries with
  | file bytes =>
    intro depth f
    simp only [visit, FileTree.files, List.mem_singleton]
    constructor
    · intro hf
      cases hf
    · rintro ⟨rfl, hreach⟩
      exact absurd rfl hreach.below
  | folder entries ih =>
    intro depth f
    rw [mem_visit_folder_iff, FileTree.mem_files_folder_iff]
    constructor
    · rintro ⟨hdepth, p, hp, hf⟩
      obtain ⟨g, hg, rfl, hreach⟩ := (mem_underName_iff hdepth (ih p hp (depth + 1))).mp hf
      exact ⟨⟨p, hp, g, hg, rfl⟩, hreach⟩
    · rintro ⟨⟨p, hp, g, hg, rfl⟩, hreach⟩
      have hdepth : s.tooDeep depth = false := by
        rw [tooDeep_eq_false_iff]
        intro limit hlimit
        have hbelow := hreach.depth limit hlimit
        omega
      exact ⟨hdepth, p, hp, (mem_underName_iff hdepth (ih p hp (depth + 1))).mpr
        ⟨g, hg, rfl, hreach⟩⟩

/-! ### Their order -/

theorem exists_place_of_mem_underName {depth : Nat} {name : String} {t : FileTree}
    {f : List String × List UInt8} (h : f ∈ s.underName depth name t) :
    ∃ place, f.1 = name :: place := by
  unfold underName at h
  split at h
  · simp at h
  · split at h
    · split at h
      · obtain rfl := List.mem_singleton.mp h
        exact ⟨[], rfl⟩
      · simp at h
    · split at h
      · obtain ⟨g, _, rfl⟩ := List.mem_map.mp h
        exact ⟨g.1, rfl⟩
      · simp at h

/-- Sorting by distinct names leaves every name below the next. -/
theorem pairwise_mergeSort_of_nodup {α : Type} {l : List (String × α)} (h : (Table.keys l).Nodup) :
    (l.mergeSort fun a b => a.1 ≤ b.1).Pairwise fun a b => a.1 < b.1 := by
  have hsorted : (l.mergeSort fun a b => a.1 ≤ b.1).Pairwise
      fun a b => decide (a.1 ≤ b.1) = true := by
    apply List.pairwise_mergeSort
    · intro a b c hab hbc
      simpa using String.le_trans (by simpa using hab) (by simpa using hbc)
    · intro a b
      simpa using String.le_total a.1 b.1
  have hperm := List.mergeSort_perm l fun a b => decide (a.1 ≤ b.1)
  have hnodup : (l.mergeSort fun a b => a.1 ≤ b.1).Pairwise fun a b => a.1 ≠ b.1 :=
    List.pairwise_map.mp ((hperm.map Prod.fst).nodup_iff.mpr h)
  apply hsorted.imp₂ _ hnodup
  intro a b hle hne
  rw [← String.not_le]
  intro hge
  exact hne (String.le_antisymm (by simpa using hle) hge)

theorem pairwise_underName {depth : Nat} {name : String} {t : FileTree}
    (h : (s.visit (depth + 1) t).Pairwise fun f g => f.1 < g.1) :
    (s.underName depth name t).Pairwise fun f g => f.1 < g.1 := by
  unfold underName
  split
  · exact .nil
  · split
    · split
      · exact List.pairwise_singleton _ _
      · exact .nil
    · split
      · rw [List.pairwise_map]
        exact h.imp fun hlt => List.cons_lt_cons_iff.mpr (.inr ⟨rfl, hlt⟩)
      · exact .nil

/-- The files are visited in the lexicographic order of their locations. -/
theorem pairwise_visit {t : FileTree} (h : t.HasDistinctNames) :
    ∀ depth, (s.visit depth t).Pairwise fun f g => f.1 < g.1 := by
  induction h with
  | file bytes =>
    intro depth
    simp [visit]
  | @folder entries names below ih =>
    intro depth
    rw [visit_folder]
    split
    · exact .nil
    · have hnames : (Table.keys (entries.map fun p => (p.1, s.underName depth p.1 p.2))).Nodup := by
        simpa [Table.keys, Function.comp_def] using names
      have hstart : ∀ q ∈ (entries.map fun p => (p.1, s.underName depth p.1 p.2)).mergeSort
          (fun a b => a.1 ≤ b.1), ∃ p ∈ entries, q = (p.1, s.underName depth p.1 p.2) := by
        intro q hq
        obtain ⟨p, hp, rfl⟩ := List.mem_map.mp (List.mem_mergeSort.mp hq)
        exact ⟨p, hp, rfl⟩
      rw [List.pairwise_flatMap]
      constructor
      · intro q hq
        obtain ⟨p, hp, rfl⟩ := hstart q hq
        exact pairwise_underName (ih p hp (depth + 1))
      · -- all that is visited under a name starts with it
        apply (pairwise_mergeSort_of_nodup hnames).imp_of_mem
        intro q r hq hr hlt f hf g hg
        obtain ⟨p, _, rfl⟩ := hstart q hq
        obtain ⟨p', _, rfl⟩ := hstart r hr
        obtain ⟨place, hplace⟩ := exists_place_of_mem_underName hf
        obtain ⟨place', hplace'⟩ := exists_place_of_mem_underName hg
        rw [hplace, hplace', List.cons_lt_cons_iff]
        exact .inl hlt

end Search

/-! ### What is found -/

/-- What is found in one file, if there is something to report. -/
def finding? (root : Path) (f : List String × List UInt8) : Option Extraction :=
  (extractBytes (shownPath root f.1) f.2).toOption.filter Extraction.hasFindings

theorem finding?_eq_some_iff {root : Path} {f : List String × List UInt8} {x : Extraction} :
    finding? root f = some x ↔
      extractBytes (shownPath root f.1) f.2 = .ok x ∧ x.hasFindings = true := by
  rw [finding?, Option.filter_eq_some_iff]
  cases extractBytes (shownPath root f.1) f.2 <;> simp [Except.toOption]

theorem inFolder_eq {s : Search} {root : Path} {t : FileTree}
    (h : ∀ f ∈ s.visit 0 t, ∃ x, extractBytes (shownPath root f.1) f.2 = .ok x) :
    s.inFolder root t = .ok ((s.visit 0 t).filterMap (finding? root)) := by
  obtain ⟨found, hfound⟩ := exists_mapM_eq_ok h
  have hfindings : found.filter Extraction.hasFindings =
      (s.visit 0 t).filterMap (finding? root) := by
    rw [← List.filterMap_eq_filter]
    refine (filterMap_eq_filterMap_of_forall₂ ?_ (forall₂_of_mapM_eq_ok hfound)).symm
    intro f x hx
    rw [finding?, hx]
    rfl
  rw [← hfindings, Search.inFolder, hfound]
  rfl

/-- A search of a folder in which every file within reach can be read finds something in exactly
the files within reach that have something to report, and gives what it finds in the lexicographic
order of their locations: so no file is reported twice. -/
theorem searchFolder_finds {w : Workspace} {root : Path} {t : FileTree}
    (hroot : w.folder? root = some t) (hnames : t.HasDistinctNames) (s : Search)
    (hread : ∀ f ∈ t.files, s.Reaches 0 f.1 →
      ∃ x, extractBytes (shownPath root f.1) f.2 = .ok x) :
    ∃ found : List ((List String × List UInt8) × Extraction),
      w.searchFolder s root = .ok (found.map Prod.snd) ∧
      (∀ f x, (f, x) ∈ found ↔ f ∈ t.files ∧ s.Reaches 0 f.1 ∧
        extractBytes (shownPath root f.1) f.2 = .ok x ∧ x.hasFindings = true) ∧
      found.Pairwise fun p q => p.1.1 < q.1.1 := by
  have hvisit := Search.mem_visit_iff (s := s) t 0
  have hok : ∀ f ∈ s.visit 0 t, ∃ x, extractBytes (shownPath root f.1) f.2 = .ok x :=
    fun f hf => hread f ((hvisit f).mp hf).1 ((hvisit f).mp hf).2
  refine ⟨(s.visit 0 t).filterMap fun f => (finding? root f).map (f, ·), ?_, ?_, ?_⟩
  · rw [Workspace.searchFolder, hroot, List.map_filterMap]
    simp [inFolder_eq hok, Function.comp_def]
  · intro f x
    simp only [List.mem_filterMap, hvisit]
    constructor
    · rintro ⟨g, ⟨hg, hreach⟩, hx⟩
      obtain ⟨y, hy, heq⟩ := Option.map_eq_some_iff.mp hx
      obtain ⟨rfl, rfl⟩ := Prod.mk.inj heq
      exact ⟨hg, hreach, finding?_eq_some_iff.mp hy⟩
    · rintro ⟨hf, hreach, hx⟩
      exact ⟨f, ⟨hf, hreach⟩, by rw [finding?_eq_some_iff.mpr hx, Option.map_some]⟩
  · apply (Search.pairwise_visit hnames 0).filterMap
    intro f g hlt p hp q hq
    obtain ⟨x, _, rfl⟩ := Option.map_eq_some_iff.mp hp
    obtain ⟨y, _, rfl⟩ := Option.map_eq_some_iff.mp hq
    exact hlt

open Marginalia.Text in
/-- A folder with an excluded folder in it, a file too deep and one with another ending. -/
def sampleFolder : FileTree :=
  let file (s : String) := FileTree.file (encodeUtf8 s.toList)
  .folder [
    ("lib", .folder [
      ("b.ts", file "// @mm:id=b"),
      ("deep", .folder [("c.ts", file "// @mm:id=c")]),
      ("a.ts", file "const a = 1")]),
    ("dist", .folder [("d.ts", file "// @mm:id=d")]),
    ("lib.ts", .file [0xFF]),
    ("notes.md", file "# @mm:id=notes")]

theorem hasDistinctNames_sampleFolder : sampleFolder.HasDistinctNames := by
  have hsingle : ∀ (name : String) (bytes : List UInt8),
      (FileTree.folder [(name, .file bytes)]).HasDistinctNames := by
    intro name bytes
    refine .folder (by simp [Table.keys]) fun p hp => ?_
    obtain rfl := List.mem_singleton.mp hp
    exact .file bytes
  refine .folder (by decide) ?_
  simp only [List.forall_mem_cons]
  refine ⟨.folder (by decide) ?_, hsingle _ _, .file _, .file _, List.forall_mem_nil _⟩
  simp only [List.forall_mem_cons]
  exact ⟨.file _, hsingle _ _, .file _, List.forall_mem_nil _⟩

theorem searchFolder_finds_sample :
    let w : Workspace := ⟨.folder [("src", sampleFolder)], []⟩
    let root := Path.ofString "./src"
    let s : Search := { maxDepth := some 1 }
    w.folder? root = some sampleFolder ∧ sampleFolder.HasDistinctNames ∧
    (∀ f ∈ sampleFolder.files, s.Reaches 0 f.1 →
      ∃ x, extractBytes (shownPath root f.1) f.2 = .ok x) ∧
    ∃ found : List ((List String × List UInt8) × Extraction),
      w.searchFolder s root = .ok (found.map Prod.snd) ∧
      (∀ f x, (f, x) ∈ found ↔ f ∈ sampleFolder.files ∧ s.Reaches 0 f.1 ∧
        extractBytes (shownPath root f.1) f.2 = .ok x ∧ x.hasFindings = true) ∧
      found.Pairwise fun p q => p.1.1 < q.1.1 := by
  intro w root s
  have hroot : w.folder? root = some sampleFolder := rfl
  have hread : ∀ f ∈ sampleFolder.files, s.Reaches 0 f.1 →
      ∃ x, extractBytes (shownPath root f.1) f.2 = .ok x := by
    have hall : ∀ f ∈ sampleFolder.files,
        (extractBytes (shownPath root f.1) f.2).toOption.isSome = true := by decide +kernel
    intro f hf _
    have hx := hall f hf
    cases h : extractBytes (shownPath root f.1) f.2 with
    | ok x => exact ⟨x, rfl⟩
    | error e => simp [h, Except.toOption] at hx
  exact ⟨hroot, hasDistinctNames_sampleFolder, hread,
    searchFolder_finds hroot hasDistinctNames_sampleFolder s hread⟩

end Marginalia
