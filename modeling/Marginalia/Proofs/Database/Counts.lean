/-
  Marginalia/Proofs/Database/Counts.lean
  ======================================
  **How far counts can go.**  No number of a compiled database exceeds the extent of
  its corpus: the files in it, and for every annotation one, its line and the length
  of its lists.  Entries come from different annotations, so what is counted over
  entries is at most what is counted over annotations (`sum_entries_le`).
-/
import Marginalia.Proofs.Database.Compile
import Mathlib.Algebra.Order.BigOperators.Group.List
import Mathlib.Algebra.Order.Ring.Nat
import Mathlib.Data.List.Nodup
import Mathlib.Data.List.Perm.Subperm

namespace Marginalia

/-! ### Occurrences -/

variable {κ : Type} [BEq κ]

theorem tallyAll_concat (keys : List κ) (key : κ) :
    tallyAll (keys ++ [key]) = tally key (tallyAll keys) := by
  rw [tallyAll, List.foldl_concat]
  rfl

theorem nodup_keys_tallyAll [LawfulBEq κ] (keys : List κ) : (Table.keys (tallyAll keys)).Nodup := by
  induction keys using List.reverseRecOn with
  | nil => exact List.nodup_nil
  | append_singleton keys key ih =>
    rw [tallyAll_concat]
    exact Table.nodup_keys_set ih _

theorem get?_tallyAll [LawfulBEq κ] (keys : List κ) (key : κ) :
    Table.get? key (tallyAll keys) = if keys.contains key then some (keys.count key) else none := by
  induction keys using List.reverseRecOn with
  | nil => rfl
  | append_singleton keys last ih =>
    rw [tallyAll_concat, tally, Table.update]
    by_cases hlast : key = last
    · subst hlast
      rw [Table.get?_set_same, ih]
      by_cases hkey : key ∈ keys <;> simp [hkey, List.count_eq_zero_of_not_mem]
    · rw [Table.get?_set_other hlast, ih]
      simp [hlast, Ne.symm hlast]

/-- What is counted occurs, and as often as the count says. -/
theorem mem_tallyAll_iff [LawfulBEq κ] {keys : List κ} {p : κ × Nat} :
    p ∈ tallyAll keys ↔ p.1 ∈ keys ∧ p.2 = keys.count p.1 := by
  constructor
  · intro h
    have hget := Table.get?_of_mem (nodup_keys_tallyAll keys) h
    rw [get?_tallyAll] at hget
    split at hget
    · exact ⟨List.contains_iff_mem.mp ‹_›, (Option.some.inj hget).symm⟩
    · cases hget
  · rintro ⟨hkey, hcount⟩
    have hget : Table.get? p.1 (tallyAll keys) = some p.2 := by
      rw [get?_tallyAll, if_pos (List.contains_iff_mem.mpr hkey), hcount]
    exact Table.mem_of_get?_eq_some hget

/-- Counting does not depend on the order. -/
theorem get?_tallyAll_of_perm [LawfulBEq κ] {keys keys' : List κ} (h : keys.Perm keys') (key : κ) :
    Table.get? key (tallyAll keys) = Table.get? key (tallyAll keys') := by
  rw [get?_tallyAll, get?_tallyAll, h.count_eq, h.contains_eq]

theorem le_length_of_mem_tallyAll [LawfulBEq κ] {keys : List κ} {p : κ × Nat}
    (h : p ∈ tallyAll keys) : p.2 ≤ keys.length := by
  rw [(mem_tallyAll_iff.mp h).2]
  exact List.count_le_length

theorem getD_get?_tallyAll [LawfulBEq κ] (keys : List κ) (key : κ) :
    (Table.get? key (tallyAll keys)).getD 0 = keys.count key := by
  rw [get?_tallyAll]
  split
  · rfl
  · rename_i hkey
    rw [Option.getD_none, List.count_eq_zero_of_not_mem]
    exact fun hmem => hkey (List.contains_iff_mem.mpr hmem)

/-- Setting a count changes the total by what the count changes. -/
theorem sum_values_set (key : κ) (n : Nat) (t : Table κ Nat) :
    (Table.values (Table.set key n t)).sum + (Table.get? key t).getD 0 =
      (Table.values t).sum + n := by
  induction t with
  | nil => simp [Table.set, Table.get?, Table.values]
  | cons p t ih =>
    obtain ⟨k, m⟩ := p
    simp only [Table.values] at ih
    by_cases hk : k == key
    · simp [Table.set, Table.get?, Table.values, hk]
      omega
    · simp [Table.set, Table.get?, Table.values, hk]
      omega

theorem sum_values_tallyAll (keys : List κ) : (Table.values (tallyAll keys)).sum = keys.length := by
  induction keys using List.reverseRecOn with
  | nil => rfl
  | append_singleton keys key ih =>
    have hset := sum_values_set key (((Table.get? key (tallyAll keys)).getD 0) + 1) (tallyAll keys)
    rw [tallyAll_concat, tally, Table.update, List.length_append, List.length_singleton]
    omega

/-! ### The extent of a corpus -/

/-- What one annotation may add to a number: itself, its line, its tags and its targets. -/
def Note.extent (a : Note) : Nat :=
  1 + a.line.natAbs + (a.record.tags.getD []).length + (a.record.targets DepKind.all).length

/-- What a corpus may add up to: its files, and its annotations with what they hold. -/
def corpusExtent (corpus : List Extraction) : Nat :=
  corpus.length + ((corpusAnnotations corpus).map fun p => p.1.extent).sum

theorem Note.extent_le {corpus : List Extraction} {a : Note} {path : String}
    (h : (a, path) ∈ corpusAnnotations corpus) : a.extent ≤ corpusExtent corpus := by
  have hmem : a.extent ∈ (corpusAnnotations corpus).map fun p => p.1.extent :=
    List.mem_map.mpr ⟨_, h, rfl⟩
  have := List.le_sum_of_mem hmem
  rw [corpusExtent]
  omega

/-- The annotations with an id are among those of the corpus, each at most as often. -/
theorem idIndex_subperm (corpus : List Extraction) :
    (idIndex corpus).Subperm ((corpusAnnotations corpus).map fun p => (p.1.key p.2, p)) := by
  have hkeys : (Table.keys (idIndex corpus)).Nodup :=
    (List.filter_sublist.map Prod.fst).nodup (Table.nodup_keys_ofPairs _)
  apply (List.Nodup.of_map _ hkeys).subperm
  intro p hp
  exact Table.mem_of_mem_ofPairs (List.mem_filter.mp hp).1

section Corpus

variable {b : Base} {corpus : List Extraction} {entries : Table String (Entry String)}

/-- A sum over entries stays within the extent, if each term stays within that of its
annotation. -/
theorem sum_entries_le (h : compileEntries b corpus = .ok entries) (f : Entry String → Nat)
    (hf : ∀ (a : Note) path e, a.entry b path = .ok e → f e ≤ a.extent) :
    (entries.map fun p => f p.2).sum ≤ corpusExtent corpus := by
  have hindex : (entries.map fun p => f p.2).sum ≤
      ((idIndex corpus).map fun p => p.2.1.extent).sum := by
    apply List.Forall₂.sum_le_sum
    rw [List.forall₂_map_left_iff, List.forall₂_map_right_iff]
    apply (forall₂_of_compileEntries h).flip.imp
    rintro ⟨_, e⟩ ⟨_, a, path⟩ ⟨_, hentry⟩
    exact hf a path e hentry
  obtain ⟨l, hperm, hsub⟩ := idIndex_subperm corpus
  calc (entries.map fun p => f p.2).sum
      ≤ ((idIndex corpus).map fun p => p.2.1.extent).sum := hindex
    _ = (l.map fun p => p.2.1.extent).sum := (hperm.map _).sum_eq.symm
    _ ≤ _ := (hsub.map _).sum_le_sum fun _ _ => Nat.zero_le _
    _ = ((corpusAnnotations corpus).map fun p => p.1.extent).sum := by
      rw [List.map_map]
      rfl
    _ ≤ corpusExtent corpus := Nat.le_add_left _ _

theorem length_entries_le (h : compileEntries b corpus = .ok entries) :
    entries.length ≤ corpusExtent corpus := by
  have hsum : (entries.map fun _ => 1).sum ≤ corpusExtent corpus := by
    refine sum_entries_le h (fun _ => 1) ?_
    intro a path e _
    rw [Note.extent]
    omega
  simpa using hsum

theorem length_tags_le (h : compileEntries b corpus = .ok entries) :
    ((Table.values entries).flatMap fun e => e.tags.getD []).length ≤ corpusExtent corpus := by
  rw [List.length_flatMap, Table.values, List.map_map]
  refine sum_entries_le h (fun e => (e.tags.getD []).length) ?_
  intro a path e he
  obtain ⟨_, _, heq⟩ := Note.entry_eq_ok he
  have htags : e.tags = a.record.tags := by rw [heq]
  rw [htags, Note.extent]
  omega

theorem length_declaredEdges_le (h : compileEntries b corpus = .ok entries) :
    (declaredEdges entries).length ≤ corpusExtent corpus := by
  have hlength := congrArg List.length (map_target_declaredEdges entries)
  rw [List.length_map, List.length_flatMap] at hlength
  rw [hlength]
  refine sum_entries_le h (fun e => (DepKind.all.flatMap e.targets).length) ?_
  intro a path e he
  rw [Note.targets_of_entry he, Note.extent]
  omega

end Corpus

/-! ### Numbers of a database -/

/-- No number that a database counts, and no line, exceeds a bound. -/
structure Database.Within (db : Compiled) (bound : Nat) : Prop where
  line : ∀ p ∈ db.entries, p.2.line.natAbs ≤ bound
  total : db.stats.total.natAbs ≤ bound
  byStatus : ∀ p ∈ db.stats.byStatus, p.2 ≤ bound
  byVisibility : ∀ p ∈ db.stats.byVisibility, p.2 ≤ bound
  byPhase : ∀ p ∈ db.stats.byPhase, p.2 ≤ bound
  byTag : ∀ p ∈ db.stats.byTag, p.2 ≤ bound
  top : ∀ p ∈ db.stats.top, p.2.natAbs ≤ bound
  sourceFiles : db.build.sourceFiles.natAbs ≤ bound

theorem of_mem_topDependencies {g : DepGraph String} {p : String × Int}
    (h : p ∈ topDependencies g) : ∃ n, (p.1, n) ∈ g.nodes ∧ p.2 = (n.dependents.length : Int) := by
  obtain ⟨⟨id, n⟩, hmem, rfl⟩ := List.mem_map.mp (List.mem_mergeSort.mp (List.mem_of_mem_take h))
  exact ⟨n, (List.mem_filter.mp hmem).1, rfl⟩

/-- No number of a compiled database exceeds the extent of its corpus. -/
theorem within_of_compile {b : Base} {stamp : Stamp} {corpus : List Extraction} {db : Compiled}
    (h : compile b stamp corpus = .ok db) : db.Within (corpusExtent corpus) := by
  obtain ⟨entries, hentries, rfl⟩ := exists_entries_of_compile h
  have hlength := length_entries_le hentries
  have hvalues : (Table.values entries).length = entries.length := List.length_map _
  refine ⟨?_, hlength, ?_, ?_, ?_, ?_, ?_, ?_⟩
  · rintro ⟨id, e⟩ hp
    obtain ⟨a, path, hnote, _, hentry⟩ := exists_note_of_mem_entries hentries hp
    obtain ⟨_, _, heq⟩ := Note.entry_eq_ok hentry
    have hline : e.line = a.line := by rw [heq]
    have hextent := Note.extent_le hnote
    rw [Note.extent] at hextent
    change e.line.natAbs ≤ _
    rw [hline]
    omega
  · intro p hp
    have hcount := le_length_of_mem_tallyAll hp
    rw [List.length_map] at hcount
    omega
  · intro p hp
    have hcount := le_length_of_mem_tallyAll hp
    rw [List.length_map] at hcount
    omega
  · intro p hp
    have hcount := le_length_of_mem_tallyAll hp
    have hfilter := List.length_filterMap_le Entry.phase (Table.values entries)
    omega
  · intro p hp
    exact (le_length_of_mem_tallyAll hp).trans (length_tags_le hentries)
  · intro p hp
    obtain ⟨n, hnode, hcount⟩ := of_mem_topDependencies hp
    rw [nodes_declaredGraph (nodup_keys_of_compileEntries hentries)] at hnode
    obtain ⟨id, _, heq⟩ := List.mem_map.mp hnode
    obtain ⟨rfl, rfl⟩ := Prod.mk.inj heq
    have hedges := length_declaredEdges_le hentries
    have hfilter := List.length_filter_le (fun e => e.target == p.1) (declaredEdges entries)
    rw [hcount, nodeOf, List.length_map, Int.natAbs_natCast]
    omega
  · change corpus.length ≤ corpusExtent corpus
    exact Nat.le_add_right _ _

end Marginalia
