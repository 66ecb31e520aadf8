/-
  Marginalia/Proofs/Query/Statistics.lean
  =======================================
  **Statistics against queries and the graph.**  Counting under a key and filtering
  by it are two readings of `List.countP` over the entries: one lemma says which
  entries a filter with one condition accepts, and the counters follow.  Every entry
  has one status and one visibility, so these counters add up to the number of
  entries.  It may name a tag more than once, and tags are counted by occurrences: the
  count of a tag is that of the entries carrying it just if none names it twice
  (`tag_counts`).

  The two lists of the statistics are derived from the graph.  The nodes with most
  dependents are a ranking (`IsRanking`) that is cut, and the orphaned targets are
  the first occurrences of targets without an entry (`pairwise_idxOf_eraseDups`).
-/
import Marginalia.Proofs.Database.Counts
import Marginalia.Proofs.Release.Graph

namespace Marginalia

/-! ### Filters with one condition -/

theorem accepts_status (s : String) :
    ({ statuses := some [s] } : Filter String).accepts = fun e => e.statusName == s := by
  funext e
  simp [Filter.accepts, Bool.beq_eq_decide_eq]

theorem accepts_visibility (v : Visibility) :
    ({ visibility := some v } : Filter String).accepts = fun e => e.visibilityOrPublic == v := by
  funext e
  simp [Filter.accepts]

theorem accepts_phase (n : Int) :
    ({ phases := some [n] } : Filter String).accepts = fun e => e.phase == some n := by
  funext e
  cases hphase : e.phase <;> simp [Filter.accepts, hphase, Bool.beq_eq_decide_eq]

theorem accepts_tag (t : String) :
    ({ tags := [t] } : Filter String).accepts = fun e => (e.tags.getD []).contains t := by
  funext e
  simp [Filter.accepts, Entry.taggedWithAny]

theorem Database.length_matching (db : Compiled) (f : Filter String) :
    (db.matching f).length = (Table.values db.entries).countP f.accepts :=
  List.countP_eq_length_filter.symm

/-! ### Rankings -/

/-- The second list ranks the first by its numbers: it has the same pairs, greater numbers first,
and those with one number in the order in which they were. -/
structure IsRanking (l ranked : List (String × Int)) : Prop where
  perm : ranked.Perm l
  decreasing : ranked.Pairwise fun p q => q.2 ≤ p.2
  ties : ∀ n, (ranked.filter fun p => p.2 == n) = l.filter fun p => p.2 == n

theorem isRanking_mergeSort (l : List (String × Int)) :
    IsRanking l (l.mergeSort fun p q => q.2 ≤ p.2) := by
  have htrans : ∀ p q r : String × Int, decide (q.2 ≤ p.2) = true → decide (r.2 ≤ q.2) = true →
      decide (r.2 ≤ p.2) = true := by
    intro p q r hpq hqr
    rw [decide_eq_true_eq] at hpq hqr ⊢
    omega
  have htotal : ∀ p q : String × Int, (decide (q.2 ≤ p.2) || decide (p.2 ≤ q.2)) = true := by
    intro p q
    rw [Bool.or_eq_true, decide_eq_true_eq, decide_eq_true_eq]
    omega
  have hperm := List.mergeSort_perm l fun p q => decide (q.2 ≤ p.2)
  refine ⟨hperm, ?_, ?_⟩
  · apply (List.pairwise_mergeSort htrans htotal l).imp
    intro p q hpq
    exact of_decide_eq_true hpq
  · -- pairs with one number are sorted as they stand, so sorting keeps them as a sublist
    intro n
    have hsorted : (l.filter fun p => p.2 == n).Pairwise fun p q => decide (q.2 ≤ p.2) = true := by
      apply List.pairwise_of_forall_mem_list
      intro p hp q hq
      have hpn := (List.mem_filter.mp hp).2
      have hqn := (List.mem_filter.mp hq).2
      rw [beq_iff_eq] at hpn hqn
      rw [decide_eq_true_eq]
      omega
    have hsub := (List.sublist_mergeSort htrans htotal hsorted List.filter_sublist).filter
      fun p => p.2 == n
    rw [List.filter_filter] at hsub
    simp only [Bool.and_self] at hsub
    exact (hsub.eq_of_length (hperm.filter _).length_eq.symm).symm

/-- The nodes of a graph that have dependents, with their number. -/
def dependentCounts (g : DepGraph String) : List (String × Int) :=
  (g.nodes.filter fun p => !p.2.dependents.isEmpty).map
    fun p => (p.1, (p.2.dependents.length : Int))

theorem exists_ranking (g : DepGraph String) :
    ∃ ranked, IsRanking (dependentCounts g) ranked ∧ topDependencies g = ranked.take topLimit :=
  ⟨_, isRanking_mergeSort (dependentCounts g), rfl⟩

/-! ### First occurrences -/

/-- Leaving out repetitions and some members keeps what is left in order of its first
occurrence. -/
theorem pairwise_idxOf_eraseDups_filter (keep : String → Bool) (l : List String) :
    (l.filter keep).eraseDups.Pairwise fun s t => l.idxOf s < l.idxOf t := by
  induction l using List.reverseRecOn with
  | nil => exact List.Pairwise.nil
  | append_singleton l s ih =>
    -- what was met before has its place in the longer list too, and the new one comes after it
    have hmem : ∀ t ∈ (l.filter keep).eraseDups, t ∈ l := fun t ht =>
      (List.mem_filter.mp (List.mem_eraseDups.mp ht)).1
    have hold : (l.filter keep).eraseDups.Pairwise fun t u =>
        (l ++ [s]).idxOf t < (l ++ [s]).idxOf u := by
      apply ih.imp_of_mem
      intro t u ht hu hlt
      rwa [List.idxOf_append_of_mem (hmem t ht), List.idxOf_append_of_mem (hmem u hu)]
    rw [List.filter_append]
    cases hs : keep s with
    | false => simpa [hs] using hold
    | true =>
      have hlast : [s].filter keep = [s] := by simp [hs]
      rw [hlast, eraseDups_concat]
      split
      · exact hold
      · rename_i hnew
        have hnot : s ∉ l := by
          intro hmem
          exact hnew (List.contains_iff_mem.mpr (List.mem_filter.mpr ⟨hmem, hs⟩))
        rw [List.pairwise_append]
        refine ⟨hold, List.pairwise_singleton _ _, ?_⟩
        intro t ht u hu
        obtain rfl := List.mem_singleton.mp hu
        rw [List.idxOf_append_of_mem (hmem t ht), List.idxOf_append_of_notMem hnot]
        exact Nat.lt_of_lt_of_le (List.idxOf_lt_length_of_mem (hmem t ht)) (Nat.le_add_right _ _)

/-! ### Statistics of a database -/

/-- The statistics of a database say what queries find in it and what its graph holds. -/
structure Database.StatsAgree (db : Compiled) : Prop where
  status : ∀ s, (Table.get? s db.stats.byStatus).getD 0 =
    (db.matching { statuses := some [s] }).length
  visibility : ∀ v : Visibility, (Table.get? v.name db.stats.byVisibility).getD 0 =
    (db.matching { visibility := some v }).length
  phase : ∀ n, (Table.get? n db.stats.byPhase).getD 0 = (db.matching { phases := some [n] }).length
  total : db.stats.total = db.entries.length
  sumStatus : (Table.values db.stats.byStatus).sum = db.entries.length
  sumVisibility : (Table.values db.stats.byVisibility).sum = db.entries.length
  top : ∃ ranked, IsRanking (dependentCounts db.graph) ranked ∧ db.stats.top = ranked.take 10
  nodup : db.stats.orphaned.Nodup
  orphaned : ∀ t, t ∈ db.stats.orphaned ↔ t ∉ db.ids ∧ ∃ e ∈ db.graph.edges, e.target = t
  firstEdges : db.stats.orphaned.Pairwise fun s t =>
    (db.graph.edges.map (·.target)).idxOf s < (db.graph.edges.map (·.target)).idxOf t

theorem count_visibilityName (l : List (Entry String)) (v : Visibility) :
    (l.map fun e => e.visibilityOrPublic.name).count v.name =
      l.countP fun e => e.visibilityOrPublic == v := by
  have hname : ∀ w : Visibility, (w.name == v.name) = (w == v) := by
    intro w
    cases v <;> cases w <;> decide
  rw [List.count_eq_countP, List.countP_map]
  simp only [Function.comp_def, hname]

theorem count_phase (l : List (Entry String)) (n : Int) :
    (l.filterMap Entry.phase).count n = l.countP fun e => e.phase == some n := by
  rw [List.count_eq_countP, List.countP_filterMap]
  congr 1
  funext e
  cases e.phase <;> rfl

/-- In a compiled database the counts by status, visibility and phase are the numbers of entries
that a query finds, and those by status and by visibility add up to the number of entries.  The
listed nodes with most dependents are the first ten of all nodes with dependents, by decreasing
number and then in node order.  The orphaned targets are the targets of edges that are not ids, each
once, in order of their first edges. -/
theorem statsAgree_of_compile {b : Base} {stamp : Stamp} {corpus : List Extraction} {db : Compiled}
    (h : compile b stamp corpus = .ok db) : db.StatsAgree := by
  obtain ⟨_, _, hstats⟩ := compile_eq_ok h
  have hlength : (Table.values db.entries).length = db.entries.length := List.length_map _
  have horphaned : db.stats.orphaned = ((db.graph.edges.map (·.target)).filter fun t =>
      !Table.has t db.entries).eraseDups := by
    rw [hstats]
    exact orphanedTargets_eq _ _
  have hfirst : db.stats.orphaned.Pairwise fun s t =>
      (db.graph.edges.map (·.target)).idxOf s < (db.graph.edges.map (·.target)).idxOf t := by
    rw [horphaned]
    exact pairwise_idxOf_eraseDups_filter _ _
  constructor
  case status =>
    intro s
    rw [hstats, statistics, getD_get?_tallyAll, List.count_eq_countP, List.countP_map,
      db.length_matching, accepts_status]
    rfl
  case visibility =>
    intro v
    rw [hstats, statistics, getD_get?_tallyAll, count_visibilityName, db.length_matching,
      accepts_visibility]
  case phase =>
    intro n
    rw [hstats, statistics, getD_get?_tallyAll, count_phase, db.length_matching, accepts_phase]
  case total => rw [hstats, statistics]
  case sumStatus => rw [hstats, statistics, sum_values_tallyAll, List.length_map, hlength]
  case sumVisibility => rw [hstats, statistics, sum_values_tallyAll, List.length_map, hlength]
  case top =>
    rw [hstats]
    exact exists_ranking db.graph
  case nodup => exact hfirst.imp fun hlt heq => (heq ▸ hlt).false
  case orphaned =>
    intro t
    rw [horphaned, List.mem_eraseDups, List.mem_filter, List.mem_map, ids_of_compile h,
      ← Table.has_iff, Bool.not_eq_true', Bool.not_eq_true]
    exact and_comm
  case firstEdges => exact hfirst

/-- Entries of which one has neither status nor phase, two have equally many dependents, and two
name targets without an entry. -/
def countedCorpus : List Extraction :=
  [⟨"m.ts", [
      ⟨{ id := "a", status := some .beta, phase := some 2,
         deps := some (.flat ["y", "c", "x", "y"]) }, .comment, 1, "", none⟩,
      ⟨{ id := "b", visibility := some .internal, status := some .beta, phase := some (-1),
         deps := some (.flat ["c", "a", "x"]) }, .comment, 5, "", none⟩,
      ⟨{ id := "c", deps := some (.flat ["a"]) }, .embedded, 9, "", none⟩], []⟩]

theorem statsAgree_of_compile_counted :
    ∃ db, compile ⟨[], none⟩ ⟨defaultVersion, ""⟩ countedCorpus = .ok db ∧ db.StatsAgree ∧
      (db.matching { statuses := some [noStatus] }).length = 1 ∧
      dependentCounts db.graph = [("a", 2), ("c", 2)] ∧ db.stats.orphaned = ["y", "x"] := by
  obtain ⟨db, h, hunset, hcounts, horphaned⟩ :
      ∃ db, compile ⟨[], none⟩ ⟨defaultVersion, ""⟩ countedCorpus = .ok db ∧
        (db.matching { statuses := some [noStatus] }).length = 1 ∧
        dependentCounts db.graph = [("a", 2), ("c", 2)] ∧ db.stats.orphaned = ["y", "x"] :=
    ⟨_, rfl, by decide +kernel, by decide +kernel, by decide +kernel⟩
  exact ⟨db, h, statsAgree_of_compile h, hunset, hcounts, horphaned⟩

/-! ### Counts of tags -/

theorem countP_pos_le_sum {α : Type} (f : α → Nat) (l : List α) :
    (l.countP fun x => 0 < f x) ≤ (l.map f).sum := by
  induction l with
  | nil => exact Nat.le_refl 0
  | cons x l ih => by_cases hx : 0 < f x <;> simp [hx] <;> omega

/-- Numbers add up to the count of the positive ones just if none of them exceeds one. -/
theorem sum_map_eq_countP_iff {α : Type} (f : α → Nat) (l : List α) :
    (l.map f).sum = (l.countP fun x => 0 < f x) ↔ ∀ x ∈ l, f x ≤ 1 := by
  induction l with
  | nil => simp
  | cons x l ih =>
    have hrest := countP_pos_le_sum f l
    rw [List.map_cons, List.sum_cons, List.forall_mem_cons]
    by_cases hx : 0 < f x <;> simp [hx, ← ih] <;> omega

/-- How often a list of tags names a tag. -/
def timesTagged (t : String) (tags : Option (List String)) : Nat := (tags.getD []).count t

theorem timesTagged_pos (t : String) (tags : Option (List String)) :
    decide (0 < timesTagged t tags) = (tags.getD []).contains t := by
  rw [Bool.eq_iff_iff, decide_eq_true_eq, List.contains_iff_mem]
  exact List.count_pos_iff

theorem getD_get?_tallyAll_tags {α : Type} (tags : α → Option (List String)) (l : List α)
    (t : String) : (Table.get? t (tallyAll (l.flatMap fun e => (tags e).getD []))).getD 0 =
      (l.map fun e => timesTagged t (tags e)).sum := by
  rw [getD_get?_tallyAll, List.count_flatMap]
  rfl

theorem length_tagged (db : Compiled) (t : String) : (db.tagged t {}).length =
    (Table.values db.entries).countP fun e => (e.tags.getD []).contains t := by
  rw [Database.tagged, db.length_matching, accepts_tag]

theorem getD_tags_of_stripped? {e : Entry String} {r : ReleasedEntry String}
    (h : e.stripped? = some r) : r.tags.getD [] = e.tags.getD [] := by
  unfold Entry.stripped? at h
  split at h
  · cases h
  · obtain rfl := Option.some.inj h
    rcases htags : e.tags with _ | _ | ⟨t, ts⟩ <;> rfl

/-- The entries with a tag that are left in production are the public ones among those with it. -/
theorem length_tagged_published (db : Compiled) (t : String) :
    (db.tagged t { visibility := some .published }).length =
      (Table.values db.surviving).countP fun e => (e.tags.getD []).contains t := by
  have hvalues : Table.values db.surviving =
      (Table.values db.entries).filterMap Entry.stripped? := by
    simp only [Table.values, Database.surviving, List.map_filterMap, List.filterMap_map]
    congr 1
    funext p
    cases h : p.2.stripped? <;> simp [h]
  rw [hvalues, List.countP_filterMap, Database.tagged, db.length_matching]
  congr 1
  funext e
  have hpublished : (e.visibilityOrPublic == .published) = (e.visibility != some .internal) := by
    rcases hv : e.visibility with _ | _ | _ <;> simp [Entry.visibilityOrPublic, hv]
  have hsome := e.isSome_stripped?
  cases hstripped : e.stripped? with
  | none => simp_all [Filter.accepts]
  | some r =>
    rw [hstripped, Option.isSome_some] at hsome
    simp [Filter.accepts, Entry.taggedWithAny, hpublished, ← hsome, getD_tags_of_stripped? hstripped]

/-- The count of a tag is the number of times that entries name it.  It is the number of entries
that a query for the tag finds just if no entry names it more than once.  In production the same
holds of the entries that are left, and those among them that carry the tag are the public ones that
a query finds. -/
theorem tag_counts {b : Base} {stamp : Stamp} {corpus : List Extraction} {db : Compiled}
    (h : compile b stamp corpus = .ok db) (t : String) :
    (Table.get? t db.stats.byTag).getD 0 =
      ((Table.values db.entries).map fun e => timesTagged t e.tags).sum ∧
    ((Table.get? t db.stats.byTag).getD 0 = (db.tagged t {}).length ↔
      ∀ e ∈ Table.values db.entries, timesTagged t e.tags ≤ 1) ∧
    (Table.get? t db.release.byTag).getD 0 =
      ((Table.values db.release.entries).map fun e => timesTagged t e.tags).sum ∧
    ((Table.get? t db.release.byTag).getD 0 =
        ((Table.values db.release.entries).countP fun e => (e.tags.getD []).contains t) ↔
      ∀ e ∈ Table.values db.release.entries, timesTagged t e.tags ≤ 1) ∧
    ((Table.values db.release.entries).countP fun e => (e.tags.getD []).contains t) =
      (db.tagged t { visibility := some .published }).length := by
  obtain ⟨_, _, hstats⟩ := compile_eq_ok h
  have hcount : (Table.get? t db.stats.byTag).getD 0 =
      ((Table.values db.entries).map fun e => timesTagged t e.tags).sum := by
    rw [hstats]
    exact getD_get?_tallyAll_tags Entry.tags _ t
  have hreleased : (Table.get? t db.release.byTag).getD 0 =
      ((Table.values db.release.entries).map fun e => timesTagged t e.tags).sum :=
    getD_get?_tallyAll_tags ReleasedEntry.tags _ t
  refine ⟨hcount, ?_, hreleased, ?_, (length_tagged_published db t).symm⟩
  · rw [hcount, length_tagged, ← sum_map_eq_countP_iff]
    simp only [timesTagged_pos]
  · rw [hreleased, ← sum_map_eq_countP_iff]
    simp only [timesTagged_pos]

/-- One entry names a tag twice and another, which is internal, once. -/
def retaggedCorpus : List Extraction :=
  [⟨"m.ts", [
      ⟨{ id := "a", tags := some ["ui", "db", "ui"] }, .comment, 1, "", none⟩,
      ⟨{ id := "b", visibility := some .internal, tags := some ["ui"] }, .comment, 5, "", none⟩],
      []⟩]

theorem tag_counts_retagged :
    ∃ db, compile ⟨[], none⟩ ⟨defaultVersion, ""⟩ retaggedCorpus = .ok db ∧
      (Table.get? "db" db.stats.byTag).getD 0 = (db.tagged "db" {}).length ∧
      (Table.get? "ui" db.stats.byTag).getD 0 =
        ((Table.values db.entries).map fun e => timesTagged "ui" e.tags).sum := by
  obtain ⟨db, h, honce⟩ :
      ∃ db, compile ⟨[], none⟩ ⟨defaultVersion, ""⟩ retaggedCorpus = .ok db ∧
        ∀ e ∈ Table.values db.entries, timesTagged "db" e.tags ≤ 1 :=
    ⟨_, rfl, by decide +kernel⟩
  exact ⟨db, h, (tag_counts h "db").2.1.mpr honce, (tag_counts h "ui").1⟩

/-- A tag that an entry names twice counts twice, in the database and in production. -/
theorem tag_counts_exceed_entries :
    ∃ db, compile ⟨[], none⟩ ⟨defaultVersion, ""⟩ retaggedCorpus = .ok db ∧
      (Table.get? "ui" db.stats.byTag).getD 0 = 3 ∧ (db.tagged "ui" {}).length = 2 ∧
      (Table.get? "ui" db.release.byTag).getD 0 = 2 ∧
      ((Table.values db.release.entries).countP fun e => (e.tags.getD []).contains "ui") = 1 :=
  ⟨_, rfl, by decide +kernel, by decide +kernel, by decide +kernel, by decide +kernel⟩

end Marginalia
