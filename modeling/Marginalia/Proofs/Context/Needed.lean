/-
  Marginalia/Proofs/Context/Needed.lean
  =====================================
  **The search for what a selection needs.**  It goes like the search for a closure,
  with two differences: an id is taken when it is met and not when it leaves the
  queue, and only ids of entries are.  Kept side by side, the two searches have the
  same entries ahead of them, in the same order (`InStep`), so the selection and
  what it needs are the entries of the closure of its ids
  (`pending_append_neededFrom`).
-/
import Marginalia.Context.Select
import Marginalia.Proofs.Graph.Closure

namespace Marginalia.Context

open Marginalia.Graph

variable {α : Type} [BEq α]

/-! ### Entries ahead -/

/-- The entries of a list that are not left out, each once. -/
def pending (isEntry : α → Bool) (without l : List α) : List α := (discover isEntry without l).1

variable [LawfulBEq α] {isEntry : α → Bool} {x : α}

omit [LawfulBEq α] in
theorem pending_nil (without : List α) : pending isEntry without [] = [] := rfl

theorem pending_cons_skip {without : List α} (h : isEntry x → x ∈ without) (l : List α) :
    pending isEntry without (x :: l) = pending isEntry without l := by
  have hskip : (without.contains x || !isEntry x) = true := by
    cases hentry : isEntry x with
    | false => simp
    | true => simp [h hentry]
  rw [pending, discover, if_pos hskip, pending]

theorem pending_cons_take {without : List α} (hentry : isEntry x) (hx : x ∉ without) (l : List α) :
    pending isEntry without (x :: l) = x :: pending isEntry (x :: without) l := by
  have htake : ¬ (without.contains x || !isEntry x) = true := by simp [hentry, hx]
  rw [pending, discover, if_neg htake, pending]

theorem skip_or_take (isEntry : α → Bool) (without : List α) (x : α) :
    (isEntry x → x ∈ without) ∨ (isEntry x ∧ x ∉ without) := by
  by_cases hx : x ∈ without
  · exact .inl fun _ => hx
  · by_cases hentry : isEntry x
    · exact .inr ⟨hentry, hx⟩
    · exact .inl fun h => absurd h hentry

theorem mem_pending_iff {without l : List α} :
    x ∈ pending isEntry without l ↔ x ∈ l ∧ isEntry x ∧ x ∉ without := by
  induction l generalizing without with
  | nil => simp [pending_nil]
  | cons y l ih =>
    rcases skip_or_take isEntry without y with hskip | ⟨hentry, hy⟩
    · rw [pending_cons_skip hskip, ih, List.mem_cons]
      constructor
      · rintro ⟨hl, hx⟩
        exact ⟨.inr hl, hx⟩
      · rintro ⟨rfl | hl, hentry, hx⟩
        · exact absurd (hskip hentry) hx
        · exact ⟨hl, hentry, hx⟩
    · rw [pending_cons_take hentry hy, List.mem_cons, ih, List.mem_cons, List.mem_cons]
      constructor
      · rintro (rfl | ⟨hl, hx, hnot⟩)
        · exact ⟨.inl rfl, hentry, hy⟩
        · exact ⟨.inr hl, hx, fun h => hnot (.inr h)⟩
      · rintro ⟨rfl | hl, hx, hnot⟩
        · exact .inl rfl
        · by_cases hxy : x = y
          · exact .inl hxy
          · exact .inr ⟨hl, hx, fun h => h.elim hxy hnot⟩

theorem pending_congr {without without' l : List α}
    (h : ∀ y, isEntry y → (y ∈ without ↔ y ∈ without')) :
    pending isEntry without l = pending isEntry without' l := by
  induction l generalizing without without' with
  | nil => rfl
  | cons y l ih =>
    rcases skip_or_take isEntry without y with hskip | ⟨hentry, hy⟩
    · rw [pending_cons_skip hskip, pending_cons_skip fun hentry => (h y hentry).mp (hskip hentry)]
      exact ih h
    · have hy' : y ∉ without' := fun hmem => hy ((h y hentry).mpr hmem)
      rw [pending_cons_take hentry hy, pending_cons_take hentry hy']
      congr 1
      apply ih
      intro z hz
      rw [List.mem_cons, List.mem_cons, h z hz]

/-- What is ahead in a list comes before what only the list behind it adds. -/
theorem pending_append (without l l' : List α) : pending isEntry without (l ++ l') =
    pending isEntry without l ++ pending isEntry (without ++ l) l' := by
  induction l generalizing without with
  | nil => rw [List.nil_append, pending_nil, List.nil_append, List.append_nil]
  | cons y l ih =>
    rw [List.cons_append]
    rcases skip_or_take isEntry without y with hskip | ⟨hentry, hy⟩
    · rw [pending_cons_skip hskip, pending_cons_skip hskip, ih]
      congr 1
      apply pending_congr
      intro z hz
      have hzy : z = y → z ∈ without := by
        rintro rfl
        exact hskip hz
      simp only [List.mem_append, List.mem_cons]
      tauto
    · rw [pending_cons_take hentry hy, pending_cons_take hentry hy, ih, List.cons_append]
      congr 2
      apply pending_congr
      intro z _
      simp only [List.mem_append, List.mem_cons]
      tauto

theorem pending_pending {without without' l : List α}
    (h : ∀ y ∈ pending isEntry without l, y ∉ without') :
    pending isEntry without' (pending isEntry without l) = pending isEntry without l := by
  induction l generalizing without without' with
  | nil => rfl
  | cons y l ih =>
    rcases skip_or_take isEntry without y with hskip | ⟨hentry, hy⟩
    · rw [pending_cons_skip hskip] at h ⊢
      exact ih h
    · rw [pending_cons_take hentry hy] at h ⊢
      rw [pending_cons_take hentry (h y List.mem_cons_self), ih]
      intro z hz hmem
      rcases List.mem_cons.mp hmem with rfl | hmem
      · exact (mem_pending_iff.mp hz).2.2 List.mem_cons_self
      · exact h z (List.mem_cons_of_mem y hz) hmem

theorem pending_filter {without without' l : List α} (h : ∀ y ∈ without', y ∈ without) :
    pending isEntry without (l.filter fun y => !without'.contains y) =
      pending isEntry without l := by
  induction l generalizing without with
  | nil => rfl
  | cons y l ih =>
    by_cases hy : y ∈ without'
    · rw [List.filter_cons_of_neg (by simpa using hy), ih h, pending_cons_skip fun _ => h y hy]
    · rw [List.filter_cons_of_pos (by simpa using hy)]
      rcases skip_or_take isEntry without y with hskip | ⟨hentry, hnew⟩
      · rw [pending_cons_skip hskip, pending_cons_skip hskip, ih h]
      · rw [pending_cons_take hentry hnew, pending_cons_take hentry hnew,
          ih fun z hz => List.mem_cons_of_mem y (h z hz)]

/-- Where something is ahead, the list has it behind elements that are left out. -/
theorem exists_of_pending_eq_cons {without l rest : List α} (hentries : ∀ y ∈ l, isEntry y)
    (h : pending isEntry without l = x :: rest) :
    ∃ skipped l', l = skipped ++ x :: l' ∧ (∀ y ∈ skipped, y ∈ without) ∧ x ∉ without ∧
      rest = pending isEntry (x :: without) l' := by
  induction l with
  | nil => simp [pending_nil] at h
  | cons y l ih =>
    by_cases hy : y ∈ without
    · rw [pending_cons_skip fun _ => hy] at h
      obtain ⟨skipped, l', rfl, hskipped, hrest⟩ :=
        ih (fun z hz => hentries z (List.mem_cons_of_mem y hz)) h
      refine ⟨y :: skipped, l', rfl, ?_, hrest⟩
      intro z hz
      rcases List.mem_cons.mp hz with rfl | hz
      · exact hy
      · exact hskipped z hz
    · rw [pending_cons_take (hentries y List.mem_cons_self) hy] at h
      obtain ⟨rfl, rfl⟩ := List.cons.inj h
      exact ⟨[], l, rfl, by simp, hy, rfl⟩

theorem mem_discover_snd (chosen ts : List α) :
    x ∈ (discover isEntry chosen ts).2 ↔ x ∈ chosen ∨ x ∈ pending isEntry chosen ts := by
  induction ts generalizing chosen with
  | nil => simp [discover, pending_nil]
  | cons t ts ih =>
    rw [pending, discover]
    split
    · exact ih chosen
    · have hrest := ih (t :: chosen)
      simp only [pending, List.mem_cons] at hrest ⊢
      rw [hrest]
      tauto

/-! ### The search over the table as it is -/

/-- Tables that agree on what has not been visited agree on what is needed. -/
theorem neededFrom_congr (adj : Adjacency α) (visited chosen queue : List α) :
    ∀ adj' : Adjacency α, (∀ x, x ∉ visited → targetsOf adj x = targetsOf adj' x) →
      neededFrom isEntry adj visited chosen queue =
        neededFrom isEntry adj' visited chosen queue := by
  induction adj, visited, chosen, queue using neededFrom.induct isEntry with
  | case1 adj visited chosen =>
    intro adj' _
    rw [neededFrom, neededFrom]
  | case2 adj visited chosen x queue hseen ih =>
    intro adj' h
    rw [neededFrom.eq_2, neededFrom.eq_2, if_pos hseen, if_pos hseen]
    exact ih adj' h
  | case3 adj visited chosen x queue hnew found ih =>
    intro adj' h
    have hx : x ∉ visited := by simpa using hnew
    rw [neededFrom.eq_2, neededFrom.eq_2, if_neg hnew, if_neg hnew]
    change found.1 ++ neededFrom _ _ _ found.2 (queue ++ found.1) = _
    rw [ih _ fun y hy => targetsOf_erase_congr x h hy]
    simp only [found, h x hx]

omit [LawfulBEq α] in
theorem neededFrom_nil (adj : Adjacency α) (visited chosen : List α) :
    neededFrom isEntry adj visited chosen [] = [] := by
  rw [neededFrom]

theorem neededFrom_seen (adj : Adjacency α) (chosen queue : List α) {visited skipped : List α}
    (h : ∀ y ∈ skipped, y ∈ visited) :
    neededFrom isEntry adj visited chosen (skipped ++ queue) =
      neededFrom isEntry adj visited chosen queue := by
  induction skipped with
  | nil => rfl
  | cons y skipped ih =>
    have hy : visited.contains y = true := by simpa using h y List.mem_cons_self
    rw [List.cons_append, neededFrom.eq_2, if_pos hy]
    exact ih fun z hz => h z (List.mem_cons_of_mem y hz)

theorem neededFrom_new (adj : Adjacency α) {visited chosen queue : List α} (hx : x ∉ visited) :
    neededFrom isEntry adj visited chosen (x :: queue) =
      pending isEntry chosen (targetsOf adj x) ++
        neededFrom isEntry adj (x :: visited) (discover isEntry chosen (targetsOf adj x)).2
          (queue ++ pending isEntry chosen (targetsOf adj x)) := by
  rw [neededFrom.eq_2, if_neg (by simpa using hx), pending]
  exact congrArg _ (neededFrom_congr _ _ _ _ adj fun y hy => targetsOf_erase_of_not_mem adj hy)

/-! ### The two searches side by side -/

/-- A search for what is needed that has visited, chosen and queued these ids keeps up with a search
for a closure.  Both have visited the same entries and have the same entries ahead; chosen is what
was visited or is ahead. -/
structure InStep (isEntry : α → Bool) (visited queue visited' chosen' queue' : List α) : Prop where
  entries : ∀ y ∈ queue', isEntry y
  visited_iff : ∀ y, isEntry y → (y ∈ visited' ↔ y ∈ visited)
  chosen_iff : ∀ y, isEntry y → (y ∈ chosen' ↔ y ∈ visited ∨ y ∈ queue)
  ahead : pending isEntry visited' queue' = pending isEntry visited queue

variable {adj : Adjacency α} {visited queue visited' chosen' queue' : List α}

omit [LawfulBEq α] in
theorem InStep.start {ids : List α} (h : ∀ y ∈ ids, isEntry y) :
    InStep isEntry [] ids [] ids ids :=
  ⟨h, fun _ _ => Iff.rfl, by simp, rfl⟩

theorem InStep.seen (h : InStep isEntry visited (x :: queue) visited' chosen' queue')
    (hx : x ∈ visited) : InStep isEntry visited queue visited' chosen' queue' := by
  refine ⟨h.entries, h.visited_iff, ?_, h.ahead.trans (pending_cons_skip (fun _ => hx) queue)⟩
  intro y hy
  rw [h.chosen_iff y hy, List.mem_cons]
  constructor
  · rintro (hy | rfl | hy)
    · exact .inl hy
    · exact .inl hx
    · exact .inr hy
  · rintro (hy | hy)
    · exact .inl hy
    · exact .inr (.inr hy)

/-- An id without an entry is passed by. -/
theorem InStep.pass (h : InStep isEntry visited (x :: queue) visited' chosen' queue')
    (hx : ¬ isEntry x) : InStep isEntry (x :: visited) queue visited' chosen' queue' := by
  have hne : ∀ y, isEntry y → y ≠ x := by
    rintro y hy rfl
    exact hx hy
  have hmem : ∀ y, isEntry y → ∀ l : List α, y ∈ x :: l ↔ y ∈ l := by
    intro y hy l
    simp [hne y hy]
  refine ⟨h.entries, ?_, ?_, ?_⟩
  · intro y hy
    rw [h.visited_iff y hy, hmem y hy]
  · intro y hy
    rw [h.chosen_iff y hy, hmem y hy, hmem y hy]
  · rw [h.ahead, pending_cons_skip fun hentry => absurd hentry hx]
    exact pending_congr fun y hy => (hmem y hy visited).symm

/-- Fresh targets that were not queued before are those that have not been chosen. -/
theorem InStep.pending_freshTargets
    (h : InStep isEntry visited (x :: queue) visited' chosen' queue') :
    pending isEntry (x :: visited ++ queue) (freshTargets adj (x :: visited) x) =
      pending isEntry chosen' (targetsOf adj x) := by
  rw [freshTargets, pending_filter fun y hy => List.mem_append_left queue hy]
  apply pending_congr
  intro y hy
  rw [h.chosen_iff y hy]
  simp only [List.mem_append, List.mem_cons]
  tauto

theorem InStep.not_mem_of_mem_pending
    (h : InStep isEntry visited queue visited' chosen' queue') {ts : List α} {y : α}
    (hy : y ∈ pending isEntry chosen' ts) : y ∉ visited' ∧ y ∉ queue' := by
  obtain ⟨_, hentry, hchosen⟩ := mem_pending_iff.mp hy
  obtain ⟨hvisited, hqueue⟩ : y ∉ visited ∧ y ∉ queue := by
    rw [h.chosen_iff y hentry] at hchosen
    exact not_or.mp hchosen
  have hvisited' : y ∉ visited' := fun hmem => hvisited ((h.visited_iff y hentry).mp hmem)
  refine ⟨hvisited', ?_⟩
  intro hmem
  have hahead : y ∈ pending isEntry visited' queue' := mem_pending_iff.mpr ⟨hmem, hentry, hvisited'⟩
  rw [h.ahead] at hahead
  exact hqueue (mem_pending_iff.mp hahead).1

/-- When the one search lists an entry, the other one visits it and chooses those of its targets
that are then ahead besides. -/
theorem InStep.new (adj : Adjacency α) {skipped rest : List α}
    (h : InStep isEntry visited (x :: queue) visited' chosen' (skipped ++ x :: rest))
    (hrest : pending isEntry (x :: visited) queue = pending isEntry (x :: visited') rest) :
    pending isEntry (x :: visited') (rest ++ pending isEntry chosen' (targetsOf adj x)) =
        pending isEntry (x :: visited') rest ++ pending isEntry chosen' (targetsOf adj x) ∧
      InStep isEntry (x :: visited) (queue ++ freshTargets adj (x :: visited) x) (x :: visited')
        (discover isEntry chosen' (targetsOf adj x)).2
        (rest ++ pending isEntry chosen' (targetsOf adj x)) := by
  have hfound :
      pending isEntry (x :: visited') (rest ++ pending isEntry chosen' (targetsOf adj x)) =
        pending isEntry (x :: visited') rest ++ pending isEntry chosen' (targetsOf adj x) := by
    rw [pending_append, pending_pending]
    intro y hy hmem
    obtain ⟨hvisited, hqueue⟩ := h.not_mem_of_mem_pending hy
    simp only [List.mem_append, List.mem_cons] at hmem hqueue
    tauto
  refine ⟨hfound, ?_, ?_, ?_, ?_⟩
  · intro y hy
    rcases List.mem_append.mp hy with hy | hy
    · exact h.entries y (List.mem_append_right skipped (List.mem_cons_of_mem x hy))
    · exact (mem_pending_iff.mp hy).2.1
  · intro y hy
    rw [List.mem_cons, List.mem_cons, h.visited_iff y hy]
  · intro y hy
    rw [mem_discover_snd, mem_pending_iff, h.chosen_iff y hy, List.mem_append,
      mem_freshTargets_iff, Adjacent]
    simp only [List.mem_cons]
    tauto
  · rw [hfound, ← hrest, pending_append, h.pending_freshTargets]

/-- The entries ahead of a search for what is needed, and those that it adds, are the entries of the
closure that it keeps up with. -/
theorem pending_append_neededFrom (hleaf : ∀ y, ¬ isEntry y → targetsOf adj y = [])
    (visited queue : List α) : ∀ {visited' chosen' queue' : List α},
      InStep isEntry visited queue visited' chosen' queue' →
      pending isEntry visited' queue' ++ neededFrom isEntry adj visited' chosen' queue' =
        (closureFrom adj visited queue).filter isEntry := by
  induction visited, queue using breadthFirst_induction adj with
  | done visited =>
    intro visited' chosen' queue' h
    have hnone : pending isEntry visited' queue' = [] := h.ahead
    have hqueue : ∀ y ∈ queue', y ∈ visited' := by
      intro y hy
      by_contra hvisited
      have hahead := mem_pending_iff.mpr ⟨hy, h.entries y hy, hvisited⟩
      rw [hnone] at hahead
      exact List.not_mem_nil hahead
    have hneeded : neededFrom isEntry adj visited' chosen' queue' = [] := by
      rw [← List.append_nil queue', neededFrom_seen adj chosen' [] hqueue, neededFrom_nil]
    rw [hnone, hneeded, closureFrom_nil]
    rfl
  | seen visited x queue hx ih =>
    intro visited' chosen' queue' h
    rw [closureFrom_seen hx]
    exact ih (h.seen hx)
  | new visited x queue hx ih =>
    intro visited' chosen' queue' h
    rw [closureFrom_new hx]
    by_cases hentry : isEntry x
    · have hahead : pending isEntry visited' queue' = x :: pending isEntry (x :: visited) queue :=
        h.ahead.trans (pending_cons_take hentry hx queue)
      obtain ⟨skipped, rest, rfl, hskipped, hx', hrest⟩ :=
        exists_of_pending_eq_cons h.entries hahead
      obtain ⟨hfound, hnext⟩ := h.new adj hrest
      rw [hahead, neededFrom_seen adj _ _ hskipped, neededFrom_new adj hx',
        List.filter_cons_of_pos hentry, ← ih hnext, hfound, hrest, List.cons_append,
        List.append_assoc]
    · -- an id without an entry has no targets either
      have hfresh : freshTargets adj (x :: visited) x = [] := by
        rw [freshTargets, hleaf x hentry, List.filter_nil]
      rw [List.filter_cons_of_neg hentry]
      apply ih
      rw [hfresh, List.append_nil]
      exact h.pass hentry

/-! ### Other names for the ids -/

section

omit [LawfulBEq α]

variable {β : Type} [BEq β] {f : α → β} (hf : ∀ x y, (f x == f y) = (x == y))
  {isEntry' : β → Bool} (hentry : ∀ x, isEntry' (f x) = isEntry x)

include hf hentry

theorem discover_map (chosen ts : List α) : discover isEntry' (chosen.map f) (ts.map f) =
    ((discover isEntry chosen ts).1.map f, (discover isEntry chosen ts).2.map f) := by
  induction ts generalizing chosen with
  | nil => rfl
  | cons t ts ih =>
    rw [List.map_cons, discover, discover, contains_map hf, hentry]
    split
    · exact ih chosen
    · rw [← List.map_cons, ih]
      rfl

theorem neededFrom_relabel (adj : Adjacency α) (visited chosen queue : List α) :
    neededFrom isEntry' (relabel f adj) (visited.map f) (chosen.map f) (queue.map f) =
      (neededFrom isEntry adj visited chosen queue).map f := by
  induction adj, visited, chosen, queue using neededFrom.induct isEntry with
  | case1 adj visited chosen => rw [List.map_nil, neededFrom, neededFrom, List.map_nil]
  | case2 adj visited chosen x queue hx ih =>
    rw [List.map_cons, neededFrom.eq_2, neededFrom.eq_2, contains_map hf, if_pos hx, if_pos hx, ih]
  | case3 adj visited chosen x queue hx found ih =>
    have hfound : discover isEntry' (chosen.map f) (targetsOf (relabel f adj) (f x)) =
        (found.1.map f, found.2.map f) := by
      rw [targetsOf_relabel hf, discover_map hf hentry]
    rw [List.map_cons, neededFrom.eq_2, neededFrom.eq_2, contains_map hf, if_neg hx, if_neg hx]
    simp only [hfound, erase_relabel hf, ← List.map_append, ← List.map_cons]
    rw [ih, List.map_append]

end

end Marginalia.Context
