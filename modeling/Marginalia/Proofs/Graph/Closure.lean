/-
  Marginalia/Proofs/Graph/Closure.lean
  ====================================
  **What the closure of a node holds, and in which order.**  The search takes the
  entry of a node out of the table when it visits it, but looks up only nodes that
  it has not visited, so it does the same over the table as it is
  (`breadthFirst_induction`).  Three facts then follow the queue:

    * no node is listed twice, and none that was visited (`nodup_closureFrom`);
    * the nodes listed are those that a walk from the queue reaches without meeting
      a visited one (`mem_closureFrom_iff`);
    * the queue is a front of nodes at one distance from the start, followed by
      nodes one step further, and all that is nearer has been visited (`Front`), so
      the nodes come nearest first (`nearestFirst_closureFrom`).
-/
import Marginalia.Graph.Closure
import Marginalia.Proofs.Graph.Walk

namespace Marginalia.Graph

/-! ### Walks with a number of steps -/

/-- So many steps lead from `x` to the node. -/
inductive LeadsIn {α : Type} (step : α → α → Prop) (x : α) : Nat → α → Prop
  | start : LeadsIn step x 0 x
  | next {n : Nat} {y z : α} : LeadsIn step x n y → step y z → LeadsIn step x (n + 1) z

/-- The first node can be reached in as few steps as the second. -/
def NoFarther {α : Type} (step : α → α → Prop) (x a b : α) : Prop :=
  ∀ n, LeadsIn step x n b → ∃ m, m ≤ n ∧ LeadsIn step x m a

theorem LeadsIn.cons {α : Type} {step : α → α → Prop} {x t y : α} {n : Nat} (hstep : step x t)
    (h : LeadsIn step t n y) : LeadsIn step x (n + 1) y := by
  induction h with
  | start => exact .next .start hstep
  | next _ hnext ih => exact .next ih hnext

variable {α : Type} [BEq α]

theorem ReachesAvoiding.mono {adj : Adjacency α} {avoid avoid' : List α} {x y : α}
    (h : ReachesAvoiding adj avoid x y) (hsub : ∀ z ∈ avoid', z ∈ avoid) :
    ReachesAvoiding adj avoid' x y := by
  induction h with
  | start hx => exact .start fun hmem => hx (hsub _ hmem)
  | step _ hadj hz ih => exact .step ih hadj fun hmem => hz (hsub _ hmem)

theorem ReachesAvoiding.cons {adj : Adjacency α} {avoid : List α} {x t y : α} (hx : x ∉ avoid)
    (hadj : Adjacent adj x t) (h : ReachesAvoiding adj avoid t y) :
    ReachesAvoiding adj avoid x y := by
  induction h with
  | start ht => exact .step (.start hx) hadj ht
  | step _ hstep hz ih => exact .step ih hstep hz

/-- A walk meets `x` never, or at its end, or it can be taken up after it has met `x` last. -/
theorem ReachesAvoiding.after_last {adj : Adjacency α} {avoid : List α} {t y : α} (x : α)
    (h : ReachesAvoiding adj avoid t y) :
    ReachesAvoiding adj (x :: avoid) t y ∨ y = x ∨
      ∃ t', Adjacent adj x t' ∧ ReachesAvoiding adj (x :: avoid) t' y := by
  induction h with
  | start ht =>
    by_cases hx : t = x
    · exact .inr (.inl hx)
    · exact .inl (.start (by simp [hx, ht]))
  | @step y z _ hadj hz ih =>
    by_cases hx : z = x
    · exact .inr (.inl hx)
    · have hz' : z ∉ x :: avoid := by simp [hx, hz]
      rcases ih with ih | rfl | ⟨t', hstep, ih⟩
      · exact .inl (.step ih hadj hz')
      · exact .inr (.inr ⟨z, hadj, .start hz'⟩)
      · exact .inr (.inr ⟨t', hstep, .step ih hadj hz'⟩)

theorem ReachesAvoiding.leadsIn {adj : Adjacency α} {avoid : List α} {x y : α}
    (h : ReachesAvoiding adj avoid x y) : ∃ n, LeadsIn (Adjacent adj) x n y := by
  induction h with
  | start _ => exact ⟨0, .start⟩
  | step _ hadj _ ih =>
    obtain ⟨n, hn⟩ := ih
    exact ⟨n + 1, .next hn hadj⟩

theorem LeadsIn.reachesAvoiding {adj : Adjacency α} {x y : α} {n : Nat}
    (h : LeadsIn (Adjacent adj) x n y) : ReachesAvoiding adj [] x y := by
  induction h with
  | start => exact .start List.not_mem_nil
  | next _ hadj ih => exact .step ih hadj List.not_mem_nil

/-! ### The search over the table as it is -/

/-- The targets of a node that are not among the visited ones. -/
def freshTargets (adj : Adjacency α) (visited : List α) (x : α) : List α :=
  (targetsOf adj x).filter fun t => !visited.contains t

theorem closureFrom_nil (adj : Adjacency α) (visited : List α) :
    closureFrom adj visited [] = [] := by
  rw [closureFrom]

variable [LawfulBEq α]

theorem mem_freshTargets_iff {adj : Adjacency α} {visited : List α} {x t : α} :
    t ∈ freshTargets adj visited x ↔ Adjacent adj x t ∧ t ∉ visited := by
  simp [freshTargets, Adjacent]

theorem targetsOf_erase_of_not_mem (adj : Adjacency α) {visited : List α} {x y : α}
    (hy : y ∉ x :: visited) : targetsOf (Table.erase x adj) y = targetsOf adj y := by
  apply targetsOf_erase_other
  rintro rfl
  exact hy List.mem_cons_self

theorem targetsOf_erase_congr {adj adj' : Adjacency α} {visited : List α} (x : α)
    (h : ∀ y, y ∉ visited → targetsOf adj y = targetsOf adj' y) {y : α} (hy : y ∉ x :: visited) :
    targetsOf (Table.erase x adj) y = targetsOf (Table.erase x adj') y := by
  rw [targetsOf_erase_of_not_mem adj hy, targetsOf_erase_of_not_mem adj' hy]
  exact h y fun hmem => hy (List.mem_cons_of_mem x hmem)

/-- Tables that agree on what has not been visited agree on what is found. -/
theorem closureFrom_congr (adj : Adjacency α) (visited queue : List α) :
    ∀ adj' : Adjacency α, (∀ x, x ∉ visited → targetsOf adj x = targetsOf adj' x) →
      closureFrom adj visited queue = closureFrom adj' visited queue := by
  induction adj, visited, queue using closureFrom.induct with
  | case1 adj visited =>
    intro adj' _
    rw [closureFrom, closureFrom]
  | case2 adj visited x queue hseen ih =>
    intro adj' h
    rw [closureFrom.eq_2, closureFrom.eq_2, if_pos hseen, if_pos hseen]
    exact ih adj' h
  | case3 adj visited x queue hnew next ih =>
    intro adj' h
    have hx : x ∉ visited := by simpa using hnew
    rw [closureFrom.eq_2, closureFrom.eq_2, if_neg hnew, if_neg hnew]
    change x :: closureFrom _ _ (queue ++ next) = _
    rw [ih _ fun y hy => targetsOf_erase_congr x h hy]
    simp only [next, h x hx]

theorem closureFrom_seen {adj : Adjacency α} {visited queue : List α} {x : α} (hx : x ∈ visited) :
    closureFrom adj visited (x :: queue) = closureFrom adj visited queue := by
  rw [closureFrom.eq_2, if_pos (by simpa using hx)]

theorem closureFrom_new {adj : Adjacency α} {visited queue : List α} {x : α} (hx : x ∉ visited) :
    closureFrom adj visited (x :: queue) =
      x :: closureFrom adj (x :: visited) (queue ++ freshTargets adj (x :: visited) x) := by
  rw [closureFrom.eq_2, if_neg (by simpa using hx)]
  change x :: closureFrom _ _ (queue ++ freshTargets adj (x :: visited) x) = _
  rw [closureFrom_congr _ _ _ adj fun y hy => targetsOf_erase_of_not_mem adj hy]

/-- What holds of an empty queue, and before a step if it holds after it, holds of every queue. -/
theorem breadthFirst_induction (adj : Adjacency α) {motive : List α → List α → Prop}
    (done : ∀ visited, motive visited [])
    (seen : ∀ visited x queue, x ∈ visited → motive visited queue → motive visited (x :: queue))
    (new : ∀ visited x queue, x ∉ visited →
      motive (x :: visited) (queue ++ freshTargets adj (x :: visited) x) →
      motive visited (x :: queue))
    (visited queue : List α) : motive visited queue := by
  -- over the table that is left, which agrees with the whole one outside of what was visited
  have hleft : ∀ left : Adjacency α, (∀ y, y ∉ visited → targetsOf left y = targetsOf adj y) →
      motive visited queue := by
    intro left
    induction left, visited, queue using closureFrom.induct with
    | case1 left visited => exact fun _ => done visited
    | case2 left visited x queue hx ih =>
      intro hleft
      exact seen visited x queue (by simpa using hx) (ih hleft)
    | case3 left visited x queue hx next ih =>
      intro hleft
      have hx : x ∉ visited := by simpa using hx
      have hnext : next = freshTargets adj (x :: visited) x := by
        simp only [next, freshTargets, hleft x hx]
      apply new visited x queue hx
      rw [← hnext]
      apply ih
      intro y hy
      rw [targetsOf_erase_of_not_mem left hy]
      exact hleft y fun hmem => hy (List.mem_cons_of_mem x hmem)
  exact hleft adj fun _ _ => rfl

/-! ### What is listed -/

theorem mem_closureFrom_iff (adj : Adjacency α) {y : α} (visited queue : List α) :
    y ∈ closureFrom adj visited queue ↔ ∃ t ∈ queue, ReachesAvoiding adj visited t y := by
  induction visited, queue using breadthFirst_induction adj with
  | done visited => simp [closureFrom_nil]
  | seen visited x queue hx ih =>
    rw [closureFrom_seen hx, ih]
    constructor
    · rintro ⟨t, ht, hreach⟩
      exact ⟨t, List.mem_cons_of_mem x ht, hreach⟩
    · rintro ⟨t, ht, hreach⟩
      rcases List.mem_cons.mp ht with rfl | ht
      · exact absurd hx hreach.source_not_mem
      · exact ⟨t, ht, hreach⟩
  | new visited x queue hx ih =>
    rw [closureFrom_new hx, List.mem_cons, ih]
    constructor
    · rintro (rfl | ⟨t, ht, hreach⟩)
      · exact ⟨y, List.mem_cons_self, .start hx⟩
      · have hreach' : ReachesAvoiding adj visited t y :=
          hreach.mono fun z hz => List.mem_cons_of_mem x hz
        rcases List.mem_append.mp ht with ht | ht
        · exact ⟨t, List.mem_cons_of_mem x ht, hreach'⟩
        · exact ⟨x, List.mem_cons_self, hreach'.cons hx (mem_freshTargets_iff.mp ht).1⟩
    · rintro ⟨t, ht, hreach⟩
      rcases hreach.after_last x with hreach | rfl | ⟨t', hadj, hreach⟩
      · have hne : t ≠ x := by
          rintro rfl
          exact hreach.source_not_mem List.mem_cons_self
        have ht : t ∈ queue := (List.mem_cons.mp ht).resolve_left hne
        exact .inr ⟨t, List.mem_append_left _ ht, hreach⟩
      · exact .inl rfl
      · have ht' := mem_freshTargets_iff.mpr ⟨hadj, hreach.source_not_mem⟩
        exact .inr ⟨t', List.mem_append_right _ ht', hreach⟩

theorem not_mem_of_mem_closureFrom {adj : Adjacency α} {visited queue : List α} {y : α}
    (hy : y ∈ closureFrom adj visited queue) : y ∉ visited := by
  obtain ⟨t, _, hreach⟩ := (mem_closureFrom_iff adj visited queue).mp hy
  cases hreach with
  | start hy => exact hy
  | step _ _ hy => exact hy

theorem nodup_closureFrom (adj : Adjacency α) (visited queue : List α) :
    (closureFrom adj visited queue).Nodup := by
  induction visited, queue using breadthFirst_induction adj with
  | done visited => simp [closureFrom_nil]
  | seen visited x queue hx ih => rwa [closureFrom_seen hx]
  | new visited x queue hx ih =>
    rw [closureFrom_new hx, List.nodup_cons]
    refine ⟨?_, ih⟩
    intro hmem
    exact not_mem_of_mem_closureFrom hmem List.mem_cons_self

/-- Nodes in the queue that have been visited make no difference. -/
theorem closureFrom_filter (adj : Adjacency α) (w visited queue : List α)
    (h : ∀ y ∈ w, y ∈ visited) :
    closureFrom adj visited (queue.filter fun t => !w.contains t) =
      closureFrom adj visited queue := by
  induction visited, queue using breadthFirst_induction adj with
  | done visited => rfl
  | seen visited x queue hx ih =>
    rw [closureFrom_seen hx, List.filter_cons]
    split
    · rw [closureFrom_seen hx, ih h]
    · exact ih h
  | new visited x queue hx ih =>
    have hw : x ∉ w := fun hmem => hx (h x hmem)
    have hfresh : (freshTargets adj (x :: visited) x).filter (fun t => !w.contains t) =
        freshTargets adj (x :: visited) x := by
      apply List.filter_eq_self.mpr
      intro t ht
      have ht : t ∉ w := fun hmem =>
        (mem_freshTargets_iff.mp ht).2 (List.mem_cons_of_mem x (h t hmem))
      simpa using ht
    rw [List.filter_cons_of_pos (by simpa using hw), closureFrom_new hx, closureFrom_new hx,
      ← ih fun y hy => List.mem_cons_of_mem x (h y hy), List.filter_append, hfresh]

theorem closureFrom_singleton (adj : Adjacency α) (x : α) :
    closureFrom adj [] [x] = x :: reachable adj x := by
  rw [closureFrom_new List.not_mem_nil, List.nil_append, freshTargets,
    closureFrom_filter adj [x] [x] _ fun _ hy => hy, reachable]

theorem mem_reachable_iff {adj : Adjacency α} {x y : α} :
    y ∈ reachable adj x ↔ y ≠ x ∧ ∃ n, 1 ≤ n ∧ LeadsIn (Adjacent adj) x n y := by
  rw [reachable, mem_closureFrom_iff]
  constructor
  · rintro ⟨t, ht, hreach⟩
    have hy : y ≠ x := by
      rintro rfl
      cases hreach with
      | start hy => exact hy List.mem_cons_self
      | step _ _ hy => exact hy List.mem_cons_self
    obtain ⟨n, hn⟩ := hreach.leadsIn
    exact ⟨hy, n + 1, by omega, hn.cons ht⟩
  · rintro ⟨hy, n, _, hn⟩
    rcases hn.reachesAvoiding.after_last x with hreach | rfl | ⟨t, hadj, hreach⟩
    · exact absurd List.mem_cons_self hreach.source_not_mem
    · exact absurd rfl hy
    · exact ⟨t, hadj, hreach⟩

/-! ### The order -/

/-- The queue of a search from `x`: nodes that `d` steps lead to, before nodes one step further.
All that fewer steps lead to has been visited, and nothing that a visited node leads to is
missing. -/
structure Front (adj : Adjacency α) (x : α) (d : Nat) (visited near far : List α) : Prop where
  near_leads : ∀ y ∈ near, LeadsIn (Adjacent adj) x d y
  far_leads : ∀ y ∈ far, LeadsIn (Adjacent adj) x (d + 1) y
  visited_of_lt : ∀ n < d, ∀ y, LeadsIn (Adjacent adj) x n y → y ∈ visited
  visited_or_near : ∀ y, LeadsIn (Adjacent adj) x d y → y ∈ visited ∨ y ∈ near
  closed : ∀ u ∈ visited, ∀ t, Adjacent adj u t → t ∈ visited ∨ t ∈ near ∨ t ∈ far

namespace Front

variable {adj : Adjacency α} {x y : α} {d : Nat} {visited near far : List α}

omit [LawfulBEq α] in
/-- When the front is used up, the nodes behind it are the next one. -/
theorem turn (h : Front adj x d visited [] far) : Front adj x (d + 1) visited far [] := by
  have hvisited : ∀ y, LeadsIn (Adjacent adj) x d y → y ∈ visited := by
    intro y hy
    simpa using h.visited_or_near y hy
  refine ⟨h.far_leads, by simp, ?_, ?_, ?_⟩
  · intro n hn y hy
    rcases Nat.lt_succ_iff_lt_or_eq.mp hn with hn | rfl
    · exact h.visited_of_lt n hn y hy
    · exact hvisited y hy
  · intro y hy
    cases hy with
    | next hu hadj =>
      rcases h.closed _ (hvisited _ hu) y hadj with hy | hy | hy
      · exact .inl hy
      · simp at hy
      · exact .inr hy
  · intro u hu t hadj
    rcases h.closed u hu t hadj with ht | ht | ht
    · exact .inl ht
    · simp at ht
    · exact .inr (.inl ht)

omit [LawfulBEq α] in
theorem seen (h : Front adj x d visited (y :: near) far) (hy : y ∈ visited) :
    Front adj x d visited near far := by
  have hnear : ∀ z, z ∈ y :: near → z ∈ visited ∨ z ∈ near := by
    intro z hz
    rcases List.mem_cons.mp hz with rfl | hz
    · exact .inl hy
    · exact .inr hz
  refine ⟨fun z hz => h.near_leads z (List.mem_cons_of_mem y hz), h.far_leads, h.visited_of_lt,
    ?_, ?_⟩
  · intro z hz
    rcases h.visited_or_near z hz with hz | hz
    · exact .inl hz
    · exact hnear z hz
  · intro u hu t hadj
    rcases h.closed u hu t hadj with ht | ht | ht
    · exact .inl ht
    · exact (hnear t ht).imp_right .inl
    · exact .inr (.inr ht)

theorem new (h : Front adj x d visited (y :: near) far) :
    Front adj x d (y :: visited) near (far ++ freshTargets adj (y :: visited) y) := by
  have hnear : ∀ z, z ∈ visited ∨ z ∈ y :: near → z ∈ y :: visited ∨ z ∈ near := by
    intro z hz
    rcases hz with hz | hz
    · exact .inl (List.mem_cons_of_mem y hz)
    · rcases List.mem_cons.mp hz with rfl | hz
      · exact .inl List.mem_cons_self
      · exact .inr hz
  refine ⟨fun z hz => h.near_leads z (List.mem_cons_of_mem y hz), ?_, ?_, ?_, ?_⟩
  · intro z hz
    rcases List.mem_append.mp hz with hz | hz
    · exact h.far_leads z hz
    · exact .next (h.near_leads y List.mem_cons_self) (mem_freshTargets_iff.mp hz).1
  · intro n hn z hz
    exact List.mem_cons_of_mem y (h.visited_of_lt n hn z hz)
  · intro z hz
    exact hnear z (h.visited_or_near z hz)
  · intro u hu t hadj
    rcases List.mem_cons.mp hu with rfl | hu
    · by_cases ht : t ∈ u :: visited
      · exact .inl ht
      · have hfresh := mem_freshTargets_iff.mpr ⟨hadj, ht⟩
        exact .inr (.inr (List.mem_append_right far hfresh))
    · rcases h.closed u hu t hadj with ht | ht | ht
      · exact (hnear t (.inl ht)).imp_right .inl
      · exact (hnear t (.inr ht)).imp_right .inl
      · exact .inr (.inr (List.mem_append_left _ ht))

omit [LawfulBEq α] in
/-- A node of the front that is listed next is no farther than what is listed after it. -/
theorem noFarther (h : Front adj x d visited (y :: near) far) {b : α} (hb : b ∉ visited) :
    NoFarther (Adjacent adj) x y b := by
  intro n hn
  refine ⟨d, ?_, h.near_leads y List.mem_cons_self⟩
  by_contra hlt
  exact hb (h.visited_of_lt n (by omega) b hn)

end Front

/-- From a front on, nodes are listed nearest first. -/
theorem nearestFirst_closureFrom (adj : Adjacency α) (x : α) (visited queue : List α) :
    ∀ {d : Nat} {near far : List α}, Front adj x d visited near far → queue = near ++ far →
      (closureFrom adj visited queue).Pairwise (NoFarther (Adjacent adj) x) := by
  induction visited, queue using breadthFirst_induction adj with
  | done visited => simp [closureFrom_nil]
  | seen visited y queue hy ih =>
    intro d near far h hqueue
    rw [closureFrom_seen hy]
    cases near with
    | cons z near =>
      obtain ⟨rfl, rfl⟩ : y = z ∧ queue = near ++ far := by simpa using hqueue
      exact ih (h.seen hy) rfl
    | nil =>
      obtain rfl : y :: queue = far := by simpa using hqueue
      exact ih (h.turn.seen hy) (by simp)
  | new visited y queue hy ih =>
    -- the node is the first of the front, at the old distance or at the next one
    have hfirst : ∀ {d : Nat} {near far : List α}, Front adj x d visited (y :: near) far →
        queue = near ++ far →
        (closureFrom adj visited (y :: queue)).Pairwise (NoFarther (Adjacent adj) x) := by
      intro d near far h hqueue
      rw [closureFrom_new hy, List.pairwise_cons]
      refine ⟨?_, ih h.new (by rw [hqueue, List.append_assoc])⟩
      intro b hb
      apply h.noFarther
      intro hvisited
      exact not_mem_of_mem_closureFrom hb (List.mem_cons_of_mem y hvisited)
    intro d near far h hqueue
    cases near with
    | cons z near =>
      obtain ⟨rfl, rfl⟩ : y = z ∧ queue = near ++ far := by simpa using hqueue
      exact hfirst h rfl
    | nil =>
      obtain rfl : y :: queue = far := by simpa using hqueue
      exact hfirst h.turn (by simp)

omit [LawfulBEq α] in
theorem front_targetsOf (adj : Adjacency α) (x : α) : Front adj x 1 [x] (targetsOf adj x) [] := by
  refine ⟨fun y hy => .next .start hy, by simp, ?_, ?_, ?_⟩
  · intro n hn y hy
    obtain rfl : n = 0 := by omega
    cases hy
    exact List.mem_cons_self
  · intro y hy
    cases hy with
    | next hu hadj =>
      cases hu
      exact .inr hadj
  · intro u hu t hadj
    obtain rfl : u = x := by simpa using hu
    exact .inr (.inl hadj)

theorem nearestFirst_reachable (adj : Adjacency α) (x : α) :
    (reachable adj x).Pairwise (NoFarther (Adjacent adj) x) :=
  nearestFirst_closureFrom adj x [x] _ (front_targetsOf adj x) (by simp)

/-! ### Other names for the nodes -/

section

variable {β : Type} [BEq β]

/-- The table with the nodes under other names. -/
def relabel (f : α → β) (adj : Adjacency α) : Adjacency β := adj.map fun p => (f p.1, p.2.map f)

omit [LawfulBEq α]

variable {f : α → β} (hf : ∀ x y, (f x == f y) = (x == y))

include hf

theorem targetsOf_relabel (adj : Adjacency α) (x : α) :
    targetsOf (relabel f adj) (f x) = (targetsOf adj x).map f := by
  induction adj with
  | nil => rfl
  | cons p adj ih =>
    simp only [targetsOf, relabel] at ih
    simp only [targetsOf, relabel, List.map_cons, Table.get?, hf]
    split
    · rfl
    · exact ih

theorem erase_relabel (adj : Adjacency α) (x : α) :
    Table.erase (f x) (relabel f adj) = relabel f (Table.erase x adj) := by
  induction adj with
  | nil => rfl
  | cons p adj ih =>
    simp only [relabel] at ih
    simp only [relabel, List.map_cons, Table.erase, hf, ih]
    split <;> rfl

theorem contains_map (l : List α) (x : α) : (l.map f).contains (f x) = l.contains x := by
  induction l with
  | nil => rfl
  | cons y l ih => rw [List.map_cons, List.contains_cons, List.contains_cons, hf, ih]

/-- Names that are told apart alike make no difference to the search. -/
theorem closureFrom_relabel (adj : Adjacency α) (visited queue : List α) :
    closureFrom (relabel f adj) (visited.map f) (queue.map f) =
      (closureFrom adj visited queue).map f := by
  induction adj, visited, queue using closureFrom.induct with
  | case1 adj visited => rw [List.map_nil, closureFrom_nil, closureFrom_nil, List.map_nil]
  | case2 adj visited x queue hx ih =>
    rw [List.map_cons, closureFrom.eq_2, closureFrom.eq_2, contains_map hf, if_pos hx, if_pos hx,
      ih]
  | case3 adj visited x queue hx next ih =>
    have hnext : (targetsOf (relabel f adj) (f x)).filter
        (fun t => !(f x :: visited.map f).contains t) = next.map f := by
      rw [targetsOf_relabel hf, List.filter_map]
      congr 1
      apply List.filter_congr
      intro t _
      rw [Function.comp_apply, ← List.map_cons, contains_map hf]
    rw [List.map_cons, closureFrom.eq_2, closureFrom.eq_2, contains_map hf, if_neg hx, if_neg hx]
    change f x :: closureFrom _ (f x :: visited.map f) (queue.map f ++ (targetsOf _ _).filter
      fun t => !(f x :: visited.map f).contains t) = (x :: closureFrom _ _ (queue ++ next)).map f
    rw [hnext, erase_relabel hf, ← List.map_append, ← List.map_cons, ih, List.map_cons]

theorem reachable_relabel (adj : Adjacency α) (x : α) :
    reachable (relabel f adj) (f x) = (reachable adj x).map f := by
  have hstart := closureFrom_relabel hf adj [x] (targetsOf adj x)
  rwa [← targetsOf_relabel hf] at hstart

end

end Marginalia.Graph
