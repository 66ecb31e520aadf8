/-
  Marginalia/Proofs/Graph/Walk.lean
  =================================
  **Walks and cycles.**  What a graph is for statements about searches: a node is
  adjacent to its targets, a closed walk follows targets back to its start, and a
  cycle is a closed walk that meets no node twice on the way.  The cycle that the
  search reports when it meets a node of its path again is one: `isCycle_cycleTo`.
  Reporting keeps one cycle for each set of nodes.
-/
import Marginalia.Graph.DepthFirst
import Marginalia.Proofs.Table
import Mathlib.Data.List.Chain
import Mathlib.Data.List.Nodup

namespace Marginalia.Graph

variable {α : Type} [BEq α]

/-! ### Walks -/

/-- The second node is a target of the first. -/
def Adjacent (adj : Adjacency α) (u v : α) : Prop := v ∈ targetsOf adj u

/-- A walk along at least one edge that returns to its start; the start is listed at both ends. -/
structure IsClosedWalk (adj : Adjacency α) (w : List α) : Prop where
  nontrivial : 2 ≤ w.length
  closed : w.head? = w.getLast?
  steps : w.IsChain (Adjacent adj)

/-- A closed walk that meets no node twice before it is back at its start. -/
structure IsCycle (adj : Adjacency α) (c : List α) : Prop extends IsClosedWalk adj c where
  distinct : c.dropLast.Nodup

theorem IsClosedWalk.adjacent {adj : Adjacency α} {w : List α} (h : IsClosedWalk adj w) {u v : α}
    (hstep : [u, v] <:+: w) : Adjacent adj u v := by
  obtain ⟨front, back, hsplit⟩ := hstep
  have hw : w = front ++ u :: v :: back := by simp [← hsplit]
  exact List.isChain_iff_forall_rel_of_append_cons_cons.mp h.steps hw

theorem IsClosedWalk.mono {adj adj' : Adjacency α} {w : List α} (h : IsClosedWalk adj w)
    (hadj : ∀ u v, Adjacent adj u v → Adjacent adj' u v) : IsClosedWalk adj' w :=
  ⟨h.nontrivial, h.closed, h.steps.imp hadj⟩

/-- Every node of a closed walk has a target. -/
theorem IsClosedWalk.exists_adjacent {adj : Adjacency α} {w : List α} (h : IsClosedWalk adj w)
    {x : α} (hx : x ∈ w) : ∃ y, Adjacent adj x y := by
  obtain ⟨front, back, hsplit⟩ := List.append_of_mem hx
  cases back with
  | cons y back => exact ⟨y, h.adjacent ⟨front, back, by simp [hsplit]⟩⟩
  | nil =>
    -- the last node is also the first
    have hfirst : w.head? = some x := by rw [h.closed, hsplit]; simp
    match w, h.nontrivial, hfirst with
    | a :: b :: tail, _, hfirst =>
      obtain rfl : a = x := by simpa using hfirst
      exact ⟨b, h.adjacent ⟨[], tail, rfl⟩⟩

/-- There is a walk from `x` to the node that meets none of the nodes to avoid, at its ends
neither. -/
inductive ReachesAvoiding (adj : Adjacency α) (avoid : List α) (x : α) : α → Prop
  | start : x ∉ avoid → ReachesAvoiding adj avoid x x
  | step {y z : α} : ReachesAvoiding adj avoid x y → Adjacent adj y z → z ∉ avoid →
      ReachesAvoiding adj avoid x z

theorem ReachesAvoiding.source_not_mem {adj : Adjacency α} {avoid : List α} {x y : α}
    (h : ReachesAvoiding adj avoid x y) : x ∉ avoid := by
  induction h with
  | start hx => exact hx
  | step _ _ _ ih => exact ih

/-- A walk does not leave a set of nodes whose targets are in the set or to be avoided. -/
theorem ReachesAvoiding.mem_of_closed {adj : Adjacency α} {avoid nodes : List α} {x y : α}
    (closed : ∀ u ∈ nodes, ∀ v, Adjacent adj u v → v ∈ nodes ∨ v ∈ avoid)
    (h : ReachesAvoiding adj avoid x y) (hx : x ∈ nodes) : y ∈ nodes := by
  induction h with
  | start _ => exact hx
  | step _ hadj hz ih => exact (closed _ ih _ hadj).resolve_right hz

/-- Going back along a path from its current node to a node of it, outside of what lies behind. -/
theorem reachesAvoiding_of_chain {adj : Adjacency α} {avoid : List α} {w : α} :
    ∀ {front : List α} {g : α}, (g :: front).IsChain (fun v u => Adjacent adj u v) →
      (g :: front).getLast? = some w → (∀ x ∈ g :: front, x ∉ avoid) →
      ReachesAvoiding adj avoid w g := by
  intro front
  induction front with
  | nil =>
    intro g _ hlast havoid
    have hg : g = w := by simpa using hlast
    subst hg
    exact .start (havoid g (by simp))
  | cons y front ih =>
    intro g hchain hlast havoid
    obtain ⟨hadj, hrest⟩ := List.isChain_cons_cons.mp hchain
    have hy : ReachesAvoiding adj avoid w y := by
      apply ih hrest
      · rwa [List.getLast?_cons_cons] at hlast
      · intro x hx
        exact havoid x (List.mem_cons_of_mem _ hx)
    exact .step hy hadj (havoid g (by simp))

variable [LawfulBEq α]

/-- A node with targets has an entry. -/
theorem mem_keys_of_adjacent {adj : Adjacency α} {u v : α} (h : Adjacent adj u v) :
    u ∈ Table.keys adj := by
  by_contra hu
  rw [Adjacent, targetsOf, Table.get?_eq_none_iff.mpr hu] at h
  simp at h

/-- Taking out the entry of a node leaves the targets of the others. -/
theorem targetsOf_erase_other {x y : α} (h : y ≠ x) (adj : Adjacency α) :
    targetsOf (Table.erase x adj) y = targetsOf adj y := by
  rw [targetsOf, targetsOf, Table.get?_erase_other h]

/-! ### The cycle that closes at a node of the path -/

theorem cycleTo_append {t : α} {front : List α} (h : t ∉ front) (back : List α) :
    cycleTo t (front ++ t :: back) = t :: front.reverse ++ [t] := by
  have htake : (front ++ t :: back).takeWhile (· != t) = front := by
    rw [List.takeWhile_append_of_pos]
    · simp
    · intro x hx
      have hne : x ≠ t := by rintro rfl; exact h hx
      simpa using hne
  rw [cycleTo, htake]

omit [LawfulBEq α] in
theorem target_mem_cycleTo (t : α) (path : List α) : t ∈ cycleTo t path := by
  simp [cycleTo]

theorem current_mem_cycleTo (t u : α) (rest : List α) : u ∈ cycleTo t (u :: rest) := by
  by_cases h : u = t
  · simp [cycleTo, h]
  · simp [cycleTo, h]

/-- A target of the current node that lies on the path closes a cycle. -/
theorem isCycle_cycleTo {adj : Adjacency α} {u t : α} {rest : List α}
    (hchain : (u :: rest).IsChain (fun v u => Adjacent adj u v)) (hnodup : (u :: rest).Nodup)
    (hadj : Adjacent adj u t) (ht : t ∈ u :: rest) : IsCycle adj (cycleTo t (u :: rest)) := by
  obtain ⟨front, back, hsplit, hfront⟩ := List.eq_append_cons_of_mem ht
  have hcycle : cycleTo t (u :: rest) = t :: front.reverse ++ [t] := by
    rw [hsplit, cycleTo_append hfront]
  -- read forwards, the part of the path from `t` on is a walk that ends at `u`
  have hwalk : (t :: front.reverse).IsChain (Adjacent adj) := by
    rw [hsplit, List.append_cons] at hchain
    have hrev := List.isChain_reverse.mpr hchain.left_of_append
    simpa using hrev
  have hlast : (t :: front.reverse).getLast? = some u := by
    have hhead : (front ++ t :: back).head? = some u := by rw [← hsplit]; rfl
    cases front with
    | nil => simpa using hhead
    | cons x front => simpa [List.getLast?_cons] using hhead
  rw [hcycle]
  refine ⟨⟨by simp, by simp [List.getLast?_cons], ?_⟩, ?_⟩
  · refine List.isChain_append.mpr ⟨hwalk, .singleton t, ?_⟩
    intro x hx y hy
    have hxu : x = u := by simpa [hlast] using hx.symm
    have hyt : y = t := by simpa using hy.symm
    rw [hxu, hyt]
    exact hadj
  · have hinfix : (front ++ [t]).Nodup := by
      rw [hsplit, List.append_cons] at hnodup
      exact (List.nodup_append.mp hnodup).1
    rw [List.dropLast_concat]
    simpa using List.nodup_reverse.mpr hinfix

/-! ### Reporting -/

theorem sameNodes_iff {c d : List α} : sameNodes c d = true ↔ ∀ x, x ∈ c ↔ x ∈ d := by
  simp only [sameNodes, Bool.and_eq_true, List.all_eq_true, List.contains_iff_mem]
  constructor
  · rintro ⟨hcd, hdc⟩ x
    exact ⟨hcd x, hdc x⟩
  · intro h
    exact ⟨fun x hx => (h x).mp hx, fun x hx => (h x).mpr hx⟩

/-- A cycle over the nodes of `c` is among the cycles. -/
def Reported (cycles : List (List α)) (c : List α) : Prop := ∃ d ∈ cycles, ∀ x, x ∈ d ↔ x ∈ c

omit [LawfulBEq α] in
theorem mem_report_of_mem {c d : List α} {cycles : List (List α)} (h : d ∈ cycles) :
    d ∈ report c cycles := by
  unfold report
  split
  · exact h
  · exact List.mem_append_left _ h

omit [LawfulBEq α] in
theorem mem_report {c d : List α} {cycles : List (List α)} (h : d ∈ report c cycles) :
    d ∈ cycles ∨ d = c := by
  unfold report at h
  split at h
  · exact Or.inl h
  · simpa using h

omit [LawfulBEq α] in
theorem Reported.report {c d : List α} {cycles : List (List α)} (h : Reported cycles d) :
    Reported (report c cycles) d := by
  obtain ⟨e, he, hnodes⟩ := h
  exact ⟨e, mem_report_of_mem he, hnodes⟩

/-- After reporting, a cycle over the same nodes is there. -/
theorem reported_report (c : List α) (cycles : List (List α)) : Reported (report c cycles) c := by
  unfold Graph.report
  split
  · rename_i hany
    obtain ⟨d, hd, hsame⟩ := List.any_eq_true.mp hany
    exact ⟨d, hd, fun x => (sameNodes_iff.mp hsame x).symm⟩
  · exact ⟨c, by simp, fun _ => Iff.rfl⟩

/-- No two cycles run through the same nodes. -/
def Apart (cycles : List (List α)) : Prop := cycles.Pairwise fun c d => ¬ ∀ x, x ∈ c ↔ x ∈ d

theorem Apart.report {cycles : List (List α)} (h : Apart cycles) (c : List α) :
    Apart (report c cycles) := by
  unfold Graph.report
  split
  · exact h
  · rename_i hany
    refine List.pairwise_append.mpr ⟨h, List.pairwise_singleton _ _, ?_⟩
    intro d hd e he hsame
    obtain rfl : e = c := by simpa using he
    exact hany (List.any_eq_true.mpr ⟨d, hd, sameNodes_iff.mpr fun x => (hsame x).symm⟩)

end Marginalia.Graph
