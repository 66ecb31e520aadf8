/-
  Marginalia/Proofs/Graph/Cycles.lean
  ===================================
  **What the reported cycles say about a graph.**

    * Every reported cycle is one, and no two have the same nodes
      (`cyclesOf_sound`).
    * Every closed walk runs along an edge whose ends lie on one reported cycle, so
      nothing is reported exactly if there is no closed walk (`cyclesOf_complete`).
      The reason is the order in which nodes are left: along an edge that is on no
      reported cycle it falls, and around a closed walk it cannot fall throughout.
    * Not every node of a closed walk lies on a reported cycle
      (`cycleThrough_misses_node`).  A node does exactly if an edge from the end of a
      first path leads back behind it (`cycleThrough_iff_onFirstCycle`).
-/
import Marginalia.Proofs.Graph.Search
import Marginalia.Query.Find

namespace Marginalia.Graph

variable {α : Type} [BEq α]

/-! ### Soundness -/

section

variable [LawfulBEq α]

theorem isCycle_of_mem_cyclesOf {adj : Adjacency α} {c : List α} (hc : c ∈ cyclesOf adj) :
    IsCycle adj c := by
  obtain ⟨done, s, h, hcycles, _⟩ := exists_searched adj
  obtain ⟨u, rest, t, hfirst, hadj, ht, rfl⟩ := h.origin c (hcycles ▸ hc)
  exact isCycle_cycleTo hfirst.turns.isChain hfirst.simple hadj ht

theorem apart_cyclesOf (adj : Adjacency α) : Apart (cyclesOf adj) := by
  obtain ⟨done, s, h, hcycles, _⟩ := exists_searched adj
  exact hcycles ▸ h.distinct

/-- Every reported cycle leaves its first node along edges, returns to it and meets no node twice
on the way; no two run through the same nodes. -/
theorem cyclesOf_sound (adj : Adjacency α) :
    (∀ c ∈ cyclesOf adj, 2 ≤ c.length ∧ c.head? = c.getLast? ∧ c.dropLast.Nodup ∧
      ∀ u v, [u, v] <:+: c → v ∈ targetsOf adj u) ∧
    (cyclesOf adj).Pairwise fun c d => ¬ ∀ x, x ∈ c ↔ x ∈ d := by
  refine ⟨?_, apart_cyclesOf adj⟩
  intro c hc
  have hcycle := isCycle_of_mem_cyclesOf hc
  exact ⟨hcycle.nontrivial, hcycle.closed, hcycle.distinct, fun _ _ hstep => hcycle.adjacent hstep⟩

/-- Two cycles that share an edge. -/
theorem cyclesOf_sound_shared_edge :
    cyclesOf [("a", ["b", "b"]), ("b", ["c", "a"]), ("c", ["a", "x"])]
        = [["a", "b", "c", "a"], ["a", "b", "a"]] ∧
      ∀ u v, [u, v] <:+: ["a", "b", "c", "a"] →
        v ∈ targetsOf [("a", ["b", "b"]), ("b", ["c", "a"]), ("c", ["a", "x"])] u := by
  have hcycles : cyclesOf [("a", ["b", "b"]), ("b", ["c", "a"]), ("c", ["a", "x"])]
      = [["a", "b", "c", "a"], ["a", "b", "a"]] := by decide +kernel
  have hmem : ["a", "b", "c", "a"] ∈
      cyclesOf [("a", ["b", "b"]), ("b", ["c", "a"]), ("c", ["a", "x"])] := by simp [hcycles]
  exact ⟨hcycles, ((cyclesOf_sound _).1 _ hmem).2.2.2⟩

/-! ### Completeness -/

/-- Both nodes lie on one of the cycles. -/
def Covered (cycles : List (List α)) (u v : α) : Prop := ∃ c ∈ cycles, u ∈ c ∧ v ∈ c

theorem Closes.covered {cycles : List (List α)} {u t : α} {rest : List α}
    (h : Closes cycles (u :: rest) t) : Covered cycles u t := by
  obtain ⟨c, hc, hnodes⟩ := h.2
  exact ⟨c, hc, (hnodes u).mpr (current_mem_cycleTo t u rest),
    (hnodes t).mpr (target_mem_cycleTo t _)⟩

/-- The nodes left before some point are closed under the edges that no cycle covers. -/
theorem Done.mem_of_adjacent {adj : Adjacency α} {cycles : List (List α)} {u v : α} :
    ∀ {done : List α}, Done adj cycles done → u ∈ done → Adjacent adj u v →
      ¬ Covered cycles u v → v ∈ done := by
  intro done
  induction done with
  | nil => intro _ hu; exact absurd hu List.not_mem_nil
  | cons x before ih =>
    rintro ⟨⟨rest, _, _, hsettled⟩, hbefore⟩ hu hadj hfree
    apply List.mem_cons_of_mem
    rcases List.mem_cons.mp hu with rfl | hu
    · exact (hsettled v hadj).resolve_right fun hcloses => hfree hcloses.covered
    · exact ih hbefore hu hadj hfree

/-- No closed walk among the nodes that were left uses only edges that no cycle covers. -/
theorem Done.no_free_walk {adj : Adjacency α} {cycles : List (List α)} {w : List α}
    (hlength : 2 ≤ w.length) (hclosed : w.head? = w.getLast?)
    (hfree : w.IsChain fun u v => Adjacent adj u v ∧ ¬ Covered cycles u v) :
    ∀ {done : List α}, Done adj cycles done → ¬ ∀ x ∈ w, x ∈ done := by
  obtain ⟨a, b, tail, rfl⟩ : ∃ a b tail, w = a :: b :: tail := by
    match w, hlength with
    | a :: b :: tail, _ => exact ⟨a, b, tail, rfl⟩
  intro done
  induction done with
  | nil => intro _ hall; exact absurd (hall a List.mem_cons_self) List.not_mem_nil
  | cons u before ih =>
    -- the second node was left before `u`, hence so were all that follow, the start among them
    intro hdone hall
    obtain ⟨hfirst, hrest⟩ := List.isChain_cons_cons.mp hfree
    have hb : b ∈ before := by
      obtain ⟨⟨rest, _, _, hsettled⟩, hbefore⟩ := hdone
      rcases List.mem_cons.mp (hall a List.mem_cons_self) with rfl | ha
      · exact (hsettled b hfirst.1).resolve_right fun hcloses => hfirst.2 hcloses.covered
      · exact hbefore.mem_of_adjacent ha hfirst.1 hfirst.2
    have htail : ∀ x ∈ b :: tail, x ∈ before := by
      intro x hx
      exact hrest.induction (· ∈ before) _
        (fun {_ _} hstep hmem => hdone.2.mem_of_adjacent hmem hstep.1 hstep.2) (fun _ => hb) x hx
    apply ih hdone.2
    intro x hx
    rcases List.mem_cons.mp hx with rfl | hx
    · apply htail
      rw [List.getLast?_cons_cons] at hclosed
      exact List.mem_of_getLast? hclosed.symm
    · exact htail x hx

/-- A closed walk runs along an edge whose ends lie on one reported cycle. -/
theorem exists_covered_step {adj : Adjacency α} {w : List α} (h : IsClosedWalk adj w) :
    ∃ u v, [u, v] <:+: w ∧ Covered (cyclesOf adj) u v := by
  by_contra hnone
  obtain ⟨done, s, hsearch, hcycles, hkeys⟩ := exists_searched adj
  have hfree : w.IsChain fun u v => Adjacent adj u v ∧ ¬ Covered s.cycles u v := by
    rw [List.isChain_iff_forall_rel_of_append_cons_cons]
    intro u v front back hsplit
    have hstep : [u, v] <:+: w := ⟨front, back, by simp [hsplit]⟩
    refine ⟨h.adjacent hstep, ?_⟩
    rw [hcycles]
    exact fun hcovered => hnone ⟨u, v, hstep, hcovered⟩
  apply hsearch.left.no_free_walk h.nontrivial h.closed hfree
  -- every node of the walk has a target, so it has an entry and was left
  intro x hx
  obtain ⟨y, hy⟩ := h.exists_adjacent hx
  exact hkeys x (mem_keys_of_adjacent hy)

theorem cyclesOf_eq_nil_iff {adj : Adjacency α} :
    cyclesOf adj = [] ↔ ∀ w, ¬ IsClosedWalk adj w := by
  constructor
  · intro hnil w hw
    obtain ⟨u, v, _, c, hc, _⟩ := exists_covered_step hw
    simp [hnil] at hc
  · intro hnone
    by_contra hne
    obtain ⟨c, hc⟩ := List.exists_mem_of_ne_nil _ hne
    exact hnone c (isCycle_of_mem_cyclesOf hc).toIsClosedWalk

/-- Every closed walk runs along an edge whose ends lie on one reported cycle, and nothing is
reported exactly if there is no closed walk. -/
theorem cyclesOf_complete (adj : Adjacency α) :
    (∀ w, IsClosedWalk adj w →
      ∃ u v, [u, v] <:+: w ∧ ∃ c ∈ cyclesOf adj, u ∈ c ∧ v ∈ c) ∧
    (cyclesOf adj = [] ↔ ∀ w, ¬ IsClosedWalk adj w) :=
  ⟨fun _ hw => exists_covered_step hw, cyclesOf_eq_nil_iff⟩

/-- Two cycles with a common edge, of which the search reports the first: the second one is found
by that edge. -/
theorem cyclesOf_complete_common_edge :
    IsClosedWalk [("a", ["b", "c"]), ("b", ["a"]), ("c", ["b"])] ["a", "c", "b", "a"] ∧
      ∃ u v, [u, v] <:+: ["a", "c", "b", "a"] ∧
        ∃ c ∈ cyclesOf [("a", ["b", "c"]), ("b", ["a"]), ("c", ["b"])], u ∈ c ∧ v ∈ c := by
  have hwalk : IsClosedWalk [("a", ["b", "c"]), ("b", ["a"]), ("c", ["b"])] ["a", "c", "b", "a"] :=
    ⟨by decide, by decide, by simp [Adjacent, targetsOf, Table.get?]⟩
  exact ⟨hwalk, (cyclesOf_complete _).1 _ hwalk⟩

/-! ### Cycles through a node -/

/-- An edge from the end of a first path leads back to the node or behind it. -/
def OnFirstCycle (adj : Adjacency α) (x : α) : Prop :=
  ∃ u rest front t back, IsFirstPath adj u rest ∧ u :: rest = front ++ t :: back ∧
    Adjacent adj u t ∧ x ∈ front ++ [t]

omit [LawfulBEq α] in
/-- The end of a first path is left. -/
theorem IsFirstPath.mem_done {adj : Adjacency α} {u : α} {rest done : List α} {s : Search α}
    (hfirst : IsFirstPath adj u rest) (h : Searching adj done s [])
    (hkeys : ∀ k ∈ Table.keys adj, k ∈ done) : u ∈ done := by
  obtain ⟨front, r, hsplit⟩ : ∃ front r, u :: rest = front ++ [r] :=
    ⟨_, _, (List.dropLast_concat_getLast (List.cons_ne_nil u rest)).symm⟩
  obtain ⟨earlier, later, hr, _⟩ := (hsplit ▸ hfirst.turns).of_append.1
  have hkey : r ∈ Table.keys adj := by
    rw [show Table.keys adj = earlier ++ r :: later from hr]
    simp
  exact h.mem_done_of_reaches ((h.entered_iff r).mpr (.inl (hkeys r hkey)))
    (hfirst.reaches hsplit)

/-- Where an edge from the end of a first path leads back to it, a cycle is reported. -/
theorem Done.closes {adj : Adjacency α} {cycles : List (List α)} {u t : α} {rest : List α}
    (hfirst : IsFirstPath adj u rest) (hadj : Adjacent adj u t) (ht : t ∈ u :: rest) :
    ∀ {done : List α}, Done adj cycles done → u ∈ done → Closes cycles (u :: rest) t := by
  intro done
  induction done with
  | nil => intro _ hu; exact absurd hu List.not_mem_nil
  | cons x before ih =>
    rintro ⟨⟨rest', hfirst', happart, hsettled⟩, hbefore⟩ hu
    by_cases hx : u ∈ before
    · exact ih hbefore hx
    · obtain rfl : u = x := (List.mem_cons.mp hu).resolve_right hx
      obtain rfl : rest' = rest := hfirst'.unique hfirst
      exact (hsettled t hadj).resolve_left (happart t ht)

theorem exists_mem_cyclesOf_iff {adj : Adjacency α} {x : α} :
    (∃ c ∈ cyclesOf adj, x ∈ c) ↔ OnFirstCycle adj x := by
  obtain ⟨done, s, h, hcycles, hkeys⟩ := exists_searched adj
  constructor
  · rintro ⟨c, hc, hx⟩
    obtain ⟨u, rest, t, hfirst, hadj, ht, rfl⟩ := h.origin c (hcycles ▸ hc)
    obtain ⟨front, back, hsplit, hfront⟩ := List.eq_append_cons_of_mem ht
    refine ⟨u, rest, front, t, back, hfirst, hsplit, hadj, ?_⟩
    rw [hsplit, cycleTo_append hfront] at hx
    simpa [or_comm] using hx
  · rintro ⟨u, rest, front, t, back, hfirst, hsplit, hadj, hx⟩
    have ht : t ∈ u :: rest := by simp [hsplit]
    have hfront : t ∉ front := by
      have hsimple := hfirst.simple
      rw [hsplit] at hsimple
      intro hmem
      exact (List.nodup_append.mp hsimple).2.2 t hmem t List.mem_cons_self rfl
    obtain ⟨_, c, hc, hnodes⟩ := h.left.closes hfirst hadj ht (hfirst.mem_done h hkeys)
    refine ⟨c, hcycles ▸ hc, (hnodes x).mpr ?_⟩
    rw [hsplit, cycleTo_append hfront]
    simpa [or_comm] using hx

theorem exists_cycleThrough_iff {adj : Adjacency α} {x : α} :
    (∃ c, cycleThrough adj x = some c) ↔ ∃ c ∈ cyclesOf adj, x ∈ c := by
  rw [← Option.isSome_iff_exists, cycleThrough, List.find?_isSome]
  simp

end

/-- A cycle given for a node is one through it, and for a node on no cycle none is given.  One is
given exactly for the nodes to which, or behind which, an edge from the end of a first path leads
back.  The answer for a database is that for its runtime dependencies. -/
theorem cycleThrough_iff_onFirstCycle (adj : Adjacency String) (x : String) :
    (∀ c, cycleThrough adj x = some c → IsCycle adj c ∧ x ∈ c) ∧
    ((∀ c, IsCycle adj c → x ∉ c) → cycleThrough adj x = none) ∧
    ((∃ c, cycleThrough adj x = some c) ↔ OnFirstCycle adj x) ∧
    ∀ (κ : Type) (db : Database String κ),
      db.runtimeCycleThrough x = cycleThrough (db.graph.adjacency [.runtime]) x := by
  have hsome : ∀ c, cycleThrough adj x = some c → IsCycle adj c ∧ x ∈ c := by
    intro c hc
    rw [cycleThrough] at hc
    exact ⟨isCycle_of_mem_cyclesOf (List.mem_of_find?_eq_some hc), by
      simpa using List.find?_some hc⟩
  refine ⟨hsome, ?_, exists_cycleThrough_iff.trans exists_mem_cyclesOf_iff, ?_⟩
  · intro hnone
    by_contra hne
    obtain ⟨c, hc⟩ := Option.ne_none_iff_exists'.mp hne
    exact hnone c (hsome c hc).1 (hsome c hc).2
  · intro κ db
    rw [Database.runtimeCycleThrough, Database.runtimeTargets_string]

/-- From the end of the path from `a` over `b` to `c` an edge leads back to `b`; the leaf `x` is on
no cycle. -/
theorem cycleThrough_iff_onFirstCycle_chord :
    cycleThrough [("a", ["b"]), ("b", ["c", "a"]), ("c", ["b", "x"])] "c" = some ["b", "c", "b"] ∧
      IsCycle [("a", ["b"]), ("b", ["c", "a"]), ("c", ["b", "x"])] ["b", "c", "b"] ∧
      OnFirstCycle [("a", ["b"]), ("b", ["c", "a"]), ("c", ["b", "x"])] "c" ∧
      cycleThrough [("a", ["b"]), ("b", ["c", "a"]), ("c", ["b", "x"])] "x" = none := by
  have hgiven : cycleThrough [("a", ["b"]), ("b", ["c", "a"]), ("c", ["b", "x"])] "c"
      = some ["b", "c", "b"] := by decide +kernel
  obtain ⟨hcycle, _, honFirst, _⟩ :=
    cycleThrough_iff_onFirstCycle [("a", ["b"]), ("b", ["c", "a"]), ("c", ["b", "x"])] "c"
  refine ⟨hgiven, (hcycle _ hgiven).1, honFirst.mp ⟨_, hgiven⟩, ?_⟩
  apply (cycleThrough_iff_onFirstCycle _ _).2.1
  intro c hc hx
  obtain ⟨y, hy⟩ := hc.exists_adjacent hx
  simp [Adjacent, targetsOf, Table.get?] at hy

/-- The third node lies on a cycle through the two others, but both are entered before it, so no
cycle through it is reported. -/
theorem cycleThrough_misses_node :
    IsCycle [("a", ["b", "c"]), ("b", ["a"]), ("c", ["b"])] ["c", "b", "a", "c"] ∧
      cycleThrough [("a", ["b", "c"]), ("b", ["a"]), ("c", ["b"])] "c" = none := by
  refine ⟨⟨⟨by decide, by decide, ?_⟩, by decide⟩, by decide +kernel⟩
  simp [Adjacent, targetsOf, Table.get?]

end Marginalia.Graph
