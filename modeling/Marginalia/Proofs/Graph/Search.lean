/-
  Marginalia/Proofs/Graph/Search.lean
  ===================================
  **The run of the depth-first search.**  What one move of the search can do is
  said once (`Move`), and whatever every move keeps holds at the end
  (`follow_preserves`).  The invariant `Searching` ties the frames, the nodes
  entered and the cycles to the graph.  Its ghost is the list of the nodes that
  the search has left, the last one first: every target of such a node was left
  before it or lies on the path by which the search had come, and then the cycle
  that closes there is reported.
-/
import Marginalia.Proofs.Graph.FirstPath

namespace Marginalia.Graph

variable {α : Type} [BEq α]

/-! ### Moves -/

/-- The nodes of the frames, from the current node back to the start. -/
def pathOf (frames : List (α × List α)) : List α := frames.map Prod.fst

/-- What the search can do next. -/
inductive Move : Search α → List (α × List α) → Search α → List (α × List α) → Prop
  /-- All targets of the current node are followed. -/
  | leave {s : Search α} {n : α} {rest : List (α × List α)} : Move s ((n, []) :: rest) s rest
  /-- The next target lies on the path. -/
  | close {s : Search α} {n t : α} {ts : List α} {rest : List (α × List α)}
      (onPath : t ∈ n :: pathOf rest) :
      Move s ((n, t :: ts) :: rest)
        { s with cycles := report (cycleTo t (n :: pathOf rest)) s.cycles } ((n, ts) :: rest)
  /-- The next target was entered and left before. -/
  | skip {s : Search α} {n t : α} {ts : List α} {rest : List (α × List α)}
      (offPath : t ∉ n :: pathOf rest) (entered : t ∈ s.entered) :
      Move s ((n, t :: ts) :: rest) s ((n, ts) :: rest)
  /-- The next target is new. -/
  | enter {s : Search α} {n t : α} {ts : List α} {rest : List (α × List α)}
      (offPath : t ∉ n :: pathOf rest) (new : t ∉ s.entered) :
      Move s ((n, t :: ts) :: rest) (s.enter t)
        ((t, targetsOf s.unentered t) :: (n, ts) :: rest)

section

variable [LawfulBEq α]

/-- The search goes on from where a move has taken it. -/
theorem Move.follow_eq {s s' : Search α} {frames frames' : List (α × List α)}
    (h : Move s frames s' frames') : s.follow frames = s'.follow frames' := by
  cases h with
  | leave => rw [Search.follow]
  | @close n t ts rest onPath =>
    have hpath : (n :: rest.map Prod.fst).contains t = true := List.contains_iff_mem.mpr onPath
    rw [Search.follow]
    exact if_pos hpath
  | @skip n t ts rest offPath entered =>
    have hpath : ¬ (n :: rest.map Prod.fst).contains t = true :=
      fun h => offPath (List.contains_iff_mem.mp h)
    rw [Search.follow]
    exact (if_neg hpath).trans (if_pos (List.contains_iff_mem.mpr entered))
  | @enter n t ts rest offPath new =>
    have hpath : ¬ (n :: rest.map Prod.fst).contains t = true :=
      fun h => offPath (List.contains_iff_mem.mp h)
    have hentered : ¬ s.entered.contains t = true := fun h => new (List.contains_iff_mem.mp h)
    rw [Search.follow]
    exact (if_neg hpath).trans (if_neg hentered)

omit [LawfulBEq α] in
/-- A move leaves less to do. -/
theorem Move.load_lt {s s' : Search α} {frames frames' : List (α × List α)}
    (h : Move s frames s' frames') :
    load s'.unentered + load frames' < load s.unentered + load frames := by
  cases h with
  | leave => simp
  | close _ => simp
  | skip _ _ => simp
  | @enter n t ts rest _ _ =>
    have := load_erase_add_targets_le s.unentered t
    simp only [Search.enter, load_cons, List.length_cons]
    omega

omit [LawfulBEq α] in
/-- As long as there is a frame the search can move. -/
theorem exists_move (s : Search α) (frame : α × List α) (rest : List (α × List α)) :
    ∃ s' frames', Move s (frame :: rest) s' frames' := by
  obtain ⟨n, ts⟩ := frame
  cases ts with
  | nil => exact ⟨_, _, .leave⟩
  | cons t ts =>
    by_cases onPath : t ∈ n :: pathOf rest
    · exact ⟨_, _, .close onPath⟩
    · by_cases entered : t ∈ s.entered
      · exact ⟨_, _, .skip onPath entered⟩
      · exact ⟨_, _, .enter onPath entered⟩

omit [LawfulBEq α] in
theorem Move.entered_mono {s s' : Search α} {frames frames' : List (α × List α)} {x : α}
    (h : Move s frames s' frames') (hx : x ∈ s.entered) : x ∈ s'.entered := by
  cases h with
  | leave => exact hx
  | close _ => exact hx
  | skip _ _ => exact hx
  | enter _ _ => exact List.mem_cons_of_mem _ hx

/-- What every move keeps holds when no frame is left. -/
theorem follow_preserves {P : Search α → List (α × List α) → Prop}
    (keep : ∀ {s s' frames frames'}, Move s frames s' frames' → P s frames → P s' frames')
    {s : Search α} {frames : List (α × List α)} (h : P s frames) : P (s.follow frames) [] := by
  induction hload : load s.unentered + load frames using Nat.strongRecOn generalizing s frames with
  | _ n ih =>
    cases frames with
    | nil => rwa [Search.follow]
    | cons frame rest =>
      obtain ⟨s', frames', hmove⟩ := exists_move s frame rest
      rw [hmove.follow_eq]
      exact ih _ (hload ▸ hmove.load_lt) (keep hmove h) rfl

end

/-! ### What is settled -/

/-- The node lies on the path, and the cycle that closes there is reported. -/
def Closes (cycles : List (List α)) (path : List α) (t : α) : Prop :=
  t ∈ path ∧ Reported cycles (cycleTo t path)

/-- Of every frame the targets that were followed are settled: each was left before the node of
the frame will be, or it closes a cycle.  The nodes of the frames in front, nearer to the current
node, are left before. -/
def Pending (adj : Adjacency α) (cycles : List (List α)) : List α → List (α × List α) → Prop
  | _, [] => True
  | before, (n, ts) :: rest =>
    (∃ us, targetsOf adj n = us ++ ts ∧
      ∀ t ∈ us, t ∈ before ∨ Closes cycles (n :: pathOf rest) t) ∧
    Pending adj cycles (n :: before) rest

/-- The nodes that were left, the last one first: the search had come to each by its first path,
no node of which was left then, and all targets of the node were settled. -/
def Done (adj : Adjacency α) (cycles : List (List α)) : List α → Prop
  | [] => True
  | u :: before =>
    (∃ rest, IsFirstPath adj u rest ∧ (∀ x ∈ u :: rest, x ∉ before) ∧
      ∀ t ∈ targetsOf adj u, t ∈ before ∨ Closes cycles (u :: rest) t) ∧
    Done adj cycles before

theorem Closes.report {cycles : List (List α)} {path c : List α} {t : α}
    (h : Closes cycles path t) : Closes (report c cycles) path t := ⟨h.1, h.2.report⟩

theorem Pending.mono {adj : Adjacency α} {cycles : List (List α)} {frames : List (α × List α)} :
    ∀ {before before' : List α}, (∀ x ∈ before, x ∈ before') →
      Pending adj cycles before frames → Pending adj cycles before' frames := by
  induction frames with
  | nil => intro _ _ _ _; trivial
  | cons frame rest ih =>
    obtain ⟨n, ts⟩ := frame
    rintro before before' hsub ⟨⟨us, hsplit, hus⟩, hrest⟩
    refine ⟨⟨us, hsplit, ?_⟩, ih ?_ hrest⟩
    · intro t ht
      exact (hus t ht).imp_left (hsub t)
    · intro x hx
      rcases List.mem_cons.mp hx with rfl | hx
      · exact List.mem_cons_self
      · exact List.mem_cons_of_mem _ (hsub x hx)

theorem Pending.report {adj : Adjacency α} {cycles : List (List α)} {c : List α}
    {frames : List (α × List α)} :
    ∀ {before : List α}, Pending adj cycles before frames →
      Pending adj (report c cycles) before frames := by
  induction frames with
  | nil => intro _ _; trivial
  | cons frame rest ih =>
    obtain ⟨n, ts⟩ := frame
    rintro before ⟨⟨us, hsplit, hus⟩, hrest⟩
    exact ⟨⟨us, hsplit, fun t ht => (hus t ht).imp_right Closes.report⟩, ih hrest⟩

theorem Done.report {adj : Adjacency α} {cycles : List (List α)} {c : List α} :
    ∀ {done : List α}, Done adj cycles done → Done adj (report c cycles) done := by
  intro done
  induction done with
  | nil => intro _; trivial
  | cons u before ih =>
    rintro ⟨⟨rest, hfirst, hbefore, hsettled⟩, hrest⟩
    exact ⟨⟨rest, hfirst, hbefore, fun t ht => (hsettled t ht).imp_right Closes.report⟩, ih hrest⟩

/-- A target that is settled has been followed. -/
theorem Pending.followed {adj : Adjacency α} {cycles : List (List α)} {before ts : List α}
    {n t : α} {rest : List (α × List α)}
    (h : Pending adj cycles before ((n, t :: ts) :: rest))
    (ht : t ∈ before ∨ Closes cycles (n :: pathOf rest) t) :
    Pending adj cycles before ((n, ts) :: rest) := by
  obtain ⟨⟨us, hsplit, hus⟩, hrest⟩ := h
  refine ⟨⟨us ++ [t], by simp [hsplit], ?_⟩, hrest⟩
  intro x hx
  rcases List.mem_append.mp hx with hx | hx
  · exact hus x hx
  · obtain rfl : x = t := by simpa using hx
    exact ht

/-! ### The invariant -/

/-- What holds throughout a search of `adj` that has left the nodes `done`. -/
structure Searching (adj : Adjacency α) (done : List α) (s : Search α)
    (frames : List (α × List α)) : Prop where
  fresh : ∀ x, x ∉ s.entered → targetsOf s.unentered x = targetsOf adj x
  entered_iff : ∀ x, x ∈ s.entered ↔ x ∈ done ∨ x ∈ pathOf frames
  simple : (pathOf frames).Nodup
  apart : ∀ x ∈ pathOf frames, x ∉ done
  turns : ∀ goal, goal ∉ done → Turns adj goal (pathOf frames)
  pending : Pending adj s.cycles done frames
  left : Done adj s.cycles done
  closed : ∀ u ∈ done, ∀ v, Adjacent adj u v → v ∈ s.entered
  origin : ∀ c ∈ s.cycles, ∃ u rest t,
    IsFirstPath adj u rest ∧ Adjacent adj u t ∧ t ∈ u :: rest ∧ c = cycleTo t (u :: rest)
  distinct : Apart s.cycles

namespace Searching

variable {adj : Adjacency α} {done : List α} {s : Search α}

theorem start (adj : Adjacency α) : Searching adj [] ⟨adj, [], []⟩ [] where
  fresh _ _ := rfl
  entered_iff := by simp [pathOf]
  simple := List.nodup_nil
  apart := by simp [pathOf]
  turns _ _ := trivial
  pending := trivial
  left := trivial
  closed := by simp
  origin := by simp
  distinct := List.Pairwise.nil

/-- The path to the current node is its first path. -/
theorem isFirstPath {n : α} {ts : List α} {rest : List (α × List α)}
    (h : Searching adj done s ((n, ts) :: rest)) : IsFirstPath adj n (pathOf rest) :=
  ⟨h.simple, h.turns n (h.apart n List.mem_cons_self)⟩

/-- What can be reached outside of the path from a node that was entered has been left. -/
theorem mem_done_of_reaches {frames : List (α × List α)} (h : Searching adj done s frames)
    {t y : α} (ht : t ∈ s.entered) (hreach : ReachesAvoiding adj (pathOf frames) t y) :
    y ∈ done := by
  have hdone : t ∈ done := ((h.entered_iff t).mp ht).resolve_right hreach.source_not_mem
  apply hreach.mem_of_closed _ hdone
  intro u hu v hv
  exact (h.entered_iff v).mp (h.closed u hu v hv)

/-! Moves -/

theorem leave {n : α} {rest : List (α × List α)} (h : Searching adj done s ((n, []) :: rest)) :
    Searching adj (n :: done) s rest := by
  obtain ⟨⟨us, hsplit, hus⟩, hrest⟩ := h.pending
  have hsettled : ∀ t ∈ targetsOf adj n, t ∈ done ∨ Closes s.cycles (n :: pathOf rest) t := by
    rwa [hsplit, List.append_nil]
  have hsimple := List.nodup_cons.mp h.simple
  refine ⟨h.fresh, ?_, hsimple.2, ?_, ?_, hrest, ?_, ?_, h.origin, h.distinct⟩
  · intro x
    rw [h.entered_iff x]
    simp only [pathOf, List.map_cons, List.mem_cons]
    tauto
  · intro x hx hdone
    rcases List.mem_cons.mp hdone with rfl | hdone
    · exact hsimple.1 hx
    · exact h.apart x (List.mem_cons_of_mem _ hx) hdone
  · intro goal hgoal
    exact (h.turns goal fun hdone => hgoal (List.mem_cons_of_mem _ hdone)).2
  · exact ⟨⟨pathOf rest, h.isFirstPath, h.apart, hsettled⟩, h.left⟩
  · intro u hu v hv
    rcases List.mem_cons.mp hu with rfl | hu
    · rw [h.entered_iff v]
      exact (hsettled v hv).imp_right And.left
    · exact h.closed u hu v hv

theorem close {n t : α} {ts : List α} {rest : List (α × List α)}
    (h : Searching adj done s ((n, t :: ts) :: rest)) (onPath : t ∈ n :: pathOf rest)
    [LawfulBEq α] :
    Searching adj done { s with cycles := report (cycleTo t (n :: pathOf rest)) s.cycles }
      ((n, ts) :: rest) := by
  have hcloses : Closes (report (cycleTo t (n :: pathOf rest)) s.cycles) (n :: pathOf rest) t :=
    ⟨onPath, reported_report _ _⟩
  have hadj : Adjacent adj n t := by
    obtain ⟨⟨us, hsplit, _⟩, _⟩ := h.pending
    rw [Adjacent, hsplit]
    simp
  refine ⟨h.fresh, h.entered_iff, h.simple, h.apart, h.turns,
    h.pending.report.followed (.inr hcloses), h.left.report, h.closed, ?_, h.distinct.report _⟩
  intro c hc
  rcases mem_report hc with hc | rfl
  · exact h.origin c hc
  · exact ⟨n, pathOf rest, t, h.isFirstPath, hadj, onPath, rfl⟩

theorem skip {n t : α} {ts : List α} {rest : List (α × List α)}
    (h : Searching adj done s ((n, t :: ts) :: rest)) (offPath : t ∉ n :: pathOf rest)
    (entered : t ∈ s.entered) : Searching adj done s ((n, ts) :: rest) := by
  have hdone : t ∈ done := ((h.entered_iff t).mp entered).resolve_right offPath
  exact ⟨h.fresh, h.entered_iff, h.simple, h.apart, h.turns, h.pending.followed (.inl hdone),
    h.left, h.closed, h.origin, h.distinct⟩

/-- Entering a node, below the current one or as a start. -/
theorem enter [LawfulBEq α] {x : α} {frames frames' : List (α × List α)}
    (h : Searching adj done s frames) (new : x ∉ s.entered) (hpath : pathOf frames' = pathOf frames)
    (hturn : ∀ goal, goal ∉ done → LeadsFirst adj goal (pathOf frames) x)
    (hpending : Pending adj s.cycles (x :: done) frames') :
    Searching adj done (s.enter x) ((x, targetsOf s.unentered x) :: frames') := by
  have hcons : pathOf ((x, targetsOf s.unentered x) :: frames') = x :: pathOf frames :=
    congrArg (x :: ·) hpath
  have hdone : x ∉ done := fun hx => new ((h.entered_iff x).mpr (.inl hx))
  have hoff : x ∉ pathOf frames := fun hx => new ((h.entered_iff x).mpr (.inr hx))
  refine ⟨?_, ?_, ?_, ?_, ?_, ⟨⟨[], by simp [h.fresh x new], by simp⟩, hpending⟩, h.left, ?_,
    h.origin, h.distinct⟩
  · intro y hy
    have hne : y ≠ x := by rintro rfl; exact hy List.mem_cons_self
    have hold : y ∉ s.entered := fun hmem => hy (List.mem_cons_of_mem _ hmem)
    exact (targetsOf_erase_other hne s.unentered).trans (h.fresh y hold)
  · intro y
    rw [hcons]
    simp only [Search.enter, List.mem_cons, h.entered_iff y]
    tauto
  · rw [hcons]
    exact List.nodup_cons.mpr ⟨hoff, h.simple⟩
  · rw [hcons]
    intro y hy
    rcases List.mem_cons.mp hy with rfl | hy
    · exact hdone
    · exact h.apart y hy
  · rw [hcons]
    intro goal hgoal
    exact ⟨hturn goal hgoal, h.turns goal hgoal⟩
  · intro u hu v hv
    exact List.mem_cons_of_mem _ (h.closed u hu v hv)

/-- Every move keeps the invariant. -/
theorem move [LawfulBEq α] {s' : Search α} {frames frames' : List (α × List α)}
    (hmove : Move s frames s' frames') (h : Searching adj done s frames) :
    ∃ done', Searching adj done' s' frames' := by
  cases hmove with
  | leave => exact ⟨_, h.leave⟩
  | close onPath => exact ⟨done, h.close onPath⟩
  | skip offPath entered => exact ⟨done, h.skip offPath entered⟩
  | @enter n t ts rest offPath new =>
    refine ⟨done, h.enter new rfl ?_ ?_⟩
    · intro goal hgoal
      obtain ⟨⟨us, hsplit, hus⟩, _⟩ := h.pending
      refine ⟨us, ts, hsplit, ?_⟩
      intro x hx hreach
      have hentered : x ∈ s.entered := (h.entered_iff x).mpr ((hus x hx).imp_right And.left)
      exact hgoal (h.mem_done_of_reaches hentered hreach)
    · apply (h.pending.mono _).followed (.inl List.mem_cons_self)
      intro x hx
      exact List.mem_cons_of_mem _ hx

/-- Visiting the next key keeps the invariant, and no key is forgotten. -/
theorem visit [LawfulBEq α] {earlier later : List α} {x : α} (h : Searching adj done s [])
    (hkeys : Table.keys adj = earlier ++ x :: later) (hearlier : ∀ k ∈ earlier, k ∈ s.entered) :
    (∃ done', Searching adj done' (s.visit x) []) ∧
      ∀ k ∈ earlier ++ [x], k ∈ (s.visit x).entered := by
  unfold Search.visit
  split
  · rename_i hx
    refine ⟨⟨done, h⟩, ?_⟩
    intro k hk
    rcases List.mem_append.mp hk with hk | hk
    · exact hearlier k hk
    · obtain rfl : k = x := by simpa using hk
      exact List.contains_iff_mem.mp hx
  · rename_i hx
    have new : x ∉ s.entered := fun hmem => hx (List.contains_iff_mem.mpr hmem)
    -- the keys before this one have been entered, and with them all that they lead to
    have hturn : ∀ goal, goal ∉ done → LeadsFirst adj goal (pathOf []) x := by
      intro goal hgoal
      refine ⟨earlier, later, hkeys, ?_⟩
      intro k hk hreach
      exact hgoal (h.mem_done_of_reaches (hearlier k hk) hreach)
    have hentered : ∀ k ∈ earlier ++ [x], k ∈ (s.enter x).entered := by
      intro k hk
      rcases List.mem_append.mp hk with hk | hk
      · exact List.mem_cons_of_mem _ (hearlier k hk)
      · obtain rfl : k = x := by simpa using hk
        exact List.mem_cons_self
    refine follow_preserves (P := fun s frames => (∃ done', Searching adj done' s frames) ∧
      ∀ k ∈ earlier ++ [x], k ∈ s.entered) ?_ ⟨⟨done, h.enter new rfl hturn trivial⟩, hentered⟩
    rintro s s' frames frames' hmove ⟨⟨done, h⟩, hkept⟩
    exact ⟨h.move hmove, fun k hk => hmove.entered_mono (hkept k hk)⟩

/-- Visiting the keys that are left keeps the invariant, and in the end every key is entered. -/
theorem foldl_visit [LawfulBEq α] {later : List α} :
    ∀ {earlier done : List α} {s : Search α}, Searching adj done s [] →
      Table.keys adj = earlier ++ later → (∀ k ∈ earlier, k ∈ s.entered) →
      (∃ done', Searching adj done' (later.foldl Search.visit s) []) ∧
        ∀ k ∈ Table.keys adj, k ∈ (later.foldl Search.visit s).entered := by
  induction later with
  | nil =>
    intro earlier done s h hkeys hearlier
    refine ⟨⟨done, h⟩, ?_⟩
    rwa [hkeys, List.append_nil]
  | cons x later ih =>
    intro earlier done s h hkeys hearlier
    obtain ⟨⟨done', h'⟩, hentered⟩ := h.visit hkeys hearlier
    exact ih h' (by simp [hkeys]) hentered

end Searching

/-- The state in which a search of a graph ends: it has left every key, and it reports the cycles
of the graph. -/
theorem exists_searched [LawfulBEq α] (adj : Adjacency α) :
    ∃ done s, Searching adj done s [] ∧ s.cycles = cyclesOf adj ∧
      ∀ k ∈ Table.keys adj, k ∈ done := by
  have hall : Table.keys adj = [] ++ Table.keys adj := rfl
  obtain ⟨⟨done, h⟩, hkeys⟩ :=
    (Searching.start adj).foldl_visit hall (fun _ hk => absurd hk List.not_mem_nil)
  refine ⟨done, _, h, rfl, ?_⟩
  intro k hk
  exact ((h.entered_iff k).mp (hkeys k hk)).resolve_right List.not_mem_nil

end Marginalia.Graph
