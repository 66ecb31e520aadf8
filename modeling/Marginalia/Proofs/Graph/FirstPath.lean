/-
  Marginalia/Proofs/Graph/FirstPath.lean
  ======================================
  **First paths.**  A search that takes keys and targets in their order and enters
  every node once comes to a node along one path: the one that at every turn takes
  the first choice from which the node can still be reached without meeting the
  path walked so far.  That path is described here without the search.  Main fact:
  a node has at most one first path (`IsFirstPath.unique`).

  Paths are listed from the current node back to the start, as in the search.
-/
import Marginalia.Proofs.Graph.Walk

namespace Marginalia.Graph

variable {α : Type} [BEq α]

/-- Where a path can go on: at its start to any key, later to the targets of its current node. -/
def choices (adj : Adjacency α) : List α → List α
  | [] => Table.keys adj
  | n :: _ => targetsOf adj n

/-- Of the choices, `w` is one before which none leads to the goal outside of the path behind. -/
def LeadsFirst (adj : Adjacency α) (goal : α) (behind : List α) (w : α) : Prop :=
  ∃ earlier later, choices adj behind = earlier ++ w :: later ∧
    ∀ t ∈ earlier, ¬ ReachesAvoiding adj behind t goal

/-- At every turn of the path the choice taken is the first that leads to the goal. -/
def Turns (adj : Adjacency α) (goal : α) : List α → Prop
  | [] => True
  | w :: behind => LeadsFirst adj goal behind w ∧ Turns adj goal behind

/-- The path that leads from `goal` back to a key along first choices, without meeting a node
twice. -/
structure IsFirstPath (adj : Adjacency α) (goal : α) (rest : List α) : Prop where
  simple : (goal :: rest).Nodup
  turns : Turns adj goal (goal :: rest)

/-- Of two choices that both lead to the goal first, neither stands before the other. -/
theorem LeadsFirst.unique {adj : Adjacency α} {goal v w : α} {behind : List α}
    (hv : LeadsFirst adj goal behind v) (hw : LeadsFirst adj goal behind w)
    (hvg : ReachesAvoiding adj behind v goal) (hwg : ReachesAvoiding adj behind w goal) :
    v = w := by
  obtain ⟨before, after, hsplit, hbefore⟩ := hv
  obtain ⟨before', after', hsplit', hbefore'⟩ := hw
  rw [hsplit] at hsplit'
  rcases List.append_eq_append_iff.mp hsplit' with ⟨gap, hgap, hrest⟩ | ⟨gap, hgap, hrest⟩
  · cases gap with
    | nil => exact (List.cons.inj hrest).1
    | cons x gap =>
      obtain rfl : v = x := (List.cons.inj hrest).1
      exact absurd hvg (hbefore' v (by simp [hgap]))
  · cases gap with
    | nil => exact (List.cons.inj hrest).1.symm
    | cons x gap =>
      obtain rfl : w = x := (List.cons.inj hrest).1
      exact absurd hwg (hbefore w (by simp [hgap]))

theorem Turns.of_append {adj : Adjacency α} {goal : α} {front back : List α}
    (h : Turns adj goal (front ++ back)) : Turns adj goal back := by
  induction front with
  | nil => exact h
  | cons x front ih => exact ih h.2

/-- A path with such turns follows edges. -/
theorem Turns.isChain {adj : Adjacency α} {goal : α} {path : List α} (h : Turns adj goal path) :
    path.IsChain (fun v u => Adjacent adj u v) := by
  induction path with
  | nil => exact .nil
  | cons w behind ih =>
    cases behind with
    | nil => exact .singleton w
    | cons n behind =>
      obtain ⟨earlier, later, hsplit, _⟩ := h.1
      refine .cons_cons ?_ (ih h.2)
      rw [Adjacent, show targetsOf adj n = earlier ++ w :: later from hsplit]
      simp

/-- From every node of a first path the rest of the path leads to the goal. -/
theorem IsFirstPath.reaches {adj : Adjacency α} {goal w : α} {rest front behind : List α}
    (h : IsFirstPath adj goal rest) (hsplit : goal :: rest = front ++ w :: behind) :
    ReachesAvoiding adj behind w goal := by
  have hsplit' : goal :: rest = (front ++ [w]) ++ behind := by simp [hsplit]
  have hne : front ++ [w] ≠ [] := by simp
  obtain ⟨x, ahead, hahead⟩ := List.exists_cons_of_ne_nil hne
  obtain rfl : goal = x := by
    rw [hahead] at hsplit'
    exact (List.cons.inj hsplit').1
  have hchain := h.turns.isChain
  have hsimple := h.simple
  rw [hsplit', hahead] at hchain hsimple
  apply reachesAvoiding_of_chain hchain.left_of_append
  · rw [← hahead]
    simp
  · intro x hx hbehind
    exact (List.nodup_append.mp hsimple).2.2 x hx x hbehind rfl

/-- A first path that has come as far as the other one turns where the other one turns. -/
theorem IsFirstPath.suffix_of_suffix {adj : Adjacency α} {goal : α} {p q : List α}
    (hp : IsFirstPath adj goal p) (hq : IsFirstPath adj goal q) :
    ∀ {back : List α}, back <:+ goal :: p → back <:+ goal :: q := by
  intro back
  induction back with
  | nil => intro _; exact List.nil_suffix
  | cons w behind ih =>
    rintro ⟨front, hfront⟩
    obtain ⟨front', hfront'⟩ := ih ⟨front ++ [w], by simpa using hfront⟩
    rcases List.eq_nil_or_concat front' with rfl | ⟨ahead, v, rfl⟩
    · -- the other path ends here, so the goal lies on this one twice
      have hmem : goal ∈ behind := by
        rw [show behind = goal :: q from hfront']
        exact List.mem_cons_self
      have hsimple := hp.simple
      rw [← hfront] at hsimple
      cases front with
      | nil =>
        obtain rfl : w = goal := (List.cons.inj hfront).1
        exact absurd hmem (List.nodup_cons.mp hsimple).1
      | cons x front =>
        obtain rfl : x = goal := (List.cons.inj hfront).1
        exact absurd (by simp [hmem]) (List.nodup_cons.mp hsimple).1
    · have hfront'' : ahead ++ v :: behind = goal :: q := by simpa using hfront'
      have hw : LeadsFirst adj goal behind w := (hfront ▸ hp.turns).of_append.1
      have hv : LeadsFirst adj goal behind v := (hfront'' ▸ hq.turns).of_append.1
      obtain rfl : w = v := hw.unique hv (hp.reaches hfront.symm) (hq.reaches hfront''.symm)
      exact ⟨ahead, hfront''⟩

/-- A node has at most one first path. -/
theorem IsFirstPath.unique {adj : Adjacency α} {goal : α} {p q : List α}
    (hp : IsFirstPath adj goal p) (hq : IsFirstPath adj goal q) : p = q := by
  have hpq : goal :: p <:+ goal :: q := hp.suffix_of_suffix hq List.suffix_rfl
  have hqp : goal :: q <:+ goal :: p := hq.suffix_of_suffix hp List.suffix_rfl
  have hlen : (goal :: p).length = (goal :: q).length := by
    have := hpq.length_le
    have := hqp.length_le
    omega
  exact (List.cons.inj (hpq.eq_of_length hlen)).2

end Marginalia.Graph
