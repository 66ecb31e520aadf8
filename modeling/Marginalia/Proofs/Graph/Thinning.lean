/-
  Marginalia/Proofs/Graph/Thinning.lean
  =====================================
  **Repeated targets do not matter.**  A search of a graph reports the same cycles
  if from every list of targets those are taken out that stand there before
  (`cyclesOf_mapValues_eraseDups`).  When the search comes to a target again, it
  passes it: if the target lies on the path, its cycle is reported already, and
  otherwise it has been entered.  So the search of the whole lists and that of the
  thinned ones go through the same states, except that one of them stands still
  where a target was taken out.
-/
import Marginalia.Proofs.Graph.Search

namespace Marginalia.Graph

variable {α : Type}

/-! ### Thinned lists -/

/-- The second list is the first without some elements, of which each is passed or stands in front
of where it was taken out. -/
inductive Thins : (α → Prop) → List α → List α → Prop
  | nil {passed : α → Prop} : Thins passed [] []
  | keep {passed : α → Prop} {t : α} {ts ts' : List α} :
      Thins (fun x => passed x ∨ x = t) ts ts' → Thins passed (t :: ts) (t :: ts')
  | drop {passed : α → Prop} {t : α} {ts ts' : List α} :
      passed t → Thins passed ts ts' → Thins passed (t :: ts) ts'

theorem Thins.mono {passed : α → Prop} {ts ts' : List α} (h : Thins passed ts ts') :
    ∀ {passed' : α → Prop}, (∀ x, passed x → passed' x) → Thins passed' ts ts' := by
  induction h with
  | nil => intro _ _; exact .nil
  | keep _ ih =>
    intro passed' hle
    exact .keep (ih fun x hx => hx.imp_left (hle x))
  | drop ht _ ih =>
    intro passed' hle
    exact .drop (hle _ ht) (ih hle)

variable [BEq α]

/-- Taking out what was seen, and of the rest all but the first occurrences. -/
theorem thins_eraseDups_filter [LawfulBEq α] (ts : List α) :
    ∀ seen : List α, Thins (· ∈ seen) ts (ts.filter fun t => !seen.contains t).eraseDups := by
  induction ts with
  | nil => intro _; exact .nil
  | cons t ts ih =>
    intro seen
    by_cases ht : t ∈ seen
    · simpa [ht] using Thins.drop ht (by simpa using ih seen)
    · have hkeep : Thins (fun x => x ∈ seen ∨ x = t) ts
          (ts.filter fun x => !(t :: seen).contains x).eraseDups :=
        (ih (t :: seen)).mono fun x hx => by simpa [or_comm] using hx
      have hfilter : (ts.filter fun x => !(t :: seen).contains x)
          = (ts.filter fun x => !seen.contains x).filter fun x => !x == t := by
        rw [List.filter_filter]
        apply List.filter_congr
        intro x _
        simp
      rw [hfilter] at hkeep
      simpa [ht, List.eraseDups_cons] using Thins.keep hkeep

theorem thins_eraseDups [LawfulBEq α] (ts : List α) :
    Thins (fun _ => False) ts ts.eraseDups := by
  have h := thins_eraseDups_filter ts []
  simp only [List.contains_nil, Bool.not_false, List.filter_true] at h
  exact h.mono fun x hx => by simp at hx

/-! ### Searches of thinned graphs -/

/-- The search does nothing at this target. -/
def Passed (s : Search α) (path : List α) (t : α) : Prop :=
  (t ∈ path ∧ Reported s.cycles (cycleTo t path)) ∨ (t ∉ path ∧ t ∈ s.entered)

/-- The same frames with thinned lists of targets. -/
inductive ThinFrames (s : Search α) : List (α × List α) → List (α × List α) → Prop
  | nil : ThinFrames s [] []
  | cons {n : α} {ts ts' : List α} {rest rest' : List (α × List α)} :
      Thins (Passed s (n :: pathOf rest)) ts ts' → ThinFrames s rest rest' →
      ThinFrames s ((n, ts) :: rest) ((n, ts') :: rest')

/-- The same state of the search in a graph whose lists of targets are thinned. -/
structure ThinState (s s' : Search α) : Prop where
  unentered : s'.unentered = Table.mapValues List.eraseDups s.unentered
  entered : s'.entered = s.entered
  cycles : s'.cycles = s.cycles

theorem ThinFrames.pathOf_eq {s : Search α} {frames frames' : List (α × List α)}
    (h : ThinFrames s frames frames') : pathOf frames' = pathOf frames := by
  induction h with
  | nil => rfl
  | @cons n _ _ _ _ _ _ ih => exact congrArg (n :: ·) ih

/-- What was passed stays so as the search goes on. -/
theorem Passed.move {s s₁ : Search α} {frames frames₁ : List (α × List α)} {path : List α} {t : α}
    (hmove : Move s frames s₁ frames₁) (h : Passed s path t) : Passed s₁ path t := by
  rcases h with ⟨hpath, hreported⟩ | ⟨hpath, hentered⟩
  · refine .inl ⟨hpath, ?_⟩
    cases hmove with
    | close _ => exact hreported.report
    | leave => exact hreported
    | skip _ _ => exact hreported
    | enter _ _ => exact hreported
  · exact .inr ⟨hpath, hmove.entered_mono hentered⟩

theorem ThinFrames.move {s s₁ : Search α} {frames frames₁ : List (α × List α)}
    (hmove : Move s frames s₁ frames₁) {rest rest' : List (α × List α)}
    (h : ThinFrames s rest rest') : ThinFrames s₁ rest rest' := by
  induction h with
  | nil => exact .nil
  | cons hthin _ ih => exact .cons (hthin.mono fun _ => Passed.move hmove) ih

/-- A target that the thinned list keeps is passed after the move. -/
theorem ThinFrames.keep {s s₁ : Search α} {n t : α} {ts ts' : List α}
    {rest rest' frames₁ : List (α × List α)} (hmove : Move s ((n, t :: ts) :: rest) s₁ frames₁)
    (hthin : Thins (fun x => Passed s (n :: pathOf rest) x ∨ x = t) ts ts')
    (hpassed : Passed s₁ (n :: pathOf rest) t) (hrest : ThinFrames s rest rest') :
    ThinFrames s₁ ((n, ts) :: rest) ((n, ts') :: rest') := by
  refine .cons (hthin.mono ?_) (hrest.move hmove)
  rintro x (hx | rfl)
  · exact hx.move hmove
  · exact hpassed

theorem targetsOf_mapValues_eraseDups (adj : Adjacency α) (x : α) :
    targetsOf (Table.mapValues List.eraseDups adj) x = (targetsOf adj x).eraseDups := by
  rw [targetsOf, Table.get?_mapValues, targetsOf]
  cases Table.get? x adj <;> simp

/-- Entering a node takes its entry out of both tables. -/
theorem ThinState.enter {s s' : Search α} (h : ThinState s s') (x : α) :
    ThinState (s.enter x) (s'.enter x) where
  unentered := by
    simp only [Search.enter, h.unentered, Table.erase_mapValues]
  entered := congrArg (x :: ·) h.entered
  cycles := h.cycles

variable [LawfulBEq α]

theorem report_of_reported {c : List α} {cycles : List (List α)} (h : Reported cycles c) :
    report c cycles = cycles := by
  obtain ⟨d, hd, hnodes⟩ := h
  have hany : cycles.any (sameNodes c) = true :=
    List.any_eq_true.mpr ⟨d, hd, sameNodes_iff.mpr fun x => (hnodes x).symm⟩
  exact if_pos hany

/-- Every move in the graph is matched in the thinned graph by the same move, or by none if the
target was taken out. -/
theorem ThinState.move {s s₁ s' : Search α} {frames frames₁ frames' : List (α × List α)}
    (hmove : Move s frames s₁ frames₁) (hstate : ThinState s s')
    (hframes : ThinFrames s frames frames') :
    ∃ s₁' frames₁', s'.follow frames' = s₁'.follow frames₁' ∧ ThinState s₁ s₁' ∧
      ThinFrames s₁ frames₁ frames₁' := by
  cases hframes with
  | nil => cases hmove
  | @cons n ts ts' rest rest' hthin hrest =>
    have hpath : pathOf rest' = pathOf rest := hrest.pathOf_eq
    cases hthin with
    | nil =>
      cases hmove
      exact ⟨s', rest', Move.leave.follow_eq, hstate, hrest⟩
    | @keep _ t ts ts' hthin =>
      cases hmove with
      | close onPath =>
        have hmove' : Move s' ((n, t :: ts') :: rest') _ _ := .close (hpath ▸ onPath)
        refine ⟨_, _, hmove'.follow_eq, ⟨hstate.unentered, hstate.entered, ?_⟩,
          .keep (.close onPath) hthin (.inl ⟨onPath, reported_report _ _⟩) hrest⟩
        simp only [hpath, hstate.cycles]
      | skip offPath entered =>
        have hmove' : Move s' ((n, t :: ts') :: rest') _ _ :=
          .skip (hpath ▸ offPath) (hstate.entered ▸ entered)
        exact ⟨_, _, hmove'.follow_eq, hstate,
          .keep (.skip offPath entered) hthin (.inr ⟨offPath, entered⟩) hrest⟩
      | enter offPath new =>
        have hmove' : Move s' ((n, t :: ts') :: rest') _ _ :=
          .enter (hpath ▸ offPath) (hstate.entered ▸ new)
        refine ⟨_, _, hmove'.follow_eq, hstate.enter t, .cons ?_
          (.keep (.enter offPath new) hthin (.inr ⟨offPath, List.mem_cons_self⟩) hrest)⟩
        rw [hstate.unentered, targetsOf_mapValues_eraseDups]
        exact (thins_eraseDups _).mono fun _ hx => hx.elim
    | @drop _ t ts _ hpassed hthin =>
      cases hmove with
      | close onPath =>
        have hreported := (hpassed.resolve_right fun h => h.1 onPath).2
        refine ⟨s', (n, ts') :: rest', rfl, ⟨hstate.unentered, hstate.entered, ?_⟩, ?_⟩
        · rw [hstate.cycles, report_of_reported hreported]
        · have hmove : Move s ((n, t :: ts) :: rest) _ _ := .close onPath
          exact (ThinFrames.cons hthin hrest).move hmove
      | skip offPath entered => exact ⟨s', _, rfl, hstate, .cons hthin hrest⟩
      | enter offPath new =>
        rcases hpassed with ⟨onPath, _⟩ | ⟨_, entered⟩
        · exact absurd onPath offPath
        · exact absurd entered new

theorem ThinState.follow {s s' : Search α} {frames frames' : List (α × List α)}
    (hstate : ThinState s s') (hframes : ThinFrames s frames frames') :
    ThinState (s.follow frames) (s'.follow frames') := by
  -- the end of the thinned search stays the same while the two go on
  have hrun := follow_preserves (P := fun t frames₁ => ∃ t' frames₁',
      s'.follow frames' = t'.follow frames₁' ∧ ThinState t t' ∧ ThinFrames t frames₁ frames₁')
    (fun hmove ⟨t', frames₁', hend, hstate, hframes⟩ => by
      obtain ⟨t'', frames₂', hend', hstate', hframes'⟩ := hstate.move hmove hframes
      exact ⟨t'', frames₂', hend.trans hend', hstate', hframes'⟩)
    ⟨s', frames', rfl, hstate, hframes⟩
  obtain ⟨t', frames₁', hend, hstate', hframes'⟩ := hrun
  cases hframes'
  rw [hend, Search.follow]
  exact hstate'

theorem ThinState.visit {s s' : Search α} (h : ThinState s s') (x : α) :
    ThinState (s.visit x) (s'.visit x) := by
  unfold Search.visit
  rw [h.entered]
  split
  · exact h
  · apply (h.enter x).follow
    refine .cons ?_ .nil
    rw [h.unentered, targetsOf_mapValues_eraseDups]
    exact (thins_eraseDups _).mono fun _ hx => hx.elim

/-- Repeated targets do not change the cycles that are reported. -/
theorem cyclesOf_mapValues_eraseDups (adj : Adjacency α) :
    cyclesOf (Table.mapValues List.eraseDups adj) = cyclesOf adj := by
  have hfold : ∀ (keys : List α) {s s' : Search α}, ThinState s s' →
      ThinState (keys.foldl Search.visit s) (keys.foldl Search.visit s') := by
    intro keys
    induction keys with
    | nil => intro s s' h; exact h
    | cons x keys ih => intro s s' h; exact ih (h.visit x)
  have hstart : ThinState ⟨adj, [], []⟩ ⟨Table.mapValues List.eraseDups adj, [], []⟩ :=
    ⟨rfl, rfl, rfl⟩
  rw [cyclesOf, cyclesOf, Table.keys_mapValues]
  exact (hfold _ hstart).cycles

end Marginalia.Graph
