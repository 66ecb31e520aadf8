/-
  Marginalia/Proofs/Except.lean
  =============================
  **Runs that can fail.**  A run that ends well is taken apart at its binds
  (`bind_eq_ok`).  A run over a list ends well if it does at every item
  (`exists_mapM_eq_ok`), and its results stand to the items one by one
  (`forall₂_of_mapM_eq_ok`).
-/
import Mathlib.Data.List.Forall2

namespace Marginalia

variable {α β γ ε : Type}

/-! ### Single steps -/

theorem ok_bind (x : α) (next : α → Except ε β) : Except.ok x >>= next = next x := rfl

theorem bind_eq_ok {x : Except ε α} {next : α → Except ε β} {b : β} :
    x >>= next = .ok b ↔ ∃ a, x = .ok a ∧ next a = .ok b := by
  cases x with
  | error fault => simp [bind, Except.bind]
  | ok a => simp [bind, Except.bind]

theorem map_eq_ok {x : Except ε α} {f : α → β} {b : β} :
    x.map f = .ok b ↔ ∃ a, x = .ok a ∧ f a = b := by
  cases x with
  | error fault => simp [Except.map]
  | ok a => simp [Except.map]

/-! ### Runs over lists -/

theorem forall₂_of_mapM_eq_ok {f : α → Except ε β} {l : List α} :
    ∀ {l' : List β}, l.mapM f = .ok l' → List.Forall₂ (fun x y => f x = .ok y) l l' := by
  induction l with
  | nil =>
    intro l' h
    obtain rfl : [] = l' := by simpa [pure, Except.pure] using h
    exact .nil
  | cons x l ih =>
    intro l' h
    rw [List.mapM_cons] at h
    obtain ⟨y, hy, h⟩ := bind_eq_ok.mp h
    obtain ⟨ys, hys, h⟩ := bind_eq_ok.mp h
    obtain rfl := Except.ok.inj h
    exact .cons hy (ih hys)

theorem mapM_eq_ok_of_forall₂ {f : α → Except ε β} {l : List α} {l' : List β}
    (h : List.Forall₂ (fun x y => f x = .ok y) l l') : l.mapM f = .ok l' := by
  induction h with
  | nil => rfl
  | cons hx _ ih =>
    rw [List.mapM_cons, hx, ih]
    rfl

theorem exists_mapM_eq_ok {f : α → Except ε β} {l : List α}
    (h : ∀ x ∈ l, ∃ y, f x = .ok y) : ∃ l', l.mapM f = .ok l' := by
  induction l with
  | nil => exact ⟨[], rfl⟩
  | cons x l ih =>
    obtain ⟨y, hy⟩ := h x List.mem_cons_self
    obtain ⟨ys, hys⟩ := ih fun x hx => h x (List.mem_cons_of_mem _ hx)
    exact ⟨y :: ys, by rw [List.mapM_cons, hy, hys]; rfl⟩

/-- What is written item by item is read back item by item. -/
theorem mapM_map_of_forall {write : α → β} {read : β → Except ε α} {l : List α}
    (h : ∀ x ∈ l, read (write x) = .ok x) : (l.map write).mapM read = .ok l := by
  apply mapM_eq_ok_of_forall₂
  rw [List.forall₂_map_left_iff, List.forall₂_same]
  exact h

/-! ### Lists item by item -/

theorem map_eq_map_of_forall₂ {R : α → β → Prop} {f : α → γ} {g : β → γ}
    (hfg : ∀ x y, R x y → f x = g y) {l : List α} {l' : List β} (h : List.Forall₂ R l l') :
    l.map f = l'.map g := by
  induction h with
  | nil => rfl
  | cons hxy _ ih => rw [List.map_cons, List.map_cons, hfg _ _ hxy, ih]

theorem filterMap_eq_filterMap_of_forall₂ {R : α → β → Prop} {f : α → Option γ}
    {g : β → Option γ} (hfg : ∀ x y, R x y → f x = g y) {l : List α} {l' : List β}
    (h : List.Forall₂ R l l') : l.filterMap f = l'.filterMap g := by
  induction h with
  | nil => rfl
  | cons hxy _ ih => rw [List.filterMap_cons, List.filterMap_cons, hfg _ _ hxy, ih]

theorem exists_mem_of_forall₂ {R : α → β → Prop} {l : List α} {l' : List β} {y : β}
    (h : List.Forall₂ R l l') (hy : y ∈ l') : ∃ x ∈ l, R x y := by
  induction h with
  | nil => simp at hy
  | cons hxy _ ih =>
    rcases List.mem_cons.mp hy with rfl | hy
    · exact ⟨_, List.mem_cons_self, hxy⟩
    · obtain ⟨x, hx, hxy⟩ := ih hy
      exact ⟨x, List.mem_cons_of_mem _ hx, hxy⟩

end Marginalia
