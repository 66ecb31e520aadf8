/-
  Marginalia/Proofs/Text/Search.lean
  ==================================
  **Where a text occurs.**  A text occurs in another one exactly if it is a part of it
  (`occursIn_iff`).  One character is found after the longest part without it, and a
  text is cut at the first place from which the rest begins with the needle
  (`cut?_of_first`).
-/
import Marginalia.Text.Search
import Mathlib.Data.List.Infix

namespace Marginalia.Text

theorem startsWith_iff {p cs : List Char} : startsWith p cs = true ↔ p <+: cs :=
  List.isPrefixOf_iff_prefix

theorem occursIn_iff {needle cs : List Char} : occursIn needle cs = true ↔ needle <:+: cs := by
  unfold occursIn
  induction cs with
  | nil => cases needle <;> simp [find?]
  | cons c cs ih =>
    rw [find?, List.infix_cons_iff, ← startsWith_iff, ← ih]
    cases startsWith needle (c :: cs) <;> simp

theorem find?_singleton (c : Char) (cs : List Char) :
    find? [c] cs = if c ∈ cs then some (cs.takeWhile (· != c)).length else none := by
  induction cs with
  | nil => rfl
  | cons d cs ih =>
    by_cases h : c = d
    · subst h
      simp [find?, startsWith, List.isPrefixOf]
    · have hd : (d != c) = true := by simpa using Ne.symm h
      rw [find?, ih]
      by_cases hmem : c ∈ cs <;> simp [startsWith, List.isPrefixOf, h, hd, hmem]

theorem find?_singleton_append {c : Char} {a : List Char} (h : c ∉ a) (b : List Char) :
    find? [c] (a ++ c :: b) = some a.length := by
  have ha : ∀ d ∈ a, (d != c) = true := by
    intro d hd
    rw [bne_iff_ne]
    rintro rfl
    exact h hd
  rw [find?_singleton, if_pos (by simp), List.takeWhile_append_of_pos ha]
  simp

theorem cut?_of_first {needle a b : List Char}
    (h : ∀ t, t <:+ a → t ≠ [] → startsWith needle (t ++ (needle ++ b)) = false) :
    cut? needle (a ++ (needle ++ b)) = some (a, b) := by
  have hfind : find? needle (a ++ (needle ++ b)) = some a.length := by
    induction a with
    | nil =>
      have hstart : startsWith needle (needle ++ b) = true :=
        startsWith_iff.mpr (List.prefix_append _ _)
      rw [List.nil_append]
      cases hcs : needle ++ b with
      | nil =>
        obtain ⟨rfl, _⟩ := List.append_eq_nil_iff.mp hcs
        rfl
      | cons c cs =>
        rw [hcs] at hstart
        rw [find?, hstart, if_pos rfl]
        rfl
    | cons c a ih =>
      have hlater := ih fun t ht => h t (ht.trans (List.suffix_cons c a))
      have hc := h (c :: a) (List.suffix_refl _) (List.cons_ne_nil _ _)
      rw [List.cons_append] at hc ⊢
      rw [find?, hc, hlater]
      rfl
  rw [cut?, hfind, Option.map_some, List.take_left, ← List.append_assoc, List.drop_left']
  rw [List.length_append]

end Marginalia.Text
