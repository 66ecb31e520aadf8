/-
  Marginalia/Proofs/Context/Trim.lean
  ===================================
  **How many entries a prompt keeps.**  Entries are left out from the end while the
  prompt costs too much and more than one is left.  Whatever the cost, that stops at
  the greatest number which fits, or at one (`StopsAt.longestFit`), and with a
  smaller budget at no greater one (`StopsAt.mono`).

  The length of a prompt is that of its lines, each with a line break but the last
  (`length_intercalate_newline`).  More entries are more lines, or in the JSON format
  a longer list (`length_write_arr_lt`), so every entry makes a prompt longer
  (`length_promptText_lt`), and what fits does so with fewer entries.
-/
import Marginalia.Context.Prompt
import Mathlib.Algebra.Order.BigOperators.Group.List
import Mathlib.Algebra.Order.Ring.Nat
import Mathlib.Order.Bounds.Basic

namespace Marginalia

namespace Json

theorem writeItems_append (l : Layout) (depth : Nat) (vs ws : List Json) :
    writeItems l depth (vs ++ ws) = writeItems l depth vs ++ writeItems l depth ws := by
  induction vs with
  | nil => rfl
  | cons v vs ih => simp only [List.cons_append, writeItems, ih, List.append_assoc]

/-- In a list with items behind the others there is a comma more, and brackets with an item
between them take more room than without. -/
theorem length_write_arr_lt (depth : Nat) (vs : List Json) (w : Json) (ws : List Json) :
    (write .indented depth (.arr vs)).length <
      (write .indented depth (.arr (vs ++ w :: ws))).length := by
  have hcomma : Layout.indented.comma.length = 1 := rfl
  have hnewline : 0 < (Layout.indented.newline (depth + 1)).length := by
    simp [Layout.newline, Layout.indented]
  cases vs with
  | nil =>
    simp only [List.nil_append, write, List.length_append, List.length_cons, List.length_nil]
    omega
  | cons v vs =>
    simp only [List.cons_append, write, writeItems_append, writeItems, List.length_append,
      List.length_cons, List.length_nil, hcomma]
    omega

end Json

namespace Context

variable {α κ : Type}

/-! ### Leaving out at the end -/

/-- So many of `n` are kept within a budget: all, if these are not more than one or fit; else the
greatest number that fits, or one if none does. -/
def LongestFit (cost : Nat → Nat) (budget : Int) (n k : Nat) : Prop :=
  if n ≤ 1 ∨ (cost n : Int) ≤ budget then k = n
  else
    IsGreatest {j : Nat | 1 ≤ j ∧ j < n ∧ (cost j : Int) ≤ budget} k ∨
      k = 1 ∧ ∀ j : Nat, 1 ≤ j → j < n → budget < (cost j : Int)

/-- Where leaving out at the end stops. -/
structure StopsAt (cost : Nat → Nat) (budget : Int) (n k : Nat) : Prop where
  le : k ≤ n
  one_le : 1 ≤ n → 1 ≤ k
  fits : 1 < k → (cost k : Int) ≤ budget
  exceeds : ∀ j, k < j → j ≤ n → budget < (cost j : Int)

variable {cost : Nat → Nat} {budget budget' : Int} {n k k' : Nat}

theorem stopsAt_fitCount (cost : Nat → Nat) (budget : Int) (n : Nat) :
    StopsAt cost budget n (fitCount cost budget n) := by
  induction n using fitCount.induct cost budget with
  | case1 =>
    rw [fitCount]
    exact ⟨Nat.le_refl 0, id, by omega, by omega⟩
  | case2 =>
    rw [fitCount]
    exact ⟨Nat.le_refl 1, id, by omega, by omega⟩
  | case3 n hexceeds ih =>
    rw [fitCount, if_pos hexceeds]
    refine ⟨Nat.le_succ_of_le ih.le, fun _ => ih.one_le (by omega), ih.fits, ?_⟩
    intro j hj hn
    rcases Nat.lt_or_eq_of_le hn with hlt | rfl
    · exact ih.exceeds j hj (by omega)
    · exact hexceeds
  | case4 n hfits =>
    rw [fitCount, if_neg hfits]
    exact ⟨Nat.le_refl _, id, fun _ => Int.not_lt.mp hfits, by omega⟩

theorem StopsAt.longestFit (h : StopsAt cost budget n k) : LongestFit cost budget n k := by
  by_cases hall : n ≤ 1 ∨ (cost n : Int) ≤ budget
  · rw [LongestFit, if_pos hall]
    by_contra hne
    have hlt : k < n := Nat.lt_of_le_of_ne h.le hne
    have hone := h.one_le (by omega)
    have hexceeds := h.exceeds n hlt (Nat.le_refl n)
    omega
  · rw [LongestFit, if_neg hall]
    obtain ⟨hn, hcost⟩ := not_or.mp hall
    have hone := h.one_le (by omega)
    have hlt : k < n := by
      rcases Nat.lt_or_eq_of_le h.le with hlt | rfl
      · exact hlt
      · exact absurd (h.fits (by omega)) hcost
    by_cases hk : (cost k : Int) ≤ budget
    · refine .inl ⟨⟨hone, hlt, hk⟩, ?_⟩
      rintro j ⟨_, hj, hfits⟩
      by_contra hkj
      have hexceeds := h.exceeds j (by omega) (by omega)
      omega
    · obtain rfl : k = 1 := by
        by_contra hne
        exact hk (h.fits (by omega))
      refine .inr ⟨rfl, ?_⟩
      intro j hj hjn
      rcases Nat.lt_or_eq_of_le hj with hj | rfl
      · exact h.exceeds j hj (by omega)
      · exact Int.not_le.mp hk

theorem StopsAt.mono (h : StopsAt cost budget n k) (h' : StopsAt cost budget' n k')
    (hle : budget ≤ budget') : k ≤ k' := by
  by_contra hlt
  have hexceeds := h'.exceeds k (by omega) h.le
  have hn := h.le
  have hone := h'.one_le (by omega)
  have hfits := h.fits (by omega)
  omega

example : fitCount (fun n => 10 * n) 25 4 = 2 ∧ fitCount (fun n => 10 * n) 5 4 = 1 := by decide

/-! ### Lengths of prompts -/

/-- The length of lines with a line break after each. -/
def linesLength (lines : List String) : Nat := (lines.map fun line => line.length + 1).sum

theorem linesLength_append (ls ms : List String) :
    linesLength (ls ++ ms) = linesLength ls + linesLength ms := by
  simp [linesLength]

theorem linesLength_cons (line : String) (lines : List String) :
    linesLength (line :: lines) = line.length + 1 + linesLength lines := by
  simp [linesLength]

theorem length_intercalate_newline {lines : List String} (h : lines ≠ []) :
    (String.intercalate "\n" lines).length + 1 = linesLength lines := by
  have hbreak : "\n".length = 1 := by decide
  induction lines with
  | nil => exact absurd rfl h
  | cons line lines ih =>
    cases lines with
    | nil => simp [linesLength]
    | cons line' lines =>
      rw [String.intercalate_cons_cons, String.length_append, String.length_append, hbreak,
        linesLength_cons, ← ih (by simp)]
      omega

theorem bodyLines_ne_nil (format : Format) (es : List (List (String × Json))) :
    bodyLines format es ≠ [] := by
  cases format <;> simp [bodyLines]

theorem linesLength_bodyLines_lt (format : Format) (es : List (List (String × Json)))
    (e : List (String × Json)) (es' : List (List (String × Json))) :
    linesLength (bodyLines format es) < linesLength (bodyLines format (es ++ e :: es')) := by
  cases format with
  | markdown =>
    simp only [bodyLines, linesLength_append, List.flatMap_append, List.flatMap_cons,
      linesLength_cons]
    omega
  | json =>
    have hlist := Json.length_write_arr_lt 0 (es.map .obj) (.obj e) (es'.map .obj)
    simp only [bodyLines, linesLength_cons, List.map_append, List.map_cons, Json.render,
      String.length_ofList]
    omega
  | text =>
    simp only [bodyLines, linesLength_append, List.map_append, List.map_cons, linesLength_cons]
    omega

/-- Entries make a prompt longer. -/
theorem length_promptText_lt (t : Template) (format : Format) (es : List (List (String × Json)))
    (e : List (String × Json)) (es' : List (List (String × Json))) :
    (promptText t format es).length < (promptText t format (es ++ e :: es')).length := by
  have hbody := linesLength_bodyLines_lt format es e es'
  have hlength : ∀ before after : List String, ∀ es,
      (String.intercalate "\n" (before ++ bodyLines format es ++ after)).length + 1 =
        linesLength before + linesLength (bodyLines format es) + linesLength after := by
    intro before after es
    rw [length_intercalate_newline (by simp [bodyLines_ne_nil]), linesLength_append,
      linesLength_append]
  unfold promptText
  have h := hlength (if t.preamble.isEmpty then [] else [t.preamble, ""])
    (if t.instruction.isEmpty then [] else ["## Instructions", "", t.instruction, ""])
  have h1 := h es
  have h2 := h (es ++ e :: es')
  omega

theorem length_promptText_take_lt (t : Template) (format : Format)
    {es : List (List (String × Json))} {i j : Nat} (hij : i < j) (hj : j ≤ es.length) :
    (promptText t format (es.take i)).length < (promptText t format (es.take j)).length := by
  have hsplit : es.take j = es.take i ++ (es.take j).drop i := by
    have hall := List.take_append_drop i (es.take j)
    rw [List.take_take, Nat.min_eq_left hij.le] at hall
    exact hall.symm
  obtain ⟨e, es', hrest⟩ : ∃ e es', (es.take j).drop i = e :: es' := by
    apply List.exists_cons_of_ne_nil
    apply List.ne_nil_of_length_pos
    rw [List.length_drop, List.length_take]
    omega
  rw [hsplit, hrest]
  exact length_promptText_lt t format _ e es'

theorem tokenEstimate_mono {s t : String} (h : s.length ≤ t.length) :
    tokenEstimate s ≤ tokenEstimate t := Nat.div_le_div_right (Nat.add_le_add_right h 3)

/-- A prompt keeps the first entries of a selection: the longest part that fits, or at least one.
Every entry makes a prompt longer, so what fits does so with fewer entries, and with a smaller
budget less of the same entries is kept. -/
theorem build_keeps_longestFit [BEq α] [Label α] (db : Database α κ) (o : Options α) :
    let all := (select db o).1.map (contextEntry o.shownFields)
    let prompt := fun k => promptText o.agent.template o.format (all.take k)
    let cost := fun k => tokenEstimate (prompt k)
    (∃ k, LongestFit cost o.tokenBudget all.length k ∧
      (build db o).entries = all.take k ∧
      (build db o).prompt = prompt k ∧
      (build db o).tokenCount = cost k ∧
      (build db o).totalSelected = all.length ∧
      ((build db o).wasTrimmed ↔ k < all.length)) ∧
    (∀ i j, i < j → j ≤ all.length → (prompt i).length < (prompt j).length) ∧
    (∀ (budget : Int) i j, i ≤ j → j ≤ all.length → (cost j : Int) ≤ budget →
      (cost i : Int) ≤ budget) ∧
    ∀ budget budget' : Int, budget ≤ budget' →
      (build db { o with tokenBudget := budget }).entries <+:
        (build db { o with tokenBudget := budget' }).entries := by
  intro all prompt cost
  have hlonger : ∀ i j, i < j → j ≤ all.length → (prompt i).length < (prompt j).length :=
    fun i j => length_promptText_take_lt o.agent.template o.format
  refine ⟨?_, hlonger, ?_, ?_⟩
  · have hstops := stopsAt_fitCount cost o.tokenBudget all.length
    refine ⟨_, hstops.longestFit, rfl, rfl, rfl, ?_, ?_⟩
    · exact (List.length_map _).symm
    · exact decide_eq_true_iff
  · intro budget i j hij hj hfits
    have hcost : cost i ≤ cost j := by
      rcases Nat.lt_or_eq_of_le hij with hlt | rfl
      · exact tokenEstimate_mono (hlonger i j hlt hj).le
      · exact Nat.le_refl _
    omega
  · intro budget budget' hle
    have hstops := stopsAt_fitCount cost budget all.length
    have hstops' := stopsAt_fitCount cost budget' all.length
    exact List.take_prefix_take_left (hstops.mono hstops' hle)

end Context

end Marginalia
