/-
  Marginalia/Proofs/Validate/Selection.lean
  =========================================
  **Options select and downgrade, and do nothing else.**  Every issue carries the rule
  that found it (`rule_of_mem_runRule`), and no rule looks at what another found.  So
  running some of the rules gives the issues of all rules without those of the others
  (`issues_eq_filter`), and rules that only warn change the severity of their own
  issues alone.  Errors and warnings of a validation are two filters of one list
  (`check_selects`).
-/
import Marginalia.Validate.Report

namespace Marginalia.Validate

/-! ### Issues and their rules -/

theorem exists_of_mem_uniqueIdsFrom {i : Issue} {annotations : List Indexed} :
    ∀ {seen : Table String Indexed}, i ∈ uniqueIdsFrom seen annotations →
      ∃ x message, i = Indexed.issue x .uniqueIds .error message := by
  induction annotations with
  | nil =>
    intro seen hi
    simp [uniqueIdsFrom] at hi
  | cons x rest ih =>
    intro seen hi
    rw [uniqueIdsFrom] at hi
    split at hi
    · exact ih hi
    · rcases List.mem_cons.mp hi with rfl | hi
      · exact ⟨x, _, rfl⟩
      · exact ih hi

/-- An issue carries the rule that found it. -/
theorem rule_of_mem_runRule {o : Options} {corpus : List Extraction} {r : Rule} {i : Issue}
    (h : i ∈ runRule o corpus r) : i.rule = r := by
  cases r with
  | uniqueIds =>
    obtain ⟨x, message, rfl⟩ := exists_of_mem_uniqueIdsFrom h
    rfl
  | depsExist =>
    obtain ⟨x, _, h⟩ := List.mem_flatMap.mp h
    obtain ⟨t, _, rfl⟩ := List.mem_map.mp h
    rfl
  | noCycles =>
    obtain ⟨cycle, _, rfl⟩ := List.mem_map.mp h
    rfl
  | requiredFields =>
    obtain ⟨x, _, h⟩ := List.mem_flatMap.mp h
    obtain ⟨a, _, h⟩ := List.mem_flatMap.mp h
    obtain ⟨name, _, rfl⟩ := List.mem_map.mp h
    rfl
  | visibility =>
    obtain ⟨x, _, h⟩ := List.mem_flatMap.mp h
    obtain ⟨t, _, rfl⟩ := List.mem_map.mp h
    rfl
  | schema =>
    obtain ⟨x, _, h⟩ := List.mem_flatMap.mp h
    obtain ⟨a, _, h⟩ := List.mem_flatMap.mp h
    obtain ⟨message, _, rfl⟩ := List.mem_map.mp h
    rfl

/-! ### All rules and some of them -/

/-- What the six rules find, one rule after another. -/
def allIssues (required : List String) (bySegment : Bool) (corpus : List Extraction) :
    List Issue :=
  duplicateIdIssues (indexed corpus) ++ unknownTargetIssues bySegment (indexed corpus)
    ++ cycleIssues (indexed corpus) ++ missingFieldIssues required corpus
    ++ visibilityIssues bySegment (indexed corpus) ++ schemaIssues corpus

theorem flatMap_runRule (o : Options) (corpus : List Extraction) :
    Rule.all.flatMap (runRule o corpus) = allIssues o.requiredFields o.bySegment corpus := by
  simp [Rule.all, runRule, allIssues]

/-- Leaving out sources leaves out what comes from them, if everything shows its source. -/
theorem flatMap_filter_of_source {σ α : Type} {source : α → σ} {f : σ → List α}
    (h : ∀ s, ∀ a ∈ f s, source a = s) (p : σ → Bool) (l : List σ) :
    (l.filter p).flatMap f = (l.flatMap f).filter fun a => p (source a) := by
  induction l with
  | nil => rfl
  | cons s l ih =>
    rw [List.flatMap_cons, List.filter_append, ← ih]
    cases hs : p s with
    | true =>
      have hall : (f s).filter (fun a => p (source a)) = f s := by
        rw [List.filter_eq_self]
        intro a ha
        rw [h s a ha, hs]
      rw [List.filter_cons_of_pos hs, List.flatMap_cons, hall]
    | false =>
      have hnone : (f s).filter (fun a => p (source a)) = [] := by
        rw [List.filter_eq_nil_iff]
        intro a ha
        simp [h s a ha, hs]
      rw [List.filter_cons_of_neg (by simp [hs]), hnone, List.nil_append]

theorem issues_eq_filter (o : Options) (corpus : List Extraction) :
    issues o corpus = ((allIssues o.requiredFields o.bySegment corpus).filter fun i =>
      o.rules.contains i.rule.name).map (downgrade o.warnOnly) := by
  have hrule : ∀ r, ∀ i ∈ runRule o corpus r, i.rule = r := fun _ _ => rule_of_mem_runRule
  have hrules := flatMap_filter_of_source hrule (fun r => o.rules.contains r.name) Rule.all
  rw [issues, hrules, flatMap_runRule]

/-! ### Errors and warnings -/

/-- The issue as a warning. -/
def Issue.asWarning (i : Issue) : Issue := { i with severity := .warning }

section

variable (warnOnly : List String) (i : Issue)

theorem severity_downgrade_error : ((downgrade warnOnly i).severity == .error) =
    (!warnOnly.contains i.rule.name && i.severity == .error) := by
  cases hwarn : warnOnly.contains i.rule.name with
  | true =>
    simp only [downgrade, hwarn]
    rfl
  | false =>
    simp only [downgrade, hwarn, Bool.false_eq_true, if_false, Bool.not_false, Bool.true_and]

theorem severity_downgrade_warning : ((downgrade warnOnly i).severity == .warning) =
    (i.severity == .warning || warnOnly.contains i.rule.name) := by
  cases hwarn : warnOnly.contains i.rule.name with
  | true =>
    simp only [downgrade, hwarn, Bool.or_true]
    rfl
  | false => simp only [downgrade, hwarn, Bool.false_eq_true, if_false, Bool.or_false]

variable {warnOnly i}

theorem downgrade_of_error (h : ((downgrade warnOnly i).severity == .error) = true) :
    downgrade warnOnly i = i := by
  rw [severity_downgrade_error, Bool.and_eq_true, Bool.not_eq_true'] at h
  simp only [downgrade, h.1, Bool.false_eq_true, if_false]

theorem downgrade_of_warning (h : ((downgrade warnOnly i).severity == .warning) = true) :
    downgrade warnOnly i = i.asWarning := by
  cases hwarn : warnOnly.contains i.rule.name with
  | true => simp only [downgrade, hwarn, if_true, Issue.asWarning]
  | false =>
    have hsame : downgrade warnOnly i = i := by
      simp only [downgrade, hwarn, Bool.false_eq_true, if_false]
    rw [hsame, beq_iff_eq] at h
    rw [hsame, Issue.asWarning, ← h]

end

section

variable (o : Options) (corpus : List Extraction)

theorem errors_check : (check o corpus).errors =
    (allIssues o.requiredFields o.bySegment corpus).filter fun i =>
      o.rules.contains i.rule.name && !o.warnOnly.contains i.rule.name && i.severity == .error := by
  have herrors : (check o corpus).errors = (issues o corpus).filter (·.severity == .error) := rfl
  have hself : ∀ l : List Issue,
      (l.map (downgrade o.warnOnly)).filter (·.severity == .error) =
        l.filter fun i => (downgrade o.warnOnly i).severity == .error := by
    intro l
    rw [List.filter_map]
    apply (List.map_congr_left _).trans (List.map_id _)
    intro i hi
    exact downgrade_of_error (List.mem_filter.mp hi).2
  rw [herrors, issues_eq_filter, hself, List.filter_filter]
  apply List.filter_congr
  intro i _
  rw [severity_downgrade_error, Bool.and_comm, Bool.and_assoc]

theorem warnings_check : (check o corpus).warnings =
    if o.includeWarnings then
      ((allIssues o.requiredFields o.bySegment corpus).filter fun i =>
        o.rules.contains i.rule.name &&
          (i.severity == .warning || o.warnOnly.contains i.rule.name)).map Issue.asWarning
    else [] := by
  have hwarnings : (check o corpus).warnings =
      if o.includeWarnings then (issues o corpus).filter (·.severity == .warning) else [] := rfl
  have hself : ∀ l : List Issue,
      (l.map (downgrade o.warnOnly)).filter (·.severity == .warning) =
        (l.filter fun i => (downgrade o.warnOnly i).severity == .warning).map Issue.asWarning := by
    intro l
    rw [List.filter_map]
    apply List.map_congr_left
    intro i hi
    exact downgrade_of_warning (List.mem_filter.mp hi).2
  rw [hwarnings, issues_eq_filter, hself, List.filter_filter]
  congr 2
  apply List.filter_congr
  intro i _
  rw [severity_downgrade_warning, Bool.and_comm]

end

/-- The errors are the errors of enabled rules that do more than warn; the warnings, if they are
wanted, are the warnings of enabled rules together with all that rules find which only warn.  Both
are as the rules found them, in their order, but for the severity of a warning.  So with fewer
rules, with more rules that only warn, and with or without warnings, what passed still passes. -/
theorem check_selects (o : Options) (corpus : List Extraction) :
    let found := allIssues o.requiredFields o.bySegment corpus
    (check o corpus).errors = found.filter (fun i => o.rules.contains i.rule.name &&
      !o.warnOnly.contains i.rule.name && i.severity == .error) ∧
    (check o corpus).warnings =
      (if o.includeWarnings then
        (found.filter fun i => o.rules.contains i.rule.name &&
          (i.severity == .warning || o.warnOnly.contains i.rule.name)).map Issue.asWarning
      else []) ∧
    ∀ rules warnOnly includeWarnings, rules ⊆ o.rules → o.warnOnly ⊆ warnOnly →
      (check o corpus).passes = true →
      (check { o with rules, warnOnly, includeWarnings } corpus).passes = true := by
  refine ⟨errors_check o corpus, warnings_check o corpus, ?_⟩
  intro rules warnOnly includeWarnings hrules hwarn hpass
  rw [Result.passes, List.isEmpty_iff, errors_check, List.filter_eq_nil_iff] at hpass ⊢
  intro i hi herror
  simp only [Bool.and_eq_true, Bool.not_eq_true', List.contains_eq_mem, decide_eq_true_eq,
    decide_eq_false_iff_not] at herror hpass
  obtain ⟨⟨hrule, hhard⟩, hseverity⟩ := herror
  exact hpass i hi ⟨⟨hrules hrule, fun hmem => hhard (hwarn hmem)⟩, hseverity⟩

theorem check_selects_unknown_targets :
    let o : Options :=
      { rules := ["unique-id-per-scope", "deps-must-exist"], warnOnly := ["deps-must-exist"] }
    let record : Record := { id := some "a", deps := some (.flat ["b", "lib/c"]) }
    let corpus : List Extraction :=
      [{ path := "a.ts", annotations := [⟨record, .comment, 1, "", none⟩] }]
    let rules := ["deps-must-exist"]
    let warnOnly := ["schema-validates", "deps-must-exist"]
    rules ⊆ o.rules ∧ o.warnOnly ⊆ warnOnly ∧ (check o corpus).passes = true ∧
      (check o corpus).warnings =
        (unknownTargetIssues true (indexed corpus)).map Issue.asWarning ∧
      (unknownTargetIssues true (indexed corpus)).map (·.severity) = [.error, .warning] ∧
      (check { o with rules, warnOnly, includeWarnings := false } corpus).passes = true := by
  intro o record corpus rules warnOnly
  have hrules : rules ⊆ o.rules := by decide
  have hwarn : o.warnOnly ⊆ warnOnly := by decide
  have hpass : (check o corpus).passes = true := by decide +kernel
  obtain ⟨_, hwarnings, hmono⟩ := check_selects o corpus
  refine ⟨hrules, hwarn, hpass, ?_, by decide +kernel,
    hmono rules warnOnly false hrules hwarn hpass⟩
  rw [hwarnings]
  decide +kernel

end Marginalia.Validate
