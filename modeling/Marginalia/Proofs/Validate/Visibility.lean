/-
  Marginalia/Proofs/Validate/Visibility.lean
  ==========================================
  **What the check of visibility warns of.**  A public annotation should not need an
  internal one at run time or build time.  The check resolves a target among the ids
  with a declared visibility, the check of unknown targets among all ids.  Both find
  an id by its name first and by the last segment of the target after that, so they
  differ where a target is itself an id that declares no visibility: this one stands
  in the way of the last segment in one check and not in the other.

    * Every warning belongs to one occurrence of a target and every occurrence has
      at most one; it has one exactly if the target resolves among all ids to one that
      is declared internal, or is passed over in favour of its last segment
      (`visibilityIssues_eq_of_distinct`).
    * A target that is passed over draws a warning although the annotation that it
      names is public (`visibilityIssues_passes_over_id`).
-/
import Marginalia.Proofs.Release.HardDependencies

namespace Marginalia.Validate

/-! ### Needs and warnings -/

/-- The occurrences of targets that public annotations need at run time or build time. -/
def hardNeeds (annotations : List Indexed) : List (Indexed × String) :=
  (annotations.filter fun x => x.note.record.visibilityOrPublic == .published).flatMap fun x =>
    (x.note.record.targets [.runtime, .build]).map (x, ·)

/-- The warning about a target at the annotation that needs it. -/
def Indexed.needIssue (x : Indexed) (target : String) : Issue :=
  x.issue .visibility .warning
    ("Public entity \"" ++ x.id ++ "\" depends on internal entity \"" ++ target
      ++ "\". Consider making \"" ++ target ++ "\" public or making \"" ++ x.id ++ "\" internal.")

theorem visibilityIssues_eq_filter (bySegment : Bool) (annotations : List Indexed) :
    visibilityIssues bySegment annotations =
      ((hardNeeds annotations).filter fun p =>
        isInternalTarget bySegment (declaredVisibility annotations) p.2).map fun p =>
          p.1.needIssue p.2 := by
  simp only [visibilityIssues, hardNeeds, List.filter_flatMap, List.map_flatMap, List.filter_map,
    List.map_map]
  rfl

/-! ### Resolving among ids -/

theorem any_resolve_of_mem {known : List String} {target : String} (h : target ∈ known)
    (bySegment : Bool) (p : String → Bool) : (resolve bySegment known target).any p = p target := by
  rw [resolve, if_pos (List.contains_iff_mem.mpr h)]
  rfl

/-- A target that is no id is looked for by its last segment, and a property that only ids have
need not ask whether that is one. -/
theorem any_resolve_of_not_mem {known : List String} {target : String} (h : target ∉ known)
    (bySegment : Bool) {p : String → Bool} (hp : ∀ id, p id = true → id ∈ known) :
    (resolve bySegment known target).any p =
      (bySegment && isPathLike target && p (lastSegment target)) := by
  rw [resolve, if_neg (mt List.contains_iff_mem.mp h)]
  cases hlast : p (lastSegment target) with
  | true =>
    rw [List.contains_iff_mem.mpr (hp _ hlast), Bool.and_true]
    cases bySegment && isPathLike target with
    | true => exact hlast
    | false => rfl
  | false =>
    rw [Bool.and_false]
    split
    · exact hlast
    · rfl

/-! ### Ids and what they declare -/

/-- The id is that of an annotation declared internal. -/
def isDeclaredInternal (annotations : List Indexed) (id : String) : Bool :=
  annotations.any fun y => y.id == id && y.note.record.visibility == some .internal

/-- The id is that of an annotation that declares no visibility. -/
def isUndeclared (annotations : List Indexed) (id : String) : Bool :=
  annotations.any fun y => y.id == id && y.note.record.visibility == none

/-- Among all ids the target resolves to one that is declared internal. -/
def namesInternal (bySegment : Bool) (annotations : List Indexed) (target : String) : Bool :=
  (resolve bySegment (annotations.map (·.id)) target).any (isDeclaredInternal annotations)

/-- The target is the id of an annotation that declares no visibility, and its last segment that of
one declared internal. -/
def isPassedOver (bySegment : Bool) (annotations : List Indexed) (target : String) : Bool :=
  bySegment && isPathLike target && isUndeclared annotations target
    && isDeclaredInternal annotations (lastSegment target)

section Distinct

variable {annotations : List Indexed} (hnodup : (annotations.map (·.id)).Nodup)

include hnodup

theorem get?_declaredVisibility_iff (id : String) (v : Visibility) :
    Table.get? id (declaredVisibility annotations) = some v ↔
      ∃ y ∈ annotations, y.id = id ∧ y.note.record.visibility = some v := by
  constructor
  · intro hget
    have hmem := Table.mem_of_mem_ofPairs (Table.mem_of_get?_eq_some hget)
    obtain ⟨y, hy, hpair⟩ := List.mem_filterMap.mp hmem
    obtain ⟨w, hw, heq⟩ := Option.map_eq_some_iff.mp hpair
    obtain ⟨hid, rfl⟩ := Prod.mk.inj heq
    exact ⟨y, hy, hid, hw⟩
  · rintro ⟨y, hy, rfl, hv⟩
    exact get?_declaredVisibility hnodup hy hv

theorem isDeclaredInternal_eq (id : String) : isDeclaredInternal annotations id =
    (Table.get? id (declaredVisibility annotations) == some .internal) := by
  rw [Bool.eq_iff_iff, beq_iff_eq, get?_declaredVisibility_iff hnodup]
  simp [isDeclaredInternal]

theorem mem_keys_declaredVisibility (id : String) :
    id ∈ Table.keys (declaredVisibility annotations) ↔
      ∃ y ∈ annotations, y.id = id ∧ y.note.record.visibility ≠ none := by
  rw [← Table.has_iff, Table.has, Option.isSome_iff_exists]
  simp only [get?_declaredVisibility_iff hnodup, Option.ne_none_iff_exists']
  grind

/-- An id is declared or undeclared, not both. -/
theorem isUndeclared_eq (id : String) : isUndeclared annotations id =
    ((annotations.map (·.id)).contains id
      && !(Table.keys (declaredVisibility annotations)).contains id) := by
  rw [Bool.eq_iff_iff]
  simp only [isUndeclared, List.any_eq_true, Bool.and_eq_true, Bool.not_eq_true', beq_iff_eq,
    ← Bool.not_eq_true, List.contains_iff_mem, mem_keys_declaredVisibility hnodup]
  constructor
  · rintro ⟨y, hy, rfl, hnone⟩
    refine ⟨List.mem_map_of_mem hy, ?_⟩
    rintro ⟨z, hz, hid, hdeclared⟩
    obtain rfl := List.inj_on_of_nodup_map hnodup hz hy hid
    exact hdeclared hnone
  · rintro ⟨hid, hundeclared⟩
    obtain ⟨y, hy, rfl⟩ := List.mem_map.mp hid
    refine ⟨y, hy, rfl, ?_⟩
    by_contra hdeclared
    exact hundeclared ⟨y, hy, rfl, hdeclared⟩

/-- The check looks a target up among the ids that declare a visibility.  That comes to the same as
looking it up among all ids, but for targets that are passed over. -/
theorem isInternalTarget_eq (bySegment : Bool) (target : String) :
    isInternalTarget bySegment (declaredVisibility annotations) target =
      (namesInternal bySegment annotations target
        || isPassedOver bySegment annotations target) := by
  have hany : isInternalTarget bySegment (declaredVisibility annotations) target =
      (resolve bySegment (Table.keys (declaredVisibility annotations)) target).any
        (isDeclaredInternal annotations) := by
    unfold isInternalTarget
    cases resolve bySegment (Table.keys (declaredVisibility annotations)) target with
    | none => rfl
    | some id => exact (isDeclaredInternal_eq hnodup id).symm
  have hdeclared : ∀ id, isDeclaredInternal annotations id = true →
      id ∈ Table.keys (declaredVisibility annotations) := by
    intro id hid
    rw [isDeclaredInternal_eq hnodup, beq_iff_eq] at hid
    exact List.mem_map_of_mem (Table.mem_of_get?_eq_some hid)
  have hids : ∀ id ∈ Table.keys (declaredVisibility annotations),
      id ∈ annotations.map (·.id) := by
    intro id hid
    obtain ⟨y, hy, rfl, _⟩ := (mem_keys_declaredVisibility hnodup id).mp hid
    exact List.mem_map_of_mem hy
  rw [hany, namesInternal, isPassedOver, isUndeclared_eq hnodup]
  by_cases htarget : target ∈ Table.keys (declaredVisibility annotations)
  · -- the target is found by its name in both
    rw [any_resolve_of_mem htarget, any_resolve_of_mem (hids _ htarget),
      List.contains_iff_mem.mpr htarget]
    simp
  · have hpublic : isDeclaredInternal annotations target = false :=
      Bool.eq_false_iff.mpr (mt (hdeclared target) htarget)
    rw [any_resolve_of_not_mem htarget bySegment hdeclared]
    by_cases hid : target ∈ annotations.map (·.id)
    · -- only among all ids it is found by its name
      rw [any_resolve_of_mem hid, hpublic, List.contains_iff_mem.mpr hid]
      simp [htarget]
    · rw [any_resolve_of_not_mem hid bySegment fun id h => hids id (hdeclared id h)]
      simp [hid]

end Distinct

/-! ### The warnings -/

/-- Where no two annotations have the same id, the check warns once of every occurrence of a runtime
or build target of a public annotation that resolves among all ids to one declared internal, or is
passed over, and of nothing else.  A target is only passed over where targets are matched by their
last segment. -/
theorem visibilityIssues_eq_of_distinct {corpus : List Extraction}
    (hnodup : ((indexed corpus).map (·.id)).Nodup) (bySegment : Bool) :
    visibilityIssues bySegment (indexed corpus) =
      ((hardNeeds (indexed corpus)).filter fun p =>
        namesInternal bySegment (indexed corpus) p.2
          || isPassedOver bySegment (indexed corpus) p.2).map fun p => p.1.needIssue p.2 := by
  rw [visibilityIssues_eq_filter]
  congr 1
  apply List.filter_congr
  intro p _
  exact isInternalTarget_eq hnodup bySegment p.2

/-- Annotations that need an internal one by its id, twice, and by a path; an optional need and one
of an internal annotation; and a path that is an id itself. -/
def needyCorpus : List Extraction :=
  [⟨"a.ts", [
      ⟨{ id := "a", deps := some (.classified
          { runtime := ["core", "lib/core", "core"], build := ["b"], optional := ["core"] }) },
        .comment, 1, "", none⟩,
      ⟨{ id := "b", deps := some (.flat ["lib/store", "b"]) }, .comment, 7, "", none⟩], []⟩,
   ⟨"core.ts", [
      ⟨{ id := "core", visibility := some .internal, deps := some (.flat ["store"]) },
        .embedded, 2, "", none⟩,
      ⟨{ id := "store", visibility := some .internal }, .comment, 9, "", none⟩,
      ⟨{ id := "lib/store" }, .comment, 12, "", none⟩], []⟩]

theorem visibilityIssues_eq_of_distinct_needy :
    ((indexed needyCorpus).map (·.id)).Nodup ∧
      (visibilityIssues true (indexed needyCorpus)).map (fun i => (i.annotationId, i.line)) =
        [(some "a", some 1), (some "a", some 1), (some "a", some 1), (some "b", some 7)] ∧
      (visibilityIssues false (indexed needyCorpus)).map (fun i => (i.annotationId, i.line)) =
        [(some "a", some 1), (some "a", some 1)] := by
  have hnodup : ((indexed needyCorpus).map (·.id)).Nodup := by decide +kernel
  refine ⟨hnodup, ?_, ?_⟩
  · rw [visibilityIssues_eq_of_distinct hnodup]
    decide +kernel
  · rw [visibilityIssues_eq_of_distinct hnodup]
    decide +kernel

/-- A public annotation that needs another one by an id whose last segment is the id of an internal
one. -/
def bypassedCorpus : List Extraction :=
  [⟨"m.ts", [
      ⟨{ id := "a", deps := some (.flat ["lib/x"]) }, .comment, 1, "", none⟩,
      ⟨{ id := "lib/x" }, .comment, 5, "", none⟩,
      ⟨{ id := "x", visibility := some .internal }, .comment, 9, "", none⟩], []⟩]

/-- All ids differ and the one target resolves to its own id, which declares nothing, yet the check
warns of it. -/
theorem visibilityIssues_passes_over_id :
    ((indexed bypassedCorpus).map (·.id)).Nodup ∧
      resolve true ((indexed bypassedCorpus).map (·.id)) "lib/x" = some "lib/x" ∧
      (hardNeeds (indexed bypassedCorpus)).filter
        (fun p => namesInternal true (indexed bypassedCorpus) p.2) = [] ∧
      (visibilityIssues true (indexed bypassedCorpus)).map (·.annotationId) = [some "a"] := by
  decide +kernel

end Marginalia.Validate
