/-
  Marginalia/Proofs/Record/Plain.lean
  ===================================
  **Parts of a record and their texts.**  A text comes back from a line of a comment
  as it stands if it is plain (`IsPlainText`): nothing at its ends is taken for a
  blank, a quote or the end of the comment, and it stays on one line.  A list comes
  back if its items have in addition no character that divides or encloses items
  (`IsItemText`), and dependencies come back from the list of their targets
  (`depsOfText_items`) if a target of a plain list does not look as if it began with
  the name of a kind.
-/
import Marginalia.Proofs.Database.Compile
import Marginalia.Proofs.Database.Document
import Marginalia.Proofs.Extract.Comment
import Marginalia.Proofs.Literal.Pieces
import Marginalia.Proofs.Text.Search

namespace Marginalia

open Marginalia.Text Marginalia.Literal Marginalia.Extract

/-! ### Plain texts and items -/

/-- A text that stands on a line of a comment and has no quote at either end. -/
structure IsPlainText (s : String) : Prop extends IsLineText s.toList where
  opening : ∀ c ∈ s.toList.head?, isQuote c = false
  closing : ∀ c ∈ s.toList.getLast?, isQuote c = false

/-- A plain text that is not empty and has no comma, quote or bracket. -/
structure IsItemText (s : String) : Prop extends IsPlainText s where
  nonempty : s ≠ ""
  loose : ∀ c ∈ s.toList, isLoose c = true

theorem all_not_isQuote {o : Option Char} :
    (o.all fun c => !isQuote c) = true ↔ ∀ c ∈ o, isQuote c = false := by
  cases o <;> simp

instance (s : String) : Decidable (IsPlainText s) :=
  decidable_of_iff (IsLineText s.toList ∧ (s.toList.head?.all fun c => !isQuote c) = true ∧
      (s.toList.getLast?.all fun c => !isQuote c) = true)
    ⟨fun h => ⟨h.1, all_not_isQuote.mp h.2.1, all_not_isQuote.mp h.2.2⟩,
      fun h => ⟨h.toIsLineText, all_not_isQuote.mpr h.opening, all_not_isQuote.mpr h.closing⟩⟩

instance (s : String) : Decidable (IsItemText s) :=
  decidable_of_iff (IsPlainText s ∧ s ≠ "" ∧ s.toList.all isLoose = true)
    ⟨fun h => ⟨h.1, h.2.1, List.all_eq_true.mp h.2.2⟩,
      fun h => ⟨h.toIsPlainText, h.nonempty, List.all_eq_true.mpr h.loose⟩⟩

theorem isPlainText_of_no_quote {s : String} (hline : IsLineText s.toList)
    (h : ∀ c ∈ s.toList, isQuote c = false) : IsPlainText s where
  toIsLineText := hline
  opening c hc := h c (List.mem_of_mem_head? hc)
  closing c hc := h c (List.mem_of_mem_getLast? hc)

theorem isItemText_of_loose {s : String} (hline : IsLineText s.toList) (hne : s ≠ "")
    (hloose : ∀ c ∈ s.toList, isLoose c = true) : IsItemText s where
  toIsPlainText := isPlainText_of_no_quote hline fun c hc => isQuote_of_isLoose (hloose c hc)
  nonempty := hne
  loose := hloose

theorem IsPlainText.unquoted_eq {s : String} (h : IsPlainText s) : unquoted s.toList = s.toList :=
  unquoted_eq_self h.trimmed h.opening h.closing

theorem scalarOf_of_isPlainText {s : String} (h : IsPlainText s) : scalarOf s.toList = s := by
  rw [scalarOf, h.unquoted_eq, String.ofList_toList]

/-- Items in one line. -/
def joinedItems (items : List String) : String := String.intercalate "," items

theorem toList_joinedItems (items : List String) :
    (joinedItems items).toList = [','].intercalate (items.map String.toList) := by
  rw [joinedItems, String.toList_intercalate]
  rfl

theorem isLineText_joinedItems {items : List String} (h : ∀ t ∈ items, IsItemText t) :
    IsLineText (joinedItems items).toList := by
  rw [toList_joinedItems]
  induction items with
  | nil => decide
  | cons t items ih =>
    have ht := (h t List.mem_cons_self).toIsLineText
    cases items with
    | nil => simpa using ht
    | cons u items =>
      have hrest := ih fun v hv => h v (List.mem_cons_of_mem _ hv)
      rw [List.map_cons, List.map_cons, List.intercalate_cons_cons, List.append_assoc,
        List.singleton_append]
      exact ht.append_cons hrest (by decide) (by decide) (by decide) (by decide)

theorem listItems_joinedItems {items : List String} (h : ∀ t ∈ items, IsItemText t) :
    listItems (joinedItems items).toList = items.map String.toList := by
  have hwhole := (isLineText_joinedItems h).trimmed
  rw [toList_joinedItems] at hwhole ⊢
  have hitem : ∀ cs ∈ items.map String.toList, ∃ t, IsItemText t ∧ cs = t.toList := by
    intro cs hcs
    obtain ⟨t, ht, rfl⟩ := List.mem_map.mp hcs
    exact ⟨t, h t ht, rfl⟩
  apply listItems_intercalate _ _ _ hwhole
  · intro cs hcs
    obtain ⟨t, ht, rfl⟩ := hitem cs hcs
    exact ht.loose
  · intro cs hcs
    obtain ⟨t, ht, rfl⟩ := hitem cs hcs
    exact ht.trimmed
  · intro cs hcs
    obtain ⟨t, ht, rfl⟩ := hitem cs hcs
    simpa using ht.nonempty

theorem listOf_joinedItems {items : List String} (h : ∀ t ∈ items, IsItemText t) :
    listOf (joinedItems items).toList = items := by
  rw [listOf, listItems_joinedItems h, List.map_map]
  exact (List.map_congr_left fun t _ => String.ofList_toList).trans (List.map_id _)

theorem joined_strings (l : List String) :
    Json.joined "," (Json.strings l) = .ok (joinedItems l) := by
  rw [Json.joined, Json.strings, Json.elements, ok_bind, mapM_map_of_forall]
  · rfl
  · intro s _
    rfl

/-! ### Numbers -/

theorem isPlainText_showInt (n : Int) : IsPlainText (showInt n) := by
  have htext : (showInt n).toList = decimalInt n := String.toList_ofList
  have hquote : ∀ c ∈ decimalInt n, isQuote c = false :=
    forall_mem_decimalInt (by decide) (by decide) n
  have hline : IsLineText (decimalInt n) :=
    isLineText_of_forall (forall_mem_decimalInt (by decide) (by decide) n)
  rw [← htext] at hquote hline
  exact isPlainText_of_no_quote hline hquote

theorem readSign_decimalInt (n : Int) :
    ∃ negative, readSign (decimalInt n) = (negative, decimal n.natAbs) ∧
      signed negative n.natAbs = n := by
  cases n with
  | ofNat n => exact ⟨false, readSign_decimal n, rfl⟩
  | negSucc n => exact ⟨true, rfl, rfl⟩

theorem leadingInt?_showInt {n : Int} (h : IsShort n) :
    leadingInt? (unquoted (showInt n).toList) = .ok (some n) := by
  have hplain := isPlainText_showInt n
  have hleft := (trim_eq_self_iff.mp hplain.trimmed).1
  have htext : (showInt n).toList = decimalInt n := String.toList_ofList
  obtain ⟨negative, hsign, hvalue⟩ := readSign_decimalInt n
  have hdecimal : ∀ c ∈ decimal n.natAbs, IsDecimal c := fun c => isDecimal_of_mem_decimal
  have hall : (decimal n.natAbs).takeWhile isDigit = decimal n.natAbs := by
    rw [List.takeWhile_eq_self_iff]
    intro c hc
    rw [isDigit, digitValue?_of_isDecimal (hdecimal c hc)]
    rfl
  have hdigits : (decimal n.natAbs).filterMap digitValue? =
      (decimal n.natAbs).map fun c => c.toNat - 0x30 := by
    rw [← List.filterMap_eq_map]
    exact List.filterMap_congr fun c hc => digitValue?_of_isDecimal (hdecimal c hc)
  have hcount : ¬ maxDigits < (decimal n.natAbs).length := Nat.not_lt.mpr h
  rw [hplain.unquoted_eq, leadingInt?, hleft, htext, hsign]
  simp only [hall, hdigits, List.isEmpty_map, List.isEmpty_eq_false_iff.mpr (decimal_ne_nil _),
    List.length_map, hcount, ofDigits_decimal, hvalue, if_false, Bool.false_eq_true]

/-! ### Dependencies -/

/-- What stands before the first colon of a target is not the name of a kind. -/
def IsKindless (t : String) : Prop :=
  ':' ∈ t.toList → depKind? (trim (t.toList.takeWhile (· != ':'))) = none

instance (t : String) : Decidable (IsKindless t) :=
  inferInstanceAs (Decidable (_ → _))

/-- There are targets, all of them are items, and those of a plain list do not look as if they
began with a kind. -/
def Dependencies.IsPlain : Dependencies → Prop
  | .flat targets => targets ≠ [] ∧ ∀ t ∈ targets, IsItemText t ∧ IsKindless t
  | .classified b => (∃ c, b.get c ≠ []) ∧ ∀ c, ∀ t ∈ b.get c, IsItemText t

/-- A target with its kind in front. -/
def kindText (c : DepKind) (t : String) : String := c.name ++ ":" ++ t

/-- Targets as they are written. -/
def Dependencies.items : Dependencies → List String
  | .flat targets => targets
  | .classified b => DepKind.all.flatMap fun c => (b.get c).map (kindText c)

theorem toList_kindText (c : DepKind) (t : String) :
    (kindText c t).toList = c.name.toList ++ ':' :: t.toList := by
  simp [kindText]

theorem isItemText_kindText (c : DepKind) {t : String} (h : IsItemText t) :
    IsItemText (kindText c t) := by
  have hname : IsLineText c.name.toList ∧ c.name.toList.all isLoose = true := by
    cases c <;> decide
  apply isItemText_of_loose
  · rw [toList_kindText]
    exact hname.1.append_cons h.toIsLineText (by decide) (by decide) (by decide) (by decide)
  · intro hempty
    have := congrArg String.toList hempty
    simp [toList_kindText] at this
  · intro d hd
    rw [toList_kindText] at hd
    rcases List.mem_append.mp hd with hd | hd
    · exact List.all_eq_true.mp hname.2 d hd
    · rcases List.mem_cons.mp hd with rfl | hd
      · decide
      · exact h.loose d hd

theorem Dependencies.IsPlain.isItemText {d : Dependencies} (h : d.IsPlain) :
    ∀ t ∈ d.items, IsItemText t := by
  cases d with
  | flat targets => exact fun t ht => (h.2 t ht).1
  | classified b =>
    intro t ht
    obtain ⟨c, _, ht⟩ := List.mem_flatMap.mp ht
    obtain ⟨u, hu, rfl⟩ := List.mem_map.mp ht
    exact isItemText_kindText c (h.2 c u hu)

theorem Dependencies.IsPlain.items_ne_nil {d : Dependencies} (h : d.IsPlain) : d.items ≠ [] := by
  cases d with
  | flat targets => exact h.1
  | classified b =>
    obtain ⟨c, hc⟩ := h.1
    intro hnil
    have hall := List.flatMap_eq_nil_iff.mp hnil c (by cases c <;> decide)
    exact hc (List.map_eq_nil_iff.mp hall)

theorem depItem_of_isKindless {t : String} (h : IsKindless t) : depItem t.toList = (none, t) := by
  unfold depItem
  rw [cut?, find?_singleton]
  by_cases hcolon : ':' ∈ t.toList
  · have htake : t.toList.take (t.toList.takeWhile (· != ':')).length =
        t.toList.takeWhile (· != ':') :=
      (List.prefix_iff_eq_take.mp (List.takeWhile_prefix _)).symm
    simp [hcolon, htake, h hcolon]
  · simp [hcolon]

theorem depItem_kindText (c : DepKind) {t : String} (h : IsItemText t) :
    depItem (kindText c t).toList = (some c, t) := by
  have hcut : cut? [':'] (kindText c t).toList = some (c.name.toList, t.toList) := by
    rw [toList_kindText]
    cases c <;> rfl
  have hkind : (if c.name.toList.isEmpty then none else depKind? (trim c.name.toList)) =
      some c := by
    cases c <;> decide
  simp only [depItem, hcut, hkind, h.trimmed, String.ofList_toList]

theorem Buckets.ext_get {b b' : Buckets} (h : ∀ c, b.get c = b'.get c) : b = b' := by
  obtain ⟨runtime, build, optional⟩ := b
  obtain ⟨runtime', build', optional'⟩ := b'
  obtain rfl : runtime = runtime' := h .runtime
  obtain rfl : build = build' := h .build
  obtain rfl : optional = optional' := h .optional
  rfl

theorem Buckets.get_extend (b : Buckets) (c c' : DepKind) (targets : List String) :
    (b.extend c targets).get c' = b.get c' ++ if c = c' then targets else [] := by
  cases c <;> cases c' <;> simp [Buckets.extend, Buckets.get]

theorem get_foldl_extend (entries : List (Option DepKind × String)) (b : Buckets) (c : DepKind) :
    (entries.foldl (fun b (k, t) => b.extend (k.getD .runtime) [t]) b).get c =
      b.get c ++ (entries.filter fun p => p.1.getD .runtime = c).map (·.2) := by
  induction entries generalizing b with
  | nil => simp
  | cons p entries ih =>
    rw [List.foldl_cons, ih, Buckets.get_extend]
    by_cases h : p.1.getD .runtime = c <;> simp [h]

theorem depsOfItems_flat {targets : List String} (h : ∀ t ∈ targets, IsKindless t) :
    depsOfItems (targets.map String.toList) = .flat targets := by
  have hentries : (targets.map String.toList).map depItem = targets.map fun t => (none, t) := by
    rw [List.map_map]
    exact List.map_congr_left fun t ht => depItem_of_isKindless (h t ht)
  have hruntime := get_foldl_extend (targets.map fun t => (none, t)) {} .runtime
  simp only [Buckets.get, List.nil_append] at hruntime
  have hall : (targets.map fun t => (none, t)).filter
      (fun p : Option DepKind × String => p.1.getD .runtime = .runtime) =
        targets.map fun t => (none, t) := by
    simp [List.filter_map, Function.comp_def]
  rw [depsOfItems, hentries]
  simp only [hruntime, hall]
  simp [Function.comp_def]

theorem depsOfItems_classified {b : Buckets} (hne : ∃ c, b.get c ≠ [])
    (h : ∀ c, ∀ t ∈ b.get c, IsItemText t) :
    depsOfItems ((Dependencies.classified b).items.map String.toList) = .classified b := by
  have hentries : ((Dependencies.classified b).items.map String.toList).map depItem =
      DepKind.all.flatMap fun c => (b.get c).map fun t => (some c, t) := by
    rw [Dependencies.items, List.map_flatMap, List.map_flatMap]
    congr 1
    funext c
    rw [List.map_map, List.map_map]
    exact List.map_congr_left fun t ht => depItem_kindText c (h c t ht)
  have hbuckets : (DepKind.all.flatMap fun c => (b.get c).map fun t => (some c, t)).foldl
      (fun b (c, t) => b.extend (c.getD .runtime) [t]) {} = b := by
    apply Buckets.ext_get
    intro c
    rw [get_foldl_extend]
    cases c <;> simp [DepKind.all, Buckets.get, List.filter_map, Function.comp_def]
  have hsome : (DepKind.all.flatMap fun c => (b.get c).map fun t => (some c, t)).any
      (·.1.isSome) = true := by
    obtain ⟨c, hc⟩ := hne
    obtain ⟨t, ht⟩ := List.exists_mem_of_ne_nil _ hc
    rw [List.any_eq_true]
    refine ⟨(some c, t), List.mem_flatMap.mpr ⟨c, by cases c <;> decide, ?_⟩, rfl⟩
    exact List.mem_map_of_mem ht
  rw [depsOfItems, hentries]
  simp only [hbuckets, hsome, if_true]

theorem depsOfText_items {d : Dependencies} (h : d.IsPlain) :
    depsOfText (joinedItems d.items).toList = d := by
  have htrim := (isLineText_joinedItems h.isItemText).trimmed
  have hbrace : startsWith ['{'] (joinedItems d.items).toList = false := by
    rw [Bool.eq_false_iff]
    intro hopen
    have hmem : '{' ∈ (joinedItems d.items).toList :=
      (List.isPrefixOf_iff_prefix.mp hopen).subset (by simp)
    rw [toList_joinedItems] at hmem
    rcases mem_intercalate hmem with hmem | ⟨cs, hcs, hmem⟩
    · exact absurd hmem (by decide)
    · obtain ⟨t, ht, rfl⟩ := List.mem_map.mp hcs
      exact absurd ((h.isItemText t ht).loose _ hmem) (by decide)
  simp only [depsOfText, htrim, hbrace, listItems_joinedItems h.isItemText]
  cases d with
  | flat targets => exact depsOfItems_flat fun t ht => (h.2 t ht).2
  | classified b => exact depsOfItems_classified h.1 h.2

theorem depsText_toJson (d : Dependencies) :
    Writer.depsText d.toJson = .ok (joinedItems d.items) := by
  cases d with
  | flat targets =>
    simp [Dependencies.toJson, Json.strings, Writer.depsText, Json.elements, Dependencies.items,
      joinedItems, Function.comp_def, Json.asText, ok_bind]
  | classified b =>
    have hget : ∀ c : DepKind, (Table.get? c.name (Table.mapValues Json.strings
        (Dependencies.classified b).asTable)).getD (.arr []) = Json.strings (b.get c) := by
      intro c
      have htable := (Dependencies.classified b).getD_get?_asTable c
      rw [Table.get?_mapValues]
      cases hc : Table.get? c.name (Dependencies.classified b).asTable with
      | none =>
        rw [hc] at htable
        have hnil : b.get c = [] := htable.symm
        rw [hnil]
        rfl
      | some targets =>
        rw [hc] at htable
        have htargets : b.get c = targets := htable.symm
        rw [htargets]
        rfl
    simp only [Dependencies.toJson, Writer.depsText, hget, Json.strings, Json.elements, ok_bind]
    have hpure := List.mapM_pure (m := Except ShapeFault) (l := DepKind.all)
      (f := fun c => ((b.get c).map Json.str).map fun t => c.name ++ ":" ++ t.asText)
    simp only [pure, Except.pure] at hpure
    rw [hpure, ok_bind, joinedItems, Dependencies.items, List.flatMap]
    simp [Function.comp_def, Json.asText]
    rfl

end Marginalia
