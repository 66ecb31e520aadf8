/-
  Marginalia/Proofs/Extract/Embedded.lean
  =======================================
  **What becomes of every embedded object.**  The search finds each place where an
  object starts (`mem_sites_iff`): two markers never overlap, so nothing is missed by
  passing over the one that was found.  Of these places the pass hears all but those on
  the line of an earlier object that is closed (`mem_heardFrom_iff`), and it reads the
  heard ones in order (`embeddedFrom_eq`).  So every annotation comes from a place of
  the text (`exists_of_mem_embeddedPass`), and since closed objects that are heard stand
  on lines of their own, its line tells from which.
-/
import Marginalia.Extract.Embedded
import Marginalia.Proofs.Except
import Marginalia.Proofs.Text.Lines

namespace Marginalia.Extract

open Marginalia.Text

/-! ### Markers -/

/-- The name of embedded objects and a sign, with blanks after each of them. -/
def IsMarker (marker : List Char) : Prop :=
  ∃ gap sign gap', marker = embeddedMark ++ gap ++ sign :: gap' ∧ (sign = '=' ∨ sign = ':') ∧
    (∀ c ∈ gap, isBlank c = true) ∧ ∀ c ∈ gap', isBlank c = true

theorem exists_marker {cs : List Char} {n : Nat} (h : markerLength? cs = some n) :
    ∃ marker rest, cs = marker ++ '{' :: rest ∧ n = marker.length ∧ IsMarker marker := by
  unfold markerLength? at h
  split at h
  · rename_i hmark
    obtain ⟨tail, rfl⟩ := List.isPrefixOf_iff_prefix.mp hmark
    rw [List.drop_left] at h
    obtain ⟨gap, hgap, hblank⟩ := exists_trimLeft tail
    split at h
    · rename_i sign rest hsign
      split at h
      · rename_i hequals
        obtain ⟨gap', hgap', hblank'⟩ := exists_trimLeft rest
        split at h
        · rename_i rest' hbrace
          obtain rfl := Option.some.inj h
          rw [hbrace] at hgap'
          rw [hsign, hgap'] at hgap
          have hsplit : embeddedMark ++ tail =
              (embeddedMark ++ gap ++ sign :: gap') ++ '{' :: rest' := by
            rw [hgap]
            simp
          refine ⟨embeddedMark ++ gap ++ sign :: gap', rest', hsplit, ?_,
            gap, sign, gap', rfl, by simpa using hequals, hblank, hblank'⟩
          rw [hsplit]
          simp only [List.length_append, List.length_cons]
          omega
        · cases h
      · cases h
    · cases h
  · cases h

theorem isBlank_of_isSign {c : Char} (h : c = '=' ∨ c = ':') : isBlank c = false := by
  rcases h with rfl | rfl <;> decide

theorem markerLength?_append {marker : List Char} (h : IsMarker marker) (rest : List Char) :
    markerLength? (marker ++ '{' :: rest) = some marker.length := by
  obtain ⟨gap, sign, gap', rfl, hsign, hgap, hgap'⟩ := h
  have hstart : startsWith embeddedMark
      (embeddedMark ++ (gap ++ sign :: (gap' ++ '{' :: rest))) = true :=
    List.isPrefixOf_iff_prefix.mpr (List.prefix_append _ _)
  have hequals : (decide (sign = '=') || decide (sign = ':')) = true := by simpa using hsign
  have htext : embeddedMark ++ gap ++ sign :: gap' ++ '{' :: rest =
      embeddedMark ++ (gap ++ sign :: (gap' ++ '{' :: rest)) := by simp
  rw [htext, markerLength?, if_pos hstart, List.drop_left,
    trimLeft_append_cons hgap (isBlank_of_isSign hsign)]
  simp only [hequals, if_true, trimLeft_append_cons hgap' (by decide : isBlank '{' = false)]
  simp only [List.length_append, List.length_cons, Option.some.injEq]
  omega

/-- A marker begins with two underscores and has none after them. -/
theorem IsMarker.exists_eq {marker : List Char} (h : IsMarker marker) :
    ∃ body, marker = '_' :: '_' :: 'm' :: body ∧ '_' ∉ body := by
  obtain ⟨gap, sign, gap', rfl, hsign, hgap, hgap'⟩ := h
  have hline : isBlank '_' = false := by decide
  refine ⟨'m' :: gap ++ sign :: gap', rfl, ?_⟩
  intro hmem
  rcases List.mem_append.mp hmem with hmem | hmem
  · rcases List.mem_cons.mp hmem with heq | hmem
    · exact absurd heq (by decide)
    · exact absurd (hgap _ hmem) (by simp [hline])
  · rcases List.mem_cons.mp hmem with rfl | hmem
    · rcases hsign with heq | heq <;> exact absurd heq (by decide)
    · exact absurd (hgap' _ hmem) (by simp [hline])

/-- Markers do not overlap: a later one starts behind the brace of the one at the start. -/
theorem IsMarker.length_lt {marker marker' rest rest' a : List Char} (h : IsMarker marker)
    (h' : IsMarker marker') (heq : marker ++ '{' :: rest = a ++ marker' ++ '{' :: rest')
    (ha : a ≠ []) : marker.length < a.length := by
  obtain ⟨body, rfl, hbody⟩ := h.exists_eq
  obtain ⟨body', rfl, -⟩ := h'.exists_eq
  -- the second underscore is followed by a letter, and no other one stands before the brace
  match a, ha with
  | [c], _ => simp at heq
  | c :: d :: a, _ =>
    have htail : ('m' :: body ++ ['{']) ++ rest =
        a ++ '_' :: ('_' :: 'm' :: body' ++ '{' :: rest') := by
      simp only [List.cons_append] at heq
      simpa using (List.cons.inj (List.cons.inj heq).2).2
    rcases List.append_eq_append_iff.mp htail with ⟨x, rfl, -⟩ | ⟨x, hx, hrest⟩
    · simp
    · cases x with
      | nil =>
        rw [List.append_nil] at hx
        simp [← hx]
      | cons y x =>
        obtain ⟨rfl, -⟩ := List.cons.inj hrest
        have hmem : '_' ∈ 'm' :: body ++ ['{'] := by simp [hx]
        simp [hbody] at hmem

/-! ### Places of a text -/

/-- An object starts at this place of the text: after the text before it comes a marker, and its
brace is the first character of the literal. -/
def Site.IsIn (site : Site) (text : List Char) : Prop :=
  ∃ marker rest, text = site.before ++ marker ++ site.literal ∧ IsMarker marker ∧
    site.literal = '{' :: rest

/-- Every place that is found has a marker before its brace. -/
theorem isIn_of_mem_sitesFrom {skip : Nat} {seen cs : List Char} {site : Site}
    (h : site ∈ sitesFrom skip seen cs) : site.IsIn (seen.reverse ++ cs) := by
  induction cs generalizing skip seen with
  | nil => simp [sitesFrom] at h
  | cons c cs ih =>
    have hlater : ∀ skip', site ∈ sitesFrom skip' (c :: seen) cs →
        site.IsIn (seen.reverse ++ c :: cs) := by
      intro skip' hsite
      have hin := ih hsite
      rwa [List.reverse_cons, List.append_assoc, List.singleton_append] at hin
    rw [sitesFrom.eq_def] at h
    cases skip with
    | succ k => exact hlater k h
    | zero =>
      simp only at h
      cases hmark : markerLength? (c :: cs) with
      | none =>
        simp only [hmark] at h
        exact hlater 0 h
      | some n =>
        simp only [hmark] at h
        rcases List.mem_cons.mp h with rfl | h
        · obtain ⟨marker, rest, hcs, rfl, hmarker⟩ := exists_marker hmark
          refine ⟨marker, rest, ?_, hmarker, ?_⟩
          · rw [List.append_assoc, hcs, List.drop_left]
          · rw [hcs, List.drop_left]
        · exact hlater n h

theorem mem_sitesFrom {skip : Nat} {seen a marker rest : List Char} (h : IsMarker marker)
    (hskip : skip ≤ a.length) :
    (⟨seen.reverse ++ a, '{' :: rest⟩ : Site) ∈
      sitesFrom skip seen (a ++ marker ++ '{' :: rest) := by
  induction a generalizing skip seen with
  | nil =>
    obtain rfl : skip = 0 := by simpa using hskip
    have hlength := markerLength?_append h rest
    obtain ⟨body, rfl, -⟩ := h.exists_eq
    rw [List.nil_append, List.cons_append, sitesFrom, ← List.cons_append, hlength]
    simp
  | cons c a ih =>
    have hlater : ∀ skip', skip' ≤ a.length →
        (⟨seen.reverse ++ c :: a, '{' :: rest⟩ : Site) ∈
          sitesFrom skip' (c :: seen) (a ++ marker ++ '{' :: rest) := by
      intro skip' hle
      have hmem := @ih skip' (c :: seen) hle
      rwa [List.reverse_cons, List.append_assoc seen.reverse, List.singleton_append] at hmem
    rw [List.cons_append, List.cons_append, sitesFrom.eq_def]
    cases skip with
    | succ k => exact hlater k (by simpa using hskip)
    | zero =>
      simp only
      cases hmark : markerLength? (c :: (a ++ marker ++ '{' :: rest)) with
      | none => exact hlater 0 (Nat.zero_le _)
      | some n =>
        obtain ⟨marker', rest', hcs, rfl, hmarker'⟩ := exists_marker hmark
        have hlt : marker'.length < (c :: a).length :=
          hmarker'.length_lt h hcs.symm (List.cons_ne_nil c a)
        exact List.mem_cons_of_mem _ (hlater _ (by simpa [Nat.lt_succ_iff] using hlt))

/-- The search finds all places where an object starts, and no others. -/
theorem mem_sites_iff {text : List Char} {site : Site} : site ∈ sites text ↔ site.IsIn text := by
  constructor
  · exact isIn_of_mem_sitesFrom
  · rintro ⟨marker, rest, rfl, hmarker, hrest⟩
    have hmem := @mem_sitesFrom 0 [] site.before marker rest hmarker (Nat.zero_le _)
    rw [← hrest] at hmem
    exact hmem

instance (site : Site) (text : List Char) : Decidable (site.IsIn text) :=
  decidable_of_iff _ mem_sites_iff

theorem length_le_of_mem_sitesFrom {skip : Nat} {seen cs : List Char} {site : Site}
    (h : site ∈ sitesFrom skip seen cs) : seen.length ≤ site.before.length := by
  induction cs generalizing skip seen with
  | nil => simp [sitesFrom] at h
  | cons c cs ih =>
    have hlater : ∀ skip', site ∈ sitesFrom skip' (c :: seen) cs →
        seen.length ≤ site.before.length := by
      intro skip' hmem
      have hle := ih hmem
      rw [List.length_cons] at hle
      omega
    rw [sitesFrom.eq_def] at h
    cases skip with
    | succ k => exact hlater k h
    | zero =>
      simp only at h
      split at h
      · rcases List.mem_cons.mp h with rfl | h
        · simp
        · exact hlater _ h
      · exact hlater 0 h

/-- The place stands further to the left in the text. -/
def Site.IsBefore (a b : Site) : Prop := a.before.length < b.before.length

instance (a b : Site) : Decidable (a.IsBefore b) := Nat.decLt _ _

theorem pairwise_sitesFrom (skip : Nat) (seen cs : List Char) :
    (sitesFrom skip seen cs).Pairwise Site.IsBefore := by
  induction cs generalizing skip seen with
  | nil => exact .nil
  | cons c cs ih =>
    rw [sitesFrom.eq_def]
    cases skip with
    | succ k => exact ih k (c :: seen)
    | zero =>
      simp only
      split
      · refine List.pairwise_cons.mpr ⟨?_, ih _ _⟩
        intro site hsite
        have hle := length_le_of_mem_sitesFrom hsite
        rw [List.length_cons] at hle
        simp only [Site.IsBefore, List.length_reverse]
        omega
      · exact ih 0 (c :: seen)

theorem pairwise_sites (text : List Char) : (sites text).Pairwise Site.IsBefore :=
  pairwise_sitesFrom 0 [] text

/-! ### Places that are heard -/

/-- The line on which an object begins, counted from one. -/
def Site.line (site : Site) : Nat := lineAfter site.before

/-- The braces of the object are terminated. -/
def Site.isClosed (site : Site) : Bool := (Literal.balanced? site.literal).isSome

/-- An earlier object with terminated braces begins on the same line. -/
def Site.IsShadowed (site : Site) (text : List Char) : Prop :=
  ∃ earlier : Site, earlier.IsIn text ∧ earlier.IsBefore site ∧ earlier.isClosed = true ∧
    earlier.line = site.line

/-- The places that count, when the lines in `taken` do not any more: an object that is closed
takes its line. -/
def heardFrom (taken : List Nat) : List Site → List Site
  | [] => []
  | site :: rest =>
    if taken.contains site.line then heardFrom taken rest
    else site :: heardFrom (if site.isClosed then site.line :: taken else taken) rest

theorem heardFrom_sublist (taken : List Nat) (places : List Site) :
    (heardFrom taken places).Sublist places := by
  induction places generalizing taken with
  | nil => exact .slnil
  | cons site rest ih =>
    rw [heardFrom]
    split
    · exact (ih taken).cons site
    · exact (ih _).cons_cons site

theorem line_not_mem_taken_iff {first site : Site} {taken : List Nat} :
    site.line ∉ (if first.isClosed then first.line :: taken else taken) ↔
      site.line ∉ taken ∧ (first.isClosed = true → first.line ≠ site.line) := by
  cases first.isClosed with
  | true => simp [and_comm, eq_comm]
  | false => simp

/-- A place is heard unless its line was taken before. -/
theorem mem_heardFrom_iff {taken : List Nat} {places : List Site}
    (hplaces : places.Pairwise Site.IsBefore) {site : Site} :
    site ∈ heardFrom taken places ↔ site ∈ places ∧ site.line ∉ taken ∧
      ∀ earlier ∈ places, earlier.IsBefore site → earlier.isClosed = true →
        earlier.line ≠ site.line := by
  induction places generalizing taken with
  | nil => simp [heardFrom]
  | cons first rest ih =>
    obtain ⟨hfirst, hrest⟩ := List.pairwise_cons.mp hplaces
    rw [heardFrom]
    split
    · rename_i htaken
      rw [List.contains_iff_mem] at htaken
      rw [ih hrest, List.mem_cons, List.forall_mem_cons]
      constructor
      · rintro ⟨hmem, hline, hearlier⟩
        refine ⟨.inr hmem, hline, ?_, hearlier⟩
        rintro - - heq
        exact hline (heq ▸ htaken)
      · rintro ⟨rfl | hmem, hline, -, hearlier⟩
        · exact absurd htaken hline
        · exact ⟨hmem, hline, hearlier⟩
    · rename_i htaken
      rw [List.contains_iff_mem] at htaken
      rw [List.mem_cons, ih hrest, line_not_mem_taken_iff, List.mem_cons, List.forall_mem_cons]
      constructor
      · rintro (rfl | ⟨hmem, ⟨hline, hhead⟩, hearlier⟩)
        · -- the first place has no earlier one
          refine ⟨.inl rfl, htaken, fun hlt => absurd hlt (Nat.lt_irrefl _), ?_⟩
          intro earlier hmem hlt
          exact absurd (hfirst earlier hmem) (Nat.lt_asymm hlt)
        · exact ⟨.inr hmem, hline, fun _ => hhead, hearlier⟩
      · rintro ⟨rfl | hmem, hline, hhead, hearlier⟩
        · exact .inl rfl
        · exact .inr ⟨hmem, ⟨hline, hhead (hfirst site hmem)⟩, hearlier⟩

theorem mem_heard_iff {text : List Char} {site : Site} :
    site ∈ heardFrom [] (sites text) ↔ site.IsIn text ∧ ¬site.IsShadowed text := by
  rw [mem_heardFrom_iff (pairwise_sites text), mem_sites_iff]
  constructor
  · rintro ⟨hsite, -, hearlier⟩
    refine ⟨hsite, ?_⟩
    rintro ⟨earlier, hin, hlt, hclosed, hline⟩
    exact hearlier earlier (mem_sites_iff.mpr hin) hlt hclosed hline
  · rintro ⟨hsite, hshadow⟩
    refine ⟨hsite, List.not_mem_nil, ?_⟩
    intro earlier hin hlt hclosed hline
    exact hshadow ⟨earlier, mem_sites_iff.mp hin, hlt, hclosed, hline⟩

instance (site : Site) (text : List Char) : Decidable (site.IsShadowed text) :=
  decidable_of_iff (∃ earlier ∈ sites text, earlier.IsBefore site ∧ earlier.isClosed = true ∧
    earlier.line = site.line) (by simp only [mem_sites_iff, Site.IsShadowed])

/-! ### What is read at a place -/

/-- The annotation with a record that was read from the literal at a place. -/
def Site.note (offset : Int) (site : Site) (literal : List Char) (r : Record) : Note :=
  ⟨r, .embedded, site.line + offset, String.ofList literal,
    (lastEntity? site.before).map String.ofList⟩

/-- What is read at a place: nothing if the object is not closed or its record is empty. -/
def Site.note? (offset : Int) (site : Site) : Except IntFault (Option Note) :=
  match Literal.balanced? site.literal with
  | none => .ok none
  | some literal => (Record.ofObject literal).map fun r =>
      if r.isEmpty then none else some (site.note offset literal r)

/-- The warning about an object that is not closed. -/
def Site.warning (offset : Int) (site : Site) : String :=
  "Unterminated __mm object at line " ++ showInt (site.line + offset)

/-- The pass reads the places that are heard, in order, and warns of those that are not closed. -/
theorem embeddedFrom_eq (offset : Int) (taken : List Nat) (places : List Site) :
    embeddedFrom offset taken places =
      ((heardFrom taken places).mapM (Site.note? offset)).map fun notes =>
        (notes.filterMap id,
          ((heardFrom taken places).filter (!·.isClosed)).map (Site.warning offset)) := by
  induction places generalizing taken with
  | nil => rfl
  | cons site rest ih =>
    rw [embeddedFrom, heardFrom]
    simp only [← Site.line.eq_def]
    split
    · exact ih taken
    · rw [List.mapM_cons]
      cases hliteral : Literal.balanced? site.literal with
      | none =>
        have hclosed : site.isClosed = false := by simp [Site.isClosed, hliteral]
        have hnote : site.note? offset = .ok none := by simp [Site.note?, hliteral]
        simp only [hclosed, hnote, ih, Bool.false_eq_true, if_false]
        rw [List.filter_cons_of_pos (by simp [hclosed]), List.map_cons]
        cases (heardFrom taken rest).mapM (Site.note? offset) <;> rfl
      | some literal =>
        have hclosed : site.isClosed = true := by simp [Site.isClosed, hliteral]
        simp only [hclosed, if_true, ih]
        rw [List.filter_cons_of_neg (by simp [hclosed]), Site.note?, hliteral]
        cases hr : Record.ofObject literal with
        | error fault => simp [bind, Except.bind, Except.map, hr]
        | ok r =>
          cases (heardFrom (site.line :: taken) rest).mapM (Site.note? offset) with
          | error fault => simp [bind, Except.bind, Except.map, hr]
          | ok notes =>
            cases hempty : r.isEmpty <;>
              simp [bind, Except.bind, Except.map, pure, Except.pure, hempty, hr, Site.note]

theorem note?_eq_some {offset : Int} {site : Site} {a : Note}
    (h : site.note? offset = .ok (some a)) : ∃ literal r,
      Literal.balanced? site.literal = some literal ∧ a = site.note offset literal r := by
  unfold Site.note? at h
  split at h
  · cases h
  · rename_i literal hliteral
    obtain ⟨r, -, hnote⟩ := map_eq_ok.mp h
    split at hnote
    · cases hnote
    · exact ⟨literal, r, hliteral, (Option.some.inj hnote).symm⟩

theorem line_of_note? {offset : Int} {site : Site} {a : Note}
    (h : site.note? offset = .ok (some a)) :
    site.isClosed = true ∧ a.line = site.line + offset := by
  obtain ⟨literal, r, hliteral, rfl⟩ := note?_eq_some h
  exact ⟨by simp [Site.isClosed, hliteral], rfl⟩

theorem note?_of_balanced {offset : Int} {site : Site} {literal : List Char} {note : Option Note}
    (hliteral : Literal.balanced? site.literal = some literal)
    (h : site.note? offset = .ok note) : ∃ r, Record.ofObject literal = .ok r ∧
      note.toList = if r.isEmpty then [] else [site.note offset literal r] := by
  rw [Site.note?, hliteral] at h
  obtain ⟨r, hr, rfl⟩ := map_eq_ok.mp h
  refine ⟨r, hr, ?_⟩
  split <;> rfl

/-- What was read at the places of a list. -/
def AreReadAt (offset : Int) (places : List Site) (notes : List (Option Note)) : Prop :=
  List.Forall₂ (fun site note => site.note? offset = .ok note) places notes

theorem embeddedPass_eq_ok {text : List Char} {offset : Int} {found : List Note}
    {warnings : List String} (h : embeddedPass text offset = .ok (found, warnings)) :
    ∃ notes, AreReadAt offset (heardFrom [] (sites text)) notes ∧ found = notes.filterMap id ∧
      warnings = ((heardFrom [] (sites text)).filter (!·.isClosed)).map (Site.warning offset) := by
  rw [embeddedPass, embeddedFrom_eq] at h
  obtain ⟨notes, hnotes, heq⟩ := map_eq_ok.mp h
  obtain ⟨rfl, rfl⟩ := Prod.mk.inj heq
  exact ⟨notes, forall₂_of_mapM_eq_ok hnotes, rfl, rfl⟩

/-- Every annotation was read at a place of the text. -/
theorem exists_of_mem_embeddedPass {text : List Char} {offset : Int} {found : List Note}
    {warnings : List String} (h : embeddedPass text offset = .ok (found, warnings)) {a : Note}
    (ha : a ∈ found) : ∃ (site : Site) (literal : List Char) (r : Record), site.IsIn text ∧
      Literal.balanced? site.literal = some literal ∧ a = site.note offset literal r := by
  obtain ⟨notes, hread, rfl, -⟩ := embeddedPass_eq_ok h
  obtain ⟨note, hnote, hsome⟩ := List.mem_filterMap.mp ha
  obtain ⟨site, hsite, hnote⟩ := exists_mem_of_forall₂ hread hnote
  obtain rfl : note = some a := hsome
  obtain ⟨literal, r, hliteral, ha⟩ := note?_eq_some hnote
  exact ⟨site, literal, r, (mem_heard_iff.mp hsite).1, hliteral, ha⟩

/-! ### Annotations of a line -/

theorem filter_line_eq_nil {offset : Int} {places : List Site} {notes : List (Option Note)}
    (h : AreReadAt offset places notes) (number : Nat)
    (hline : ∀ site ∈ places, site.isClosed = true → site.line ≠ number) :
    (notes.filterMap id).filter (fun a => a.line == number + offset) = [] := by
  rw [List.filter_eq_nil_iff]
  intro a ha heq
  obtain ⟨note, hnote, hsome⟩ := List.mem_filterMap.mp ha
  obtain ⟨site, hsite, hread⟩ := exists_mem_of_forall₂ h hnote
  obtain rfl : note = some a := hsome
  obtain ⟨hclosed, hnumber⟩ := line_of_note? hread
  apply hline site hsite hclosed
  rw [hnumber, beq_iff_eq] at heq
  omega

/-- When closed objects stand on lines of their own, the annotations of a line are what was read at
its object. -/
theorem filter_line_of_mem {offset : Int} {places : List Site} {notes : List (Option Note)}
    (h : AreReadAt offset places notes)
    (hlines : places.Pairwise fun a b => a.isClosed = true → b.isClosed = true → a.line ≠ b.line)
    {site : Site} (hsite : site ∈ places) (hclosed : site.isClosed = true) :
    ∃ note, site.note? offset = .ok note ∧
      (notes.filterMap id).filter (fun a => a.line == site.line + offset) = note.toList := by
  induction h with
  | nil => simp at hsite
  | @cons first note rest notes hfirst hrest ih =>
    obtain ⟨hapart, hlines⟩ := List.pairwise_cons.mp hlines
    rcases List.mem_cons.mp hsite with rfl | hsite
    · refine ⟨note, hfirst, ?_⟩
      have hnil := filter_line_eq_nil hrest site.line fun b hb hb' =>
        (hapart b hb hclosed hb').symm
      cases note with
      | none =>
        rw [List.filterMap_cons_none (id_eq none)]
        exact hnil
      | some a =>
        have hline : (a.line == site.line + offset) = true :=
          beq_iff_eq.mpr (line_of_note? hfirst).2
        rw [List.filterMap_cons_some (id_eq (some a)), List.filter_cons, if_pos hline, hnil]
        rfl
    · obtain ⟨note', hread, hfilter⟩ := ih hlines hsite
      refine ⟨note', hread, ?_⟩
      cases note with
      | none => rwa [List.filterMap_cons_none (id_eq none)]
      | some a =>
        obtain ⟨hfirst', hline⟩ := line_of_note? hfirst
        have hne : first.line ≠ site.line := hapart site hsite hfirst' hclosed
        rwa [List.filterMap_cons_some (id_eq (some a)), List.filter_cons_of_neg]
        rw [beq_iff_eq]
        omega

theorem pairwise_heard_line (text : List Char) : (heardFrom [] (sites text)).Pairwise
    fun a b => a.isClosed = true → b.isClosed = true → a.line ≠ b.line := by
  apply ((pairwise_sites text).sublist (heardFrom_sublist [] (sites text))).imp_of_mem
  intro a b ha hb hlt hclosed _ hline
  exact (mem_heard_iff.mp hb).2 ⟨a, (mem_heard_iff.mp ha).1, hlt, hclosed, hline⟩

/-- Every object that no earlier closed one shadows is accounted for: a closed one by the only
annotation of its line, unless its record is empty, and one that is not closed by a warning. -/
theorem embeddedPass_accounts {text : List Char} {offset : Int} {found : List Note}
    {warnings : List String} (h : embeddedPass text offset = .ok (found, warnings)) :
    (∀ (site : Site) (literal : List Char), site.IsIn text → ¬site.IsShadowed text →
      Literal.balanced? site.literal = some literal →
      ∃ r, Record.ofObject literal = .ok r ∧
        found.filter (fun a => a.line == site.line + offset) =
          if r.isEmpty then [] else [site.note offset literal r]) ∧
    ∃ unclosed : List Site, unclosed.Pairwise Site.IsBefore ∧
      (∀ site : Site, site ∈ unclosed ↔ site.IsIn text ∧ ¬site.IsShadowed text ∧
        Literal.balanced? site.literal = none) ∧
      warnings = unclosed.map (Site.warning offset) := by
  obtain ⟨notes, hread, rfl, rfl⟩ := embeddedPass_eq_ok h
  constructor
  · intro site literal hsite hshadow hliteral
    have hclosed : site.isClosed = true := by simp [Site.isClosed, hliteral]
    obtain ⟨note, hnote, hfilter⟩ := filter_line_of_mem hread (pairwise_heard_line text)
      (mem_heard_iff.mpr ⟨hsite, hshadow⟩) hclosed
    rw [hfilter]
    exact note?_of_balanced hliteral hnote
  · refine ⟨(heardFrom [] (sites text)).filter (!·.isClosed), ?_, ?_, rfl⟩
    · exact ((pairwise_sites text).sublist (heardFrom_sublist [] (sites text))).filter _
    · intro site
      rw [List.mem_filter, mem_heard_iff, and_assoc]
      simp [Site.isClosed]

theorem embeddedPass_accounts_for_line :
    let text := "__mm = \x7bid: 'a'\nx __mm: \x7bname: 'N'\x7d, __mm = \x7b\x7d".toList
    let opened : Site := ⟨[], text.drop 7⟩
    let named : Site := ⟨text.take 18, text.drop 24⟩
    let literal := "\x7bname: 'N'\x7d".toList
    let found := [named.note 4 literal { Record.empty with name := some "N" }]
    let warnings := ["Unterminated __mm object at line 5"]
    embeddedPass text 4 = .ok (found, warnings) ∧
      (named.IsIn text ∧ ¬named.IsShadowed text ∧ Literal.balanced? named.literal = some literal) ∧
      (∃ r, Record.ofObject literal = .ok r ∧
        found.filter (fun a => a.line == (named.line : Int) + 4) =
          if r.isEmpty then [] else [named.note 4 literal r]) ∧
      ∃ unclosed : List Site, opened ∈ unclosed ∧ warnings = unclosed.map (Site.warning 4) := by
  intro text opened named literal found warnings
  have hrun : embeddedPass text 4 = .ok (found, warnings) := by decide +kernel
  have hnamed : named.IsIn text ∧ ¬named.IsShadowed text ∧
      Literal.balanced? named.literal = some literal := by decide +kernel
  have hopened : opened.IsIn text ∧ ¬opened.IsShadowed text ∧
      Literal.balanced? opened.literal = none := by decide +kernel
  obtain ⟨hclosed, unclosed, -, hunclosed, hwarnings⟩ := embeddedPass_accounts hrun
  exact ⟨hrun, hnamed, hclosed named literal hnamed.1 hnamed.2.1 hnamed.2.2,
    unclosed, (hunclosed opened).mpr hopened, hwarnings⟩

/-- Behind a closed object two others on its line are passed over without a warning, though one of
them is closed and has an id, and the other is not closed. -/
theorem embeddedPass_passes_over :
    let text := "__mm = \x7bid: 'a'\x7d, __mm = \x7bid: 'b'\x7d, __mm = \x7b".toList
    let first : Site := ⟨[], text.drop 7⟩
    let second : Site := ⟨text.take 18, text.drop 25⟩
    let third : Site := ⟨text.take 36, text.drop 43⟩
    let literal := "\x7bid: 'a'\x7d".toList
    let literal' := "\x7bid: 'b'\x7d".toList
    sites text = [first, second, third] ∧ Literal.balanced? first.literal = some literal ∧
      second.before = first.before ++ "__mm = ".toList ++ literal ++ ", ".toList ∧
      Literal.balanced? second.literal = some literal' ∧
      Record.ofObject literal' = .ok { Record.empty with id := some "b" } ∧
      third.before = second.before ++ "__mm = ".toList ++ literal' ++ ", ".toList ∧
      Literal.balanced? third.literal = none ∧
      embeddedPass text 0 =
        .ok ([first.note 0 literal { Record.empty with id := some "a" }], []) := by
  decide +kernel

end Marginalia.Extract
