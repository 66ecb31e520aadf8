/-
  Marginalia/Proofs/Extract/Provenance.lean
  =========================================
  **Annotations stand where they say.**  The text of an annotation is a part of the
  file, and its line is that of the place where this part begins: the comment itself,
  or the name of the embedded object (`Note.StandsIn`).  Each search keeps a split of
  the text that it has passed and the text that is left, so what it finds can be
  carried from a script region to the whole file (`Note.StandsIn.shift`): a line
  comment is cut out of the lines of a region, and braces are matched without regard
  to what follows the literal (`balanced?_append`).  Folding an object into a comment
  keeps the line and text of the object.
-/
import Marginalia.Extract.File
import Marginalia.Proofs.Extract.Embedded

namespace Marginalia

open Marginalia.Text Marginalia.Extract

/-- The annotation is found in a text whose first line follows `offset` others: a comment by its
own text, an object by the marker before it and the braces that enclose it. -/
def Note.StandsIn (a : Note) (text : List Char) (offset : Nat) : Prop :=
  match a.origin with
  | .comment => ∃ before after, text = before ++ a.raw.toList ++ after ∧
      a.line = lineAfter before + offset
  | .embedded => ∃ before marker rest, text = before ++ marker ++ rest ∧ IsMarker marker ∧
      Literal.balanced? rest = some a.raw.toList ∧ a.line = lineAfter before + offset

/-! ### Braces -/

namespace Literal

theorem closingOffset?_append {depth : Nat} {quote : Option Char} {cs : List Char} {n : Nat}
    (h : closingOffset? depth quote cs = some n) (after : List Char) :
    closingOffset? depth quote (cs ++ after) = some n ∧ n < cs.length := by
  fun_induction closingOffset? depth quote cs generalizing n with
  | case1 => cases h
  | case2 => cases h
  | case3 depth q d rest ih =>
    obtain ⟨m, hm, rfl⟩ := Option.map_eq_some_iff.mp h
    obtain ⟨happend, hlt⟩ := ih hm
    simp [closingOffset?, happend]
    omega
  | case4 depth c cs q hc ih =>
    obtain ⟨m, hm, rfl⟩ := Option.map_eq_some_iff.mp h
    obtain ⟨happend, hlt⟩ := ih hm
    unfold closingOffset?
    simp [hc, happend, hlt]
  | case5 depth c cs hquote ih =>
    obtain ⟨m, hm, rfl⟩ := Option.map_eq_some_iff.mp h
    obtain ⟨happend, hlt⟩ := ih hm
    simp [closingOffset?, hquote, happend, hlt]
  | case6 depth cs hquote ih =>
    obtain ⟨m, hm, rfl⟩ := Option.map_eq_some_iff.mp h
    obtain ⟨happend, hlt⟩ := ih hm
    simp [closingOffset?, hquote, happend, hlt]
  | case7 depth cs hdepth hquote hopen =>
    obtain rfl := Option.some.inj h
    simp [closingOffset?, hdepth, hquote]
  | case8 depth cs hdepth hquote hopen ih =>
    obtain ⟨m, hm, rfl⟩ := Option.map_eq_some_iff.mp h
    obtain ⟨happend, hlt⟩ := ih hm
    simp [closingOffset?, hdepth, hquote, happend, hlt]
  | case9 depth c cs hquote hopen hclose ih =>
    obtain ⟨m, hm, rfl⟩ := Option.map_eq_some_iff.mp h
    obtain ⟨happend, hlt⟩ := ih hm
    simp [closingOffset?, hquote, hopen, hclose, happend, hlt]

theorem balanced?_append {cs literal : List Char} (h : balanced? cs = some literal)
    (after : List Char) : balanced? (cs ++ after) = some literal := by
  unfold balanced? at h ⊢
  obtain ⟨n, hn, rfl⟩ := Option.map_eq_some_iff.mp h
  unfold matchingBrace? at hn
  split at hn
  · rename_i cs
    obtain ⟨happend, hlt⟩ := closingOffset?_append hn after
    have hmatch : matchingBrace? ('{' :: cs ++ after) = some n := happend
    rw [hmatch, Option.map_some, List.take_append_of_le_length (by omega)]
  · cases hn

end Literal

/-! ### Regions -/

theorem Note.StandsIn.shift {a : Note} {text before after : List Char} {offset : Nat}
    (h : a.StandsIn text (offset + countChar '\n' before)) :
    a.StandsIn (before ++ text ++ after) offset := by
  unfold Note.StandsIn at h ⊢
  cases horigin : a.origin with
  | comment =>
    simp only [horigin] at h ⊢
    obtain ⟨front, back, rfl, hline⟩ := h
    refine ⟨before ++ front, back ++ after, by simp, ?_⟩
    rw [hline, lineAfter_append]
    omega
  | embedded =>
    simp only [horigin] at h ⊢
    obtain ⟨front, marker, rest, rfl, hmarker, hraw, hline⟩ := h
    refine ⟨before ++ front, marker, rest ++ after, by simp, hmarker,
      Literal.balanced?_append hraw after, ?_⟩
    rw [hline, lineAfter_append]
    omega

namespace Extract

theorem prefix_of_before? {word cs body : List Char} (h : before? word cs = some body) :
    body <+: cs := by
  induction cs generalizing body with
  | nil => cases h
  | cons c cs ih =>
    rw [before?] at h
    split at h
    · obtain rfl := Option.some.inj h
      exact List.nil_prefix
    · obtain ⟨rest, hrest, rfl⟩ := Option.map_eq_some_iff.mp h
      exact List.cons_prefix_cons.mpr ⟨rfl, ih hrest⟩

theorem prefix_of_scriptAt? {cs tag body : List Char} (h : scriptAt? cs = some (tag, body)) :
    tag ++ body <+: cs := by
  have hdrop : cs.drop (cs.takeWhile (· != '>')).length = cs.dropWhile (· != '>') := by
    have hleft := @List.drop_left _ (cs.takeWhile (· != '>')) (cs.dropWhile (· != '>'))
    rwa [List.takeWhile_append_dropWhile] at hleft
  unfold scriptAt? at h
  simp only [hdrop] at h
  split at h
  · split at h
    · cases h
    · rename_i c rest hrest
      obtain ⟨body', hbody, heq⟩ := Option.map_eq_some_iff.mp h
      obtain ⟨rfl, rfl⟩ := Prod.mk.inj heq
      have hc : c = '>' := by
        have hhead := List.head?_dropWhile_not (· != '>') cs
        simpa [hrest] using hhead
      have hcs : cs = cs.takeWhile (· != '>') ++ '>' :: rest := by
        rw [hc] at hrest
        rw [← hrest, List.takeWhile_append_dropWhile]
      obtain ⟨after, rfl⟩ := prefix_of_before? hbody
      refine ⟨after, ?_⟩
      conv_rhs => rw [hcs]
      simp
  · cases h

/-- A script region is a part of the text, and its offset counts the line feeds before it. -/
theorem exists_of_mem_scriptsFrom {skip number : Nat} {cs : List Char} {p : Part}
    (h : p ∈ scriptsFrom skip number cs) :
    ∃ before after, cs = before ++ p.text ++ after ∧ p.offset = number + countChar '\n' before := by
  induction cs generalizing skip number with
  | nil => simp [scriptsFrom] at h
  | cons c cs ih =>
    -- a region further on has `c` in front of it as well
    have hlater : ∀ skip', p ∈ scriptsFrom skip' (if c = '\n' then number + 1 else number) cs →
        ∃ before after, c :: cs = before ++ p.text ++ after ∧
          p.offset = number + countChar '\n' before := by
      intro skip' hp
      obtain ⟨before, after, rfl, hoffset⟩ := ih hp
      refine ⟨c :: before, after, rfl, ?_⟩
      rw [hoffset, countChar, countChar, List.countP_cons]
      by_cases hc : c = '\n'
      · simp only [hc, if_true, beq_self_eq_true]
        omega
      · simp [hc]
    rw [scriptsFrom.eq_def] at h
    cases skip with
    | succ k => exact hlater k h
    | zero =>
      simp only at h
      cases hscript : scriptAt? (c :: cs) with
      | none =>
        simp only [hscript] at h
        exact hlater 0 h
      | some found =>
        obtain ⟨tag, body⟩ := found
        simp only [hscript] at h
        rcases List.mem_cons.mp h with rfl | h
        · obtain ⟨after, hafter⟩ := prefix_of_scriptAt? hscript
          exact ⟨tag, after, hafter.symm, rfl⟩
        · exact hlater _ h

theorem exists_of_mem_scriptParts {content path : List Char} {p : Part}
    (h : p ∈ scriptParts content path) :
    ∃ before after, content = before ++ p.text ++ after ∧ p.offset = countChar '\n' before := by
  have hwhole : p ∈ [⟨content, 0⟩] →
      ∃ before after, content = before ++ p.text ++ after ∧ p.offset = countChar '\n' before := by
    intro hp
    obtain rfl := List.mem_singleton.mp hp
    exact ⟨[], [], by simp, rfl⟩
  unfold scriptParts at h
  split at h
  · simp only at h
    split at h
    · exact hwhole h
    · obtain ⟨before, after, hcontent, hoffset⟩ :=
        exists_of_mem_scriptsFrom (List.mem_filter.mp h).1
      exact ⟨before, after, hcontent, by rw [hoffset, Nat.zero_add]⟩
  · exact hwhole h

/-! ### Comments -/

/-- The comment is a run of lines among those given, the first of which has the given number. -/
def Comment.IsAmong (b : Comment) (number : Nat) (ls : List (List Char)) : Prop :=
  ∃ front block back, ls = front ++ block ++ back ∧ block ≠ [] ∧ b.raw = unlines block ∧
    b.line = number + front.length

theorem Comment.IsAmong.of_drop {b : Comment} {number n : Nat} {ls : List (List Char)}
    (h : b.IsAmong (number + n) (ls.drop n)) : b.IsAmong number ls := by
  obtain ⟨front, block, back, hdrop, hne, hraw, hline⟩ := h
  have hlength : n ≤ ls.length := by
    by_contra hlt
    rw [List.drop_eq_nil_of_le (by omega)] at hdrop
    exact hne (List.append_eq_nil_iff.mp (List.append_eq_nil_iff.mp hdrop.symm).1).2
  refine ⟨ls.take n ++ front, block, back, ?_, hne, hraw, ?_⟩
  · rw [List.append_assoc, List.append_assoc, ← List.append_assoc front, ← hdrop,
      List.take_append_drop]
  · rw [hline, List.length_append, List.length_take_of_le hlength, Nat.add_assoc]

/-- Every comment is a run of lines of the text. -/
theorem isAmong_of_mem_commentsFrom {number : Nat} {ls : List (List Char)} {b : Comment}
    (h : b ∈ commentsFrom number ls) : b.IsAmong number ls := by
  fun_induction commentsFrom number ls with
  | case1 => simp at h
  | case2 number line following hspan ih => exact (ih h).of_drop (n := 1)
  | case3 number line following n hspan raw rest blocks hmark ih =>
    rcases List.mem_cons.mp h with rfl | h
    · exact ⟨[], line :: following.take n, rest, by simp [rest], by simp, rfl, rfl⟩
    · have hlater := ih h
      rw [Nat.add_assoc, Nat.add_comm 1 n] at hlater
      exact Comment.IsAmong.of_drop hlater
  | case4 number line following n hspan raw rest blocks hmark ih =>
    have hlater := ih h
    rw [Nat.add_assoc, Nat.add_comm 1 n] at hlater
    exact Comment.IsAmong.of_drop hlater

/-- A comment stands in the text, after as many line feeds as there are lines before its own. -/
theorem exists_of_mem_commentsIn {text : List Char} {b : Comment} (h : b ∈ commentsIn text) :
    ∃ before after, text = before ++ b.raw ++ after ∧ b.line = lineAfter before := by
  obtain ⟨front, block, back, hlines, hne, hraw, hline⟩ := isAmong_of_mem_commentsFrom h
  have hfeed : ∀ l ∈ front, '\n' ∉ l := by
    intro l hl
    have hmem : l ∈ lines text := by
      rw [hlines]
      simp [hl]
    exact not_mem_of_mem_splitAt hmem
  obtain ⟨after, hafter⟩ := unlines_prefix_append hne back
  rw [← hraw] at hafter
  refine ⟨front.flatMap (· ++ ['\n']), after, ?_, ?_⟩
  · rw [List.append_assoc, hafter, ← unlines_append (by simp [hne]), ← List.append_assoc, ← hlines,
      unlines_lines]
  · rw [hline, lineAfter, countChar_flatMap_newline hfeed, Nat.add_comm]

theorem standsIn_of_note? {text : List Char} {offset : Nat} {b : Comment} {a : Note}
    (hb : b ∈ commentsIn text) (h : b.note? offset = .ok (some a)) : a.StandsIn text offset := by
  obtain ⟨before, after, htext, hline⟩ := exists_of_mem_commentsIn hb
  obtain ⟨r, hr, hnote⟩ := map_eq_ok.mp h
  split at hnote
  · cases hnote
  · obtain rfl := Option.some.inj hnote
    refine ⟨before, after, ?_, ?_⟩
    · rw [String.toList_ofList]
      exact htext
    · rw [hline]

theorem standsIn_of_mem_commentPass {text : List Char} {offset : Nat} {found : List Note}
    (h : commentPass text offset = .ok found) : ∀ a ∈ found, a.StandsIn text offset := by
  intro a ha
  obtain ⟨notes, hnotes, rfl⟩ := map_eq_ok.mp h
  obtain ⟨note, hnote, hsome⟩ := List.mem_filterMap.mp ha
  obtain ⟨b, hb, hread⟩ := exists_mem_of_forall₂ (forall₂_of_mapM_eq_ok hnotes) hnote
  rw [hsome] at hread
  exact standsIn_of_note? hb hread

/-! ### Objects -/

theorem standsIn_of_mem_embeddedPass {text : List Char} {offset : Nat} {found : List Note}
    {warnings : List String} (h : embeddedPass text offset = .ok (found, warnings)) :
    ∀ a ∈ found, a.origin = .embedded ∧ a.StandsIn text offset := by
  intro a ha
  obtain ⟨site, literal, r, hsite, hliteral, rfl⟩ := exists_of_mem_embeddedPass h ha
  obtain ⟨marker, _, htext, hmarker, _⟩ := hsite
  refine ⟨rfl, site.before, marker, site.literal, htext, hmarker, ?_, rfl⟩
  rw [hliteral, Site.note, String.toList_ofList]

/-! ### Files -/

/-- What folding keeps of comments and makes of objects holds of every annotation. -/
theorem forall_mem_merge {P Q : Note → Prop} {comments objects : List Note}
    (hcomments : ∀ a ∈ comments, P a) (hobjects : ∀ object ∈ objects, Q object)
    (halone : ∀ object, Q object → P object)
    (hfold : ∀ a object, Q object → P (fold a object)) : ∀ a ∈ merge comments objects, P a := by
  have habsorb : ∀ object, Q object → ∀ notes : List Note, (∀ a ∈ notes, P a) →
      ∀ a ∈ absorb object notes, P a := by
    intro object hobject notes hnotes
    induction notes with
    | nil => simpa [absorb] using halone object hobject
    | cons b rest ih =>
      obtain ⟨hb, hrest⟩ := List.forall_mem_cons.mp hnotes
      rw [absorb]
      split
      · exact List.forall_mem_cons.mpr ⟨hfold b object hobject, hrest⟩
      · exact List.forall_mem_cons.mpr ⟨hb, ih hrest⟩
  unfold merge
  induction objects generalizing comments with
  | nil => exact hcomments
  | cons object objects ih =>
    obtain ⟨hobject, hrest⟩ := List.forall_mem_cons.mp hobjects
    exact ih (habsorb object hobject comments hcomments) hrest

theorem standsIn_fold {text : List Char} {offset : Nat} (comment : Note) {object : Note}
    (horigin : object.origin = .embedded) (h : object.StandsIn text offset) :
    (fold comment object).StandsIn text offset := by
  unfold Note.StandsIn at h
  rwa [horigin] at h

/-- What is found in a part of a file stands in the file. -/
theorem standsIn_of_searchPart {content path : List Char} {p : Part} {comments objects : List Note}
    {warnings : List String} (hp : p ∈ scriptParts content path)
    (h : searchPart p = .ok (comments, objects, warnings)) :
    (∀ a ∈ comments, a.StandsIn content 0) ∧
      ∀ a ∈ objects, a.origin = .embedded ∧ a.StandsIn content 0 := by
  obtain ⟨before, after, hcontent, hoffset⟩ := exists_of_mem_scriptParts hp
  obtain ⟨comments', hcomments, h⟩ := bind_eq_ok.mp h
  obtain ⟨⟨objects', warnings'⟩, hobjects, h⟩ := bind_eq_ok.mp h
  obtain ⟨rfl, heq⟩ := Prod.mk.inj (Except.ok.inj h)
  obtain ⟨rfl, _⟩ := Prod.mk.inj heq
  have hshift : ∀ a : Note, a.StandsIn p.text p.offset → a.StandsIn content 0 := by
    intro a ha
    rw [hcontent]
    rw [hoffset, ← Nat.zero_add (countChar '\n' before)] at ha
    exact ha.shift
  constructor
  · intro a ha
    exact hshift a (standsIn_of_mem_commentPass hcomments a ha)
  · intro a ha
    obtain ⟨horigin, hstands⟩ := standsIn_of_mem_embeddedPass hobjects a ha
    exact ⟨horigin, hshift a hstands⟩

/-- Every annotation of a file stands in the file where it says. -/
theorem extract_standsIn {content path : String} {x : Extraction}
    (h : extract content path = .ok x) : ∀ a ∈ x.annotations, a.StandsIn content.toList 0 := by
  obtain ⟨found, hfound, hx⟩ := bind_eq_ok.mp h
  obtain rfl := Except.ok.inj hx
  have hparts : ∀ f ∈ found, (∀ a ∈ f.1, a.StandsIn content.toList 0) ∧
      ∀ a ∈ f.2.1, a.origin = .embedded ∧ a.StandsIn content.toList 0 := by
    intro f hf
    obtain ⟨p, hp, hsearch⟩ := exists_mem_of_forall₂ (forall₂_of_mapM_eq_ok hfound) hf
    exact standsIn_of_searchPart hp hsearch
  refine forall_mem_merge (P := fun a => a.StandsIn content.toList 0)
    (Q := fun a => a.origin = .embedded ∧ a.StandsIn content.toList 0) ?_ ?_ ?_ ?_
  · intro a ha
    obtain ⟨f, hf, ha⟩ := List.mem_flatMap.mp ha
    exact (hparts f hf).1 a ha
  · intro a ha
    obtain ⟨f, hf, ha⟩ := List.mem_flatMap.mp ha
    exact (hparts f hf).2 a ha
  · intro object hobject
    exact hobject.2
  · intro a object hobject
    exact standsIn_fold a hobject.1 hobject.2

theorem extract_standsIn_regions :
    let content := "<p>\n</p>\n<script>\n// @mm:id=a\nlet a\n</script><SCRIPT\n>" ++
      "/* @mm:name=N */\n" ++
      "class B \x7b __mm = \x7bid: 'b', x: '\x7d'\x7d \x7d\n</script>"
    ∃ x, extract content "x.vue" = .ok x ∧ x.annotations.map (fun a => (a.origin, a.line, a.raw)) =
        [(.comment, 4, "// @mm:id=a"), (.embedded, 8, "\x7bid: 'b', x: '\x7d'\x7d")] ∧
      ∀ a ∈ x.annotations, a.StandsIn content.toList 0 := by
  intro content
  have hrun : (extract content "x.vue").map
      (fun x => x.annotations.map fun a => (a.origin, a.line, a.raw)) =
        .ok [(.comment, 4, "// @mm:id=a"), (.embedded, 8, "\x7bid: 'b', x: '\x7d'\x7d")] := by
    decide +kernel
  obtain ⟨x, hx, hnotes⟩ := map_eq_ok.mp hrun
  exact ⟨x, hx, hnotes, extract_standsIn hx⟩

end Extract

end Marginalia
