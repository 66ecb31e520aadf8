/-
  Marginalia/Proofs/Extract/Merge.lean
  ====================================
  **Which object is folded into which comment.**  A comment takes the first object
  that belongs to it, and the others pass it by, also later, for what was folded is
  no comment any more.  So merging goes on behind it with one object less
  (`merge_cons`), and the comments of an entity take its objects in turn
  (`getElem?_merge`).

  Seen from an object, a comment of its entity is left exactly if more of them stand
  among the comments than objects of the entity came before it
  (`exists_belongTogether_iff`); else the object goes to the end (`drop_merge`).
-/
import Marginalia.Extract.File
import Mathlib.Data.List.Basic
import Mathlib.Data.List.Induction

namespace Marginalia.Extract

/-! ### Annotations of an entity -/

/-- The annotations of an entity, in order. -/
def ofEntity (e : String) (notes : List Note) : List Note := notes.filter (·.entity == some e)

/-- The annotation stands at position `i` and is number `j` of its entity, counted from zero. -/
structure IsNumber (e : String) (notes : List Note) (j i : Nat) (a : Note) : Prop where
  getElem? : notes[i]? = some a
  entity : a.entity = some e
  number : (ofEntity e (notes.take i)).length = j

/-- The object for the comment at a position: the first of the entity for its first comment, the
second for the second, and so on.  An annotation without an entity has none. -/
def partner? (comments objects : List Note) (i : Nat) : Option Note :=
  comments[i]?.bind fun c => c.entity?.bind fun e =>
    (ofEntity e objects)[(ofEntity e (comments.take i)).length]?

/-- A comment of its entity is left for the object when these others came before it. -/
def hasPartner (comments before : List Note) (object : Note) : Bool :=
  match object.entity? with
  | some e => (ofEntity e before).length < (ofEntity e comments).length
  | none => false

/-- The objects without a comment, in order. -/
def withoutPartner (comments objects : List Note) : List Note :=
  (List.range objects.length).filterMap fun i =>
    objects[i]?.filter fun o => !hasPartner comments (objects.take i) o

/-- The comment with an object folded in, if there is one. -/
def withPartner (comment : Note) : Option Note → Note
  | some object => fold comment object
  | none => comment

variable {a c o : Note} {e : String} {comments objects cs os : List Note}

theorem entity?_eq_some_iff : a.entity? = some e ↔ a.entity = some e ∧ e ≠ "" := by
  rw [Note.entity?, Option.filter_eq_some_iff]
  simp

theorem ofEntity_cons : ofEntity e (a :: os) =
    if a.entity = some e then a :: ofEntity e os else ofEntity e os := by
  simp [ofEntity, List.filter_cons]

theorem ofEntity_append (ms ns : List Note) :
    ofEntity e (ms ++ ns) = ofEntity e ms ++ ofEntity e ns := List.filter_append ..

theorem filter_eraseP_self {α : Type} (p : α → Bool) (l : List α) :
    (l.eraseP p).filter p = (l.filter p).tail := by
  induction l with
  | nil => rfl
  | cons a l ih =>
    by_cases h : p a
    · rw [List.eraseP_cons_of_pos h, List.filter_cons_of_pos h, List.tail_cons]
    · rw [List.eraseP_cons_of_neg h, List.filter_cons_of_neg h, List.filter_cons_of_neg h, ih]

theorem filter_eraseP_other {α : Type} {p q : α → Bool} (hpq : ∀ a, p a → ¬ q a) (l : List α) :
    (l.eraseP p).filter q = l.filter q := by
  induction l with
  | nil => rfl
  | cons a l ih =>
    by_cases h : p a
    · rw [List.eraseP_cons_of_pos h, List.filter_cons_of_neg (hpq a h)]
    · rw [List.eraseP_cons_of_neg h, List.filter_cons, List.filter_cons, ih]

theorem IsNumber.partner?_eq {j i : Nat} (h : IsNumber e comments j i c) (he : e ≠ "") :
    partner? comments objects i = (ofEntity e objects)[j]? := by
  rw [partner?, h.getElem?, Option.bind_some, entity?_eq_some_iff.mpr ⟨h.entity, he⟩,
    Option.bind_some, h.number]

theorem belongTogether_iff : belongTogether c o = true ↔
    c.origin = .comment ∧ ∃ e, c.entity? = some e ∧ o.entity? = some e := by
  simp only [belongTogether, Bool.and_eq_true, beq_iff_eq, Option.isSome_iff_exists, and_assoc]
  constructor
  · rintro ⟨hc, ⟨e, he⟩, hentity⟩
    refine ⟨hc, e, he, ?_⟩
    rwa [Note.entity?, ← hentity]
  · rintro ⟨hc, e, he, ho⟩
    have hentity := (entity?_eq_some_iff.mp he).1.trans (entity?_eq_some_iff.mp ho).1.symm
    exact ⟨hc, ⟨e, he⟩, hentity⟩

/-! ### A comment and its object -/

theorem belongTogether_of_entity? (hc : c.origin = .comment) (he : c.entity? = some e) :
    belongTogether c = fun o => o.entity == some e := by
  funext o
  have hcomm : (some e == o.entity) = (o.entity == some e) := BEq.comm
  rw [belongTogether, hc, he, (entity?_eq_some_iff.mp he).1, hcomm]
  rfl

theorem merge_cons_embedded (ha : a.origin = .embedded) :
    merge (a :: cs) os = a :: merge cs os := by
  have hnot : ∀ o, ¬ belongTogether a o = true := by
    intro o h
    have hcomment := (belongTogether_iff.mp h).1
    rw [ha] at hcomment
    cases hcomment
  induction os generalizing cs with
  | nil => rfl
  | cons o os ih =>
    rw [merge, List.foldl_cons, absorb, if_neg (hnot o)]
    exact ih

/-- A comment takes the first object that belongs to it and leaves the others to the rest. -/
theorem merge_cons : merge (c :: cs) os =
    withPartner c (os.find? (belongTogether c)) :: merge cs (os.eraseP (belongTogether c)) := by
  induction os generalizing cs with
  | nil => rfl
  | cons o os ih =>
    by_cases h : belongTogether c o
    · rw [List.find?_cons_of_pos h, List.eraseP_cons_of_pos h, merge, List.foldl_cons, absorb,
        if_pos h]
      exact merge_cons_embedded rfl
    · rw [List.find?_cons_of_neg h, List.eraseP_cons_of_neg h, merge, List.foldl_cons, absorb,
        if_neg h]
      exact ih

theorem partner?_zero (hc : c.origin = .comment) :
    partner? (c :: cs) os 0 = os.find? (belongTogether c) := by
  rw [partner?, List.getElem?_cons_zero, Option.bind_some]
  cases he : c.entity? with
  | none =>
    have hnone : os.find? (belongTogether c) = none := by
      rw [List.find?_eq_none]
      intro o _ h
      obtain ⟨_, e, hentity, _⟩ := belongTogether_iff.mp h
      rw [he] at hentity
      cases hentity
    rw [hnone, Option.bind_none]
  | some e =>
    rw [belongTogether_of_entity? hc he, Option.bind_some, ← List.head?_filter,
      List.head?_eq_getElem?]
    rfl

theorem ofEntity_eraseP (he : e ≠ "") (hc : c.origin = .comment) :
    ofEntity e (os.eraseP (belongTogether c)) =
      if c.entity = some e then (ofEntity e os).tail else ofEntity e os := by
  split
  · rename_i hentity
    rw [belongTogether_of_entity? hc (entity?_eq_some_iff.mpr ⟨hentity, he⟩), ofEntity,
      filter_eraseP_self]
    rfl
  · rename_i hentity
    apply filter_eraseP_other
    intro o ho hother
    simp only [belongTogether, Bool.and_eq_true, beq_iff_eq] at ho hother
    exact hentity (ho.2.trans hother)

theorem partner?_succ (hc : c.origin = .comment) (i : Nat) :
    partner? (c :: cs) os (i + 1) = partner? cs (os.eraseP (belongTogether c)) i := by
  rw [partner?, partner?, List.getElem?_cons_succ, List.take_succ_cons]
  apply Option.bind_congr
  intro c' _
  apply Option.bind_congr
  intro e he
  rw [ofEntity_eraseP (entity?_eq_some_iff.mp he).2 hc, ofEntity_cons]
  split
  · rw [List.getElem?_tail, List.length_cons]
  · rfl

/-- A comment is folded with its object, and left as it is if it has none. -/
theorem getElem?_merge (hcomments : ∀ c ∈ comments, c.origin = .comment) (objects : List Note)
    {i : Nat} (hi : comments[i]? = some c) :
    (merge comments objects)[i]? = some (withPartner c (partner? comments objects i)) := by
  induction comments generalizing objects i with
  | nil => simp at hi
  | cons c' cs ih =>
    obtain ⟨hc, hcs⟩ := List.forall_mem_cons.mp hcomments
    rw [merge_cons]
    cases i with
    | zero =>
      obtain rfl : c' = c := by simpa using hi
      rw [partner?_zero hc, List.getElem?_cons_zero]
    | succ i =>
      rw [partner?_succ hc, List.getElem?_cons_succ]
      exact ih hcs _ hi

/-- What was folded is no comment, so a comment that is left stands there as it was. -/
theorem eq_comment_of_getElem?_merge (hcomments : ∀ c ∈ comments, c.origin = .comment) {i : Nat}
    (hi : comments[i]? = some c) (h : (merge comments objects)[i]? = some a)
    (ha : a.origin = .comment) : a = c ∧ partner? comments objects i = none := by
  rw [getElem?_merge hcomments objects hi] at h
  obtain rfl := Option.some.inj h
  cases hpartner : partner? comments objects i with
  | some o =>
    rw [hpartner] at ha
    cases ha
  | none => exact ⟨rfl, rfl⟩

/-! ### An object and its comment -/

theorem absorb_of_forall_not (h : ∀ a ∈ os, ¬ belongTogether a o = true) :
    absorb o os = os ++ [o] := by
  induction os with
  | nil => rfl
  | cons a os ih =>
    obtain ⟨ha, hrest⟩ := List.forall_mem_cons.mp h
    rw [absorb, if_neg ha, ih hrest, List.cons_append]

/-- An object that is folded in leaves alone what stands behind. -/
theorem drop_absorb_append (h : ∃ a ∈ cs, belongTogether a o = true) (os : List Note) :
    (absorb o (cs ++ os)).drop cs.length = os := by
  induction cs with
  | nil => simp at h
  | cons a cs ih =>
    rw [List.cons_append, absorb, List.length_cons]
    split
    · rw [List.drop_succ_cons, List.drop_left]
    · rename_i ha
      rw [List.drop_succ_cons]
      apply ih
      obtain ⟨b, hb, hbelong⟩ := h
      rcases List.mem_cons.mp hb with rfl | hb
      · exact absurd hbelong ha
      · exact ⟨b, hb, hbelong⟩

theorem exists_isNumber {j : Nat} (h : j < (ofEntity e comments).length) :
    ∃ i c, IsNumber e comments j i c := by
  induction comments generalizing j with
  | nil => simp [ofEntity] at h
  | cons c cs ih =>
    rw [ofEntity_cons] at h
    by_cases hentity : c.entity = some e
    · rw [if_pos hentity] at h
      cases j with
      | zero => exact ⟨0, c, rfl, hentity, rfl⟩
      | succ j =>
        obtain ⟨i, c', hc'⟩ := ih (Nat.lt_of_succ_lt_succ h)
        refine ⟨i + 1, c', hc'.getElem?, hc'.entity, ?_⟩
        rw [List.take_succ_cons, ofEntity_cons, if_pos hentity, List.length_cons, hc'.number]
    · rw [if_neg hentity] at h
      obtain ⟨i, c', hc'⟩ := ih h
      refine ⟨i + 1, c', hc'.getElem?, hc'.entity, ?_⟩
      rw [List.take_succ_cons, ofEntity_cons, if_neg hentity, hc'.number]

theorem IsNumber.lt_length {j i : Nat} (h : IsNumber e comments j i c) :
    j < (ofEntity e comments).length := by
  obtain ⟨hi, rfl⟩ := List.getElem?_eq_some_iff.mp h.getElem?
  have hsplit : comments = comments.take i ++ comments[i] :: comments.drop (i + 1) := by simp
  rw [hsplit, ofEntity_append, List.length_append, h.number, ofEntity_cons, if_pos h.entity,
    List.length_cons]
  omega

theorem length_le_length_merge (comments objects : List Note) :
    comments.length ≤ (merge comments objects).length := by
  have habsorb : ∀ o l, l.length ≤ (absorb o l).length := by
    intro o l
    induction l with
    | nil => exact Nat.zero_le _
    | cons a l ih =>
      rw [absorb]
      split
      · exact Nat.le_refl _
      · exact Nat.succ_le_succ ih
  induction objects generalizing comments with
  | nil => exact Nat.le_refl _
  | cons o os ih => exact Nat.le_trans (habsorb o comments) (ih _)

/-- A comment is left for an object among those merged before exactly if it has a partner. -/
theorem exists_belongTogether_iff (hcomments : ∀ c ∈ comments, c.origin = .comment)
    (objects : List Note) (o : Note) :
    (∃ a ∈ (merge comments objects).take comments.length, belongTogether a o = true) ↔
      hasPartner comments objects o = true := by
  constructor
  · rintro ⟨a, ha, hbelong⟩
    obtain ⟨i, hi⟩ := List.mem_iff_getElem?.mp ha
    obtain ⟨hlt, hi⟩ : i < comments.length ∧ (merge comments objects)[i]? = some a := by
      simpa [List.getElem?_take] using hi
    obtain ⟨horigin, e, hentity, he⟩ := belongTogether_iff.mp hbelong
    have hc := List.getElem?_eq_getElem hlt
    obtain ⟨rfl, hnone⟩ := eq_comment_of_getElem?_merge hcomments hc hi horigin
    obtain ⟨hentity, hne⟩ := entity?_eq_some_iff.mp hentity
    have hnumber : IsNumber e comments _ i comments[i] := ⟨hc, hentity, rfl⟩
    rw [hnumber.partner?_eq hne] at hnone
    have hle := List.getElem?_eq_none_iff.mp hnone
    have hlt := hnumber.lt_length
    simp only [hasPartner, he, decide_eq_true_eq]
    omega
  · intro h
    unfold hasPartner at h
    cases he : o.entity? with
    | none => simp [he] at h
    | some e =>
      have hlt : (ofEntity e objects).length < (ofEntity e comments).length := by simpa [he] using h
      obtain ⟨i, c, hc⟩ := exists_isNumber hlt
      have hne := (entity?_eq_some_iff.mp he).2
      have hmerged := getElem?_merge hcomments objects hc.getElem?
      rw [hc.partner?_eq hne, List.getElem?_eq_none (Nat.le_refl _)] at hmerged
      refine ⟨c, ?_, ?_⟩
      · obtain ⟨hi, _⟩ := List.getElem?_eq_some_iff.mp hc.getElem?
        apply List.mem_of_getElem?
        rw [List.getElem?_take, if_pos hi]
        exact hmerged
      · have horigin := hcomments c (List.mem_of_getElem? hc.getElem?)
        exact belongTogether_iff.mpr ⟨horigin, e, entity?_eq_some_iff.mpr ⟨hc.entity, hne⟩, he⟩

theorem mem_of_mem_withoutPartner (h : o ∈ withoutPartner comments objects) : o ∈ objects := by
  obtain ⟨i, _, hi⟩ := List.mem_filterMap.mp h
  exact List.mem_of_getElem? (Option.eq_some_of_filter_eq_some hi)

theorem withoutPartner_concat (comments objects : List Note) (o : Note) :
    withoutPartner comments (objects ++ [o]) = withoutPartner comments objects ++
      if hasPartner comments objects o then [] else [o] := by
  unfold withoutPartner
  rw [List.length_append, List.length_singleton, List.range_succ, List.filterMap_append]
  congr 1
  · apply List.filterMap_congr
    intro i hi
    have hi := List.mem_range.mp hi
    rw [List.getElem?_append_left hi, List.take_append_of_le_length (Nat.le_of_lt hi)]
  · rw [List.filterMap_cons, List.filterMap_nil, List.getElem?_concat_length, List.take_left,
      Option.filter_some]
    cases hasPartner comments objects o <;> rfl

theorem drop_merge (hcomments : ∀ c ∈ comments, c.origin = .comment)
    (hobjects : ∀ o ∈ objects, o.origin = .embedded) :
    (merge comments objects).drop comments.length = withoutPartner comments objects := by
  induction objects using List.reverseRecOn with
  | nil => simp [merge, withoutPartner]
  | append_singleton objects o ih =>
    have ih := ih fun o' ho' => hobjects o' (List.mem_append_left _ ho')
    have hlength : ((merge comments objects).take comments.length).length = comments.length := by
      rw [List.length_take, Nat.min_eq_left (length_le_length_merge comments objects)]
    have hstep : merge comments (objects ++ [o]) = absorb o
        ((merge comments objects).take comments.length ++ withoutPartner comments objects) := by
      rw [merge, List.foldl_append, ← ih, List.take_append_drop]
      rfl
    rw [hstep, withoutPartner_concat]
    have hiff := exists_belongTogether_iff hcomments objects o
    split
    · rename_i hpartner
      have hdrop := drop_absorb_append (hiff.mpr hpartner) (withoutPartner comments objects)
      rw [hlength] at hdrop
      rw [hdrop, List.append_nil]
    · rename_i hpartner
      rw [absorb_of_forall_not, List.append_assoc]
      · exact List.drop_left' hlength
      · intro a ha
        rcases List.mem_append.mp ha with ha | ha
        · exact fun hbelong => hpartner (hiff.mp ⟨a, ha, hbelong⟩)
        · have horigin := hobjects a (List.mem_append_left _ (mem_of_mem_withoutPartner ha))
          simp [belongTogether, horigin]

/-! ### The merged annotations -/

/-- A field of the merged annotation is the object's if it is set there, else the comment's. -/
def Prefers {α : Type} (field : Record → Option α) (comment object merged : Note) : Prop :=
  (∀ v, field object.record = some v → field merged.record = some v) ∧
    (field object.record = none → field merged.record = field comment.record)

/-- What folding makes of a comment and an object. -/
structure IsFold (comment object merged : Note) : Prop where
  origin : merged.origin = .embedded
  line : merged.line = object.line
  raw : merged.raw = object.raw
  entity : merged.entity = object.entity
  id : Prefers Record.id comment object merged
  name : Prefers Record.name comment object merged
  desc : Prefers Record.desc comment object merged
  tags : Prefers Record.tags comment object merged
  deps : Prefers Record.deps comment object merged
  ai : Prefers Record.ai comment object merged
  visibility : Prefers Record.visibility comment object merged
  version : Prefers Record.version comment object merged
  phase : Prefers Record.phase comment object merged
  status : Prefers Record.status comment object merged

theorem isFold_fold (comment object : Note) : IsFold comment object (fold comment object) := by
  have hprefers : ∀ {α : Type} (field : Record → Option α),
      field (fold comment object).record = (field object.record <|> field comment.record) →
        Prefers field comment object (fold comment object) := by
    intro α field h
    refine ⟨?_, ?_⟩
    · intro v hv
      rw [h, hv]
      rfl
    · intro hnone
      rw [h, hnone]
      rfl
  refine ⟨rfl, rfl, rfl, rfl, ?_, ?_, ?_, ?_, ?_, ?_, ?_, ?_, ?_, ?_⟩ <;> exact hprefers _ rfl

/-- Merging folds the objects of every entity into its comments, first into first, second into
second, each in the place of the comment.  Comments without an object stay as they are, and objects
without a comment follow behind, in order. -/
theorem merge_pairs_in_order (hcomments : ∀ c ∈ comments, c.origin = .comment)
    (hobjects : ∀ o ∈ objects, o.origin = .embedded) :
    (∀ e, e ≠ "" → ∀ j i c o, IsNumber e comments j i c → (ofEntity e objects)[j]? = some o →
      ∃ a, (merge comments objects)[i]? = some a ∧ IsFold c o a) ∧
    (∀ i c, comments[i]? = some c →
      (∀ e, e ≠ "" → ∀ j, IsNumber e comments j i c → (ofEntity e objects).length ≤ j) →
      (merge comments objects)[i]? = some c) ∧
    (merge comments objects).drop comments.length = withoutPartner comments objects := by
  refine ⟨?_, ?_, drop_merge hcomments hobjects⟩
  · intro e he j i c o hc ho
    refine ⟨fold c o, ?_, isFold_fold c o⟩
    rw [getElem?_merge hcomments objects hc.getElem?, hc.partner?_eq he, ho]
    rfl
  · intro i c hc hnone
    rw [getElem?_merge hcomments objects hc]
    have hpartner : partner? comments objects i = none := by
      rw [partner?, hc, Option.bind_some, Option.bind_eq_none_iff]
      intro e he
      obtain ⟨hentity, hne⟩ := entity?_eq_some_iff.mp he
      exact List.getElem?_eq_none (hnone e hne _ ⟨hc, hentity, rfl⟩)
    rw [hpartner]
    rfl

/-- Two comments of one entity, one without an entity and one of another entity. -/
def twinComments : List Note := [
  ⟨{ id := "a" }, .comment, 1, "", some "A"⟩,
  ⟨{ id := "n" }, .comment, 3, "", none⟩,
  ⟨{ id := "a2", name := "second" }, .comment, 5, "", some "A"⟩,
  ⟨{ id := "b" }, .comment, 7, "", some "B"⟩]

/-- More objects than comments of the entity, and one without an entity. -/
def twinObjects : List Note := [
  ⟨{ desc := "one" }, .embedded, 2, "", some "A"⟩,
  ⟨{ desc := "apart" }, .embedded, 4, "", none⟩,
  ⟨{ id := "a3", desc := "two" }, .embedded, 6, "", some "A"⟩,
  ⟨{ desc := "three" }, .embedded, 8, "", some "A"⟩]

theorem merge_pairs_in_order_twin :
    (∀ c ∈ twinComments, c.origin = .comment) ∧ (∀ o ∈ twinObjects, o.origin = .embedded) ∧
      (∃ a, (merge twinComments twinObjects)[2]? = some a ∧ a.record.id = some "a3" ∧
        a.record.name = some "second") ∧
      (merge twinComments twinObjects)[3]? = twinComments[3]? ∧
      (merge twinComments twinObjects).drop 4 = [twinObjects[1], twinObjects[3]] := by
  have hcomments : ∀ c ∈ twinComments, c.origin = .comment := by decide
  have hobjects : ∀ o ∈ twinObjects, o.origin = .embedded := by decide
  obtain ⟨hfold, hkept, hrest⟩ := merge_pairs_in_order hcomments hobjects
  refine ⟨hcomments, hobjects, ?_, ?_, ?_⟩
  · obtain ⟨a, ha, hisFold⟩ := hfold "A" (by decide) 1 2 twinComments[2] twinObjects[2]
      ⟨rfl, rfl, rfl⟩ rfl
    exact ⟨a, ha, hisFold.id.1 _ rfl, hisFold.name.2 rfl⟩
  · apply hkept 3 twinComments[3] rfl
    intro e _ j hj
    obtain rfl : "B" = e := Option.some.inj hj.entity
    exact Nat.zero_le j
  · exact hrest

end Marginalia.Extract
