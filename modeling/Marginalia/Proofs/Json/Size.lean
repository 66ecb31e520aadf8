/-
  Marginalia/Proofs/Json/Size.lean
  ================================
  **Sizes of compact text.**  In compact text a list or an object takes one byte and
  those of its parts with a comma or bracket after each, two if it has no parts
  (`size_arr`, `size_obj`).  So a list fits where another stands if it is that list
  with items left out (`fits_arr_of_sublist`), and an object if its members have
  distinct keys and each fits where the other has the same key (`fits_obj`,
  `fits_objOf`), in whatever order.
-/
import Marginalia.Json.Printer
import Marginalia.Proofs.Table
import Marginalia.Proofs.Text.Decimal
import Marginalia.Text.Utf8
import Mathlib.Algebra.Order.BigOperators.Group.List
import Mathlib.Algebra.Order.Ring.Nat

namespace Marginalia

namespace Text

theorem utf8Size_append (cs ds : List Char) : utf8Size (cs ++ ds) = utf8Size cs + utf8Size ds := by
  simp [utf8Size, encodeUtf8]

theorem utf8Size_cons (c : Char) (cs : List Char) :
    utf8Size (c :: cs) = utf8Size [c] + utf8Size cs := utf8Size_append [c] cs

theorem utf8Size_decimal (n : Nat) : utf8Size (decimal n) = (decimal n).length := by
  have hall : ∀ cs : List Char, (∀ c ∈ cs, IsDecimal c) → utf8Size cs = cs.length := by
    intro cs
    induction cs with
    | nil => intro _; rfl
    | cons c cs ih =>
      intro h
      have hc : utf8Size [c] = 1 :=
        (h c List.mem_cons_self).of_forall (P := fun c => utf8Size [c] = 1) (by decide)
      rw [utf8Size_cons, hc, ih fun d hd => h d (List.mem_cons_of_mem _ hd), List.length_cons,
        Nat.add_comm]
  exact hall _ fun c hc => isDecimal_of_mem_decimal hc

end Text

namespace Json

open Text

/-! ### Sizes of lists and objects -/

/-- The bytes of a value in compact text. -/
def size (depth : Nat) (v : Json) : Nat := utf8Size (write .compact depth v)

/-- The bytes of a member with its colon and the comma or brace after it. -/
def memberSize (depth : Nat) (p : String × Json) : Nat :=
  utf8Size (writeString false p.1) + size depth p.2 + 2

/-- In compact text nothing stands between lines, so only the brackets and commas count. -/
theorem write_arr_cons (depth : Nat) (v : Json) (vs : List Json) :
    write .compact depth (.arr (v :: vs)) =
      ['['] ++ write .compact (depth + 1) v ++ writeItems .compact (depth + 1) vs ++ [']'] := by
  simp [write, Layout.newline, Layout.compact]

theorem write_obj_cons (depth : Nat) (p : String × Json) (fs : List (String × Json)) :
    write .compact depth (.obj (p :: fs)) =
      ['\x7b'] ++ writeString false p.1 ++ [':'] ++ write .compact (depth + 1) p.2 ++
        writeFields .compact (depth + 1) fs ++ ['\x7d'] := by
  simp [write, Layout.newline, Layout.compact]

theorem utf8Size_writeItems (depth : Nat) (vs : List Json) :
    utf8Size (writeItems .compact depth vs) = (vs.map fun v => size depth v + 1).sum := by
  have hcomma : utf8Size Layout.compact.comma = 1 := by decide
  have hnewline : utf8Size (Layout.compact.newline depth) = 0 := rfl
  induction vs with
  | nil => rfl
  | cons v vs ih =>
    simp only [writeItems, utf8Size_append, hcomma, hnewline, ih, List.map_cons, List.sum_cons,
      size]
    omega

theorem utf8Size_writeFields (depth : Nat) (fs : List (String × Json)) :
    utf8Size (writeFields .compact depth fs) = (fs.map (memberSize depth)).sum := by
  have hcomma : utf8Size Layout.compact.comma = 1 := by decide
  have hcolon : utf8Size Layout.compact.colon = 1 := by decide
  have hnewline : utf8Size (Layout.compact.newline depth) = 0 := rfl
  have hescape : Layout.compact.asciiOnly = false := rfl
  induction fs with
  | nil => rfl
  | cons p fs ih =>
    simp only [writeFields, utf8Size_append, hcomma, hcolon, hnewline, hescape, ih, List.map_cons,
      List.sum_cons, memberSize, size]
    omega

/-- The size of a list.  The bracket at the end counts as the comma after the last item, so the
sum says too little only when there are no items. -/
theorem size_arr (depth : Nat) (vs : List Json) :
    size depth (.arr vs) = max 2 (1 + (vs.map fun v => size (depth + 1) v + 1).sum) := by
  have hopen : utf8Size ['['] = 1 := by decide
  have hclose : utf8Size [']'] = 1 := by decide
  have hempty : utf8Size ['[', ']'] = 2 := by decide
  cases vs with
  | nil =>
    rw [size, write, hempty]
    rfl
  | cons v vs =>
    rw [size, write_arr_cons]
    simp only [utf8Size_append, utf8Size_writeItems, hopen, hclose, List.map_cons, List.sum_cons,
      size]
    omega

theorem size_obj (depth : Nat) (fs : List (String × Json)) :
    size depth (.obj fs) = max 2 (1 + (fs.map (memberSize (depth + 1))).sum) := by
  have hopen : utf8Size ['\x7b'] = 1 := by decide
  have hcolon : utf8Size [':'] = 1 := by decide
  have hclose : utf8Size ['\x7d'] = 1 := by decide
  have hempty : utf8Size ['\x7b', '\x7d'] = 2 := by decide
  cases fs with
  | nil =>
    rw [size, write, hempty]
    rfl
  | cons p fs =>
    rw [size, write_obj_cons]
    simp only [utf8Size_append, utf8Size_writeFields, hopen, hcolon, hclose, List.map_cons,
      List.sum_cons, memberSize, size]
    omega

/-! ### Values that take no more room -/

/-- The value takes no more bytes than the other in the same place. -/
def Fits (v w : Json) : Prop := ∀ depth, size depth v ≤ size depth w

/-- If the part is set then so is the one with its key among the others, with a value that takes no
less room. -/
def PartFits (parts : List (String × Option Json)) (p : String × Option Json) : Prop :=
  ∀ v, p.2 = some v → ∃ w, (p.1, some w) ∈ parts ∧ Fits v w

theorem Fits.refl (v : Json) : Fits v v := fun _ => Nat.le_refl _

theorem PartFits.of_mem {parts : List (String × Option Json)} {p : String × Option Json}
    (h : p ∈ parts) : PartFits parts p := by
  intro v hv
  exact ⟨v, hv ▸ h, Fits.refl v⟩

theorem fits_nat {m n : Nat} (h : m ≤ n) : Fits (.nat m) (.nat n) := by
  have hsize : ∀ depth k, size depth (.nat k) = (decimal k).length := fun _ k =>
    utf8Size_decimal k
  intro depth
  rw [hsize, hsize]
  exact length_decimal_mono h

theorem fits_arr_of_sublist {vs ws : List Json} (h : vs.Sublist ws) : Fits (.arr vs) (.arr ws) := by
  intro depth
  have hsum := (h.map fun v => size (depth + 1) v + 1).sum_le_sum fun n _ => Nat.zero_le n
  rw [size_arr, size_arr]
  omega

/-- Members with distinct keys that each fit one of the others take no more room than the others
together. -/
theorem sum_memberSize_le (depth : Nat) {fs gs : List (String × Json)}
    (hkeys : (Table.keys fs).Nodup) (h : ∀ p ∈ fs, ∃ w, (p.1, w) ∈ gs ∧ Fits p.2 w) :
    (fs.map (memberSize depth)).sum ≤ (gs.map (memberSize depth)).sum := by
  induction fs generalizing gs with
  | nil => exact Nat.zero_le _
  | cons p fs ih =>
    obtain ⟨hnew, hkeys⟩ := List.nodup_cons.mp hkeys
    obtain ⟨w, hw, hfits⟩ := h p List.mem_cons_self
    obtain ⟨before, after, rfl⟩ := List.append_of_mem hw
    have hrest := @ih (before ++ after) hkeys (by
      -- the member that the first one fits has another key than those that are left
      intro q hq
      obtain ⟨w', hw', hfits'⟩ := h q (List.mem_cons_of_mem _ hq)
      have hne : q.1 ≠ p.1 := fun heq => hnew (heq ▸ List.mem_map_of_mem hq)
      refine ⟨w', ?_, hfits'⟩
      simpa [hne] using hw')
    have hfirst : memberSize depth p ≤ memberSize depth (p.1, w) :=
      Nat.add_le_add_right (Nat.add_le_add_left (hfits depth) _) 2
    simp only [List.map_append, List.map_cons, List.sum_append, List.sum_cons] at hrest ⊢
    omega

theorem fits_obj {fs gs : List (String × Json)} (hkeys : (Table.keys fs).Nodup)
    (h : ∀ p ∈ fs, ∃ w, (p.1, w) ∈ gs ∧ Fits p.2 w) : Fits (.obj fs) (.obj gs) := by
  intro depth
  have hsum := sum_memberSize_le (depth + 1) hkeys h
  rw [size_obj, size_obj]
  omega

/-- Tables as objects, by what is found for each entry. -/
theorem fits_mapValues {α β : Type} {f : α → Json} {g : β → Json} {t : Table String α}
    {t' : Table String β} (hkeys : (Table.keys t).Nodup)
    (h : ∀ p ∈ t, ∃ y, (p.1, y) ∈ t' ∧ Fits (f p.2) (g y)) :
    Fits (.obj (Table.mapValues f t)) (.obj (Table.mapValues g t')) := by
  apply fits_obj
  · rwa [Table.keys_mapValues]
  · intro member hmember
    obtain ⟨p, hp, rfl⟩ := List.mem_map.mp hmember
    obtain ⟨y, hy, hfits⟩ := h p hp
    exact ⟨g y, List.mem_map_of_mem hy, hfits⟩

theorem fits_objOf {ps qs : List (String × Option Json)} (hkeys : (Table.keys ps).Nodup)
    (h : ∀ p ∈ ps, PartFits qs p) : Fits (objOf ps) (objOf qs) := by
  apply fits_obj ((Table.keys_filterMap_some_sublist ps).nodup hkeys)
  intro member hmember
  obtain ⟨p, hp, hset⟩ := List.mem_filterMap.mp hmember
  obtain ⟨v, hv, rfl⟩ := Option.map_eq_some_iff.mp hset
  obtain ⟨w, hw, hfits⟩ := h p hp v hv
  exact ⟨w, List.mem_filterMap.mpr ⟨_, hw, rfl⟩, hfits⟩

end Json

end Marginalia
