/-
  Marginalia/Proofs/Text/Utf8.lean
  ================================
  **UTF-8 reads back what it writes.**  The bytes of a character are read as that
  character, in each of the four lengths; hence the bytes of a text are read as
  that text (`decodeUtf8_encodeUtf8`).  A text without carriage returns is the
  same after its line ends are brought to line feeds.
-/
import Marginalia.Text.Lines
import Marginalia.Text.Utf8

namespace Marginalia.Text

/-! ### One character -/

theorem toNat_toUInt8 {n : Nat} (h : n < 0x100) : n.toUInt8.toNat = n := by
  simpa using Nat.mod_eq_of_lt h

/-- A continuation byte inside its range brings six more bits. -/
theorem decodeFrom_continue {offset : Nat} {p : Pending} {out : List Char} {n : Nat}
    (bs : List UInt8) (hn : n < 0x100) (hlow : p.low ≤ n) (hhigh : n ≤ p.high) (howed : 1 < p.owed) :
    decodeFrom offset (some p) out (n.toUInt8 :: bs) =
      decodeFrom (offset + 1)
        (some { p with owed := p.owed - 1, low := 0x80, high := 0xBF,
                       value := p.value * 0x40 + (n - 0x80), read := p.read + 1 }) out bs := by
  have howed' : ¬ p.owed ≤ 1 := by omega
  simp [decodeFrom, toNat_toUInt8 hn, hlow, hhigh, howed']

theorem decodeFrom_end {offset : Nat} {p : Pending} {out : List Char} {n : Nat}
    (bs : List UInt8) (hn : n < 0x100) (hlow : p.low ≤ n) (hhigh : n ≤ p.high) (howed : p.owed ≤ 1) :
    decodeFrom offset (some p) out (n.toUInt8 :: bs) =
      decodeFrom (offset + 1) none (Char.ofNat (p.value * 0x40 + (n - 0x80)) :: out) bs := by
  simp [decodeFrom, toNat_toUInt8 hn, hlow, hhigh, howed]

theorem firstByte_of_two {n : Nat} (offset : Nat) (hlow : 0x80 ≤ n) (hhigh : n < 0x800) :
    firstByte offset (0xC0 + n / 0x40).toUInt8 =
      some (.inr ⟨1, 0x80, 0xBF, n / 0x40, offset, 1, (0xC0 + n / 0x40).toUInt8⟩) := by
  simp only [firstByte, toNat_toUInt8 (show 0xC0 + n / 0x40 < 0x100 by omega), Bool.and_eq_true,
    decide_eq_true_eq]
  rw [if_neg (by omega), if_pos (by omega), Nat.add_sub_cancel_left]

/-- The first of three bytes owes two more; the second one is in the range that it leaves, since
the character is not a surrogate. -/
theorem firstByte_of_three {n : Nat} (offset : Nat) (hlow : 0x800 ≤ n) (hhigh : n < 0x10000)
    (hvalid : n < 0xD800 ∨ 0xDFFF < n) :
    ∃ low high, firstByte offset (0xE0 + n / 0x1000).toUInt8 =
        some (.inr ⟨2, low, high, n / 0x1000, offset, 1, (0xE0 + n / 0x1000).toUInt8⟩) ∧
      low ≤ 0x80 + n / 0x40 % 0x40 ∧ 0x80 + n / 0x40 % 0x40 ≤ high := by
  by_cases h0 : n / 0x1000 = 0
  · exact ⟨0xA0, 0xBF, by simp [firstByte, h0], by omega, by omega⟩
  by_cases hD : n / 0x1000 = 0xD
  · exact ⟨0x80, 0x9F, by simp [firstByte, hD], by omega, by omega⟩
  refine ⟨0x80, 0xBF, ?_, by omega, by omega⟩
  simp only [firstByte, toNat_toUInt8 (show 0xE0 + n / 0x1000 < 0x100 by omega), Bool.and_eq_true,
    decide_eq_true_eq, beq_iff_eq]
  rw [if_neg (by omega), if_neg (by omega), if_neg (by omega), if_neg (by omega),
    if_pos (by omega), Nat.add_sub_cancel_left]

theorem firstByte_of_four {n : Nat} (offset : Nat) (hlow : 0x10000 ≤ n) (hhigh : n < 0x110000) :
    ∃ low high, firstByte offset (0xF0 + n / 0x40000).toUInt8 =
        some (.inr ⟨3, low, high, n / 0x40000, offset, 1, (0xF0 + n / 0x40000).toUInt8⟩) ∧
      low ≤ 0x80 + n / 0x1000 % 0x40 ∧ 0x80 + n / 0x1000 % 0x40 ≤ high := by
  by_cases h0 : n / 0x40000 = 0
  · exact ⟨0x90, 0xBF, by simp [firstByte, h0], by omega, by omega⟩
  by_cases h4 : n / 0x40000 = 4
  · exact ⟨0x80, 0x8F, by simp [firstByte, h4], by omega, by omega⟩
  refine ⟨0x80, 0xBF, ?_, by omega, by omega⟩
  simp only [firstByte, toNat_toUInt8 (show 0xF0 + n / 0x40000 < 0x100 by omega),
    Bool.and_eq_true, decide_eq_true_eq, beq_iff_eq]
  rw [if_neg (by omega), if_neg (by omega), if_neg (by omega), if_neg (by omega),
    if_neg (by omega), if_neg (by omega), if_neg (by omega), if_pos (by omega),
    Nat.add_sub_cancel_left]

theorem decodeFrom_first {offset : Nat} {b : UInt8} {p : Pending} (out : List Char)
    (bs : List UInt8) (h : firstByte offset b = some (.inr p)) :
    decodeFrom offset none out (b :: bs) = decodeFrom (offset + 1) (some p) out bs := by
  simp [decodeFrom, h]

/-- The bytes of a character are read as that character. -/
theorem decodeFrom_utf8Bytes (offset : Nat) (out : List Char) (c : Char) (bs : List UInt8) :
    ∃ offset', decodeFrom offset none out (utf8Bytes c ++ bs) =
      decodeFrom offset' none (c :: out) bs := by
  have hvalid : c.toNat < 0xD800 ∨ 0xDFFF < c.toNat ∧ c.toNat < 0x110000 := c.valid
  have hofNat {m : Nat} (hm : m = c.toNat) : Char.ofNat m = c := by rw [hm, Char.ofNat_toNat]
  unfold utf8Bytes
  by_cases h1 : c.toNat < 0x80
  · refine ⟨offset + 1, ?_⟩
    simp [decodeFrom, firstByte, toNat_toUInt8 (show c.toNat < 0x100 by omega), h1]
  by_cases h2 : c.toNat < 0x800
  · refine ⟨offset + 1 + 1, ?_⟩
    simp only [h1, h2, if_false, if_true, List.cons_append, List.nil_append]
    rw [decodeFrom_first out _ (firstByte_of_two offset (by omega) h2),
      decodeFrom_end bs (by omega) (by simp) (by simp; omega) (by simp)]
    rw [hofNat (by simp; omega)]
  by_cases h3 : c.toNat < 0x10000
  · obtain ⟨low, high, hfirst, hlow, hhigh⟩ :=
      firstByte_of_three offset (by omega) h3 (hvalid.imp_right And.left)
    refine ⟨offset + 1 + 1 + 1, ?_⟩
    simp only [h1, h2, h3, if_false, if_true, List.cons_append, List.nil_append]
    rw [decodeFrom_first out _ hfirst, decodeFrom_continue _ (by omega) hlow hhigh (by simp),
      decodeFrom_end bs (by omega) (by simp) (by simp; omega) (by simp)]
    rw [hofNat (by simp; omega)]
  · obtain ⟨low, high, hfirst, hlow, hhigh⟩ := firstByte_of_four offset (by omega)
      (show c.toNat < 0x110000 by omega)
    refine ⟨offset + 1 + 1 + 1 + 1, ?_⟩
    simp only [h1, h2, h3, if_false, List.cons_append, List.nil_append]
    rw [decodeFrom_first out _ hfirst, decodeFrom_continue _ (by omega) hlow hhigh (by simp),
      decodeFrom_continue _ (by omega) (by simp) (by simp; omega) (by simp),
      decodeFrom_end bs (by omega) (by simp) (by simp; omega) (by simp)]
    rw [hofNat (by simp; omega)]

/-! ### Texts -/

theorem decodeFrom_encodeUtf8 (cs : List Char) (offset : Nat) (out : List Char) :
    decodeFrom offset none out (encodeUtf8 cs) = .ok (out.reverse ++ cs) := by
  induction cs generalizing offset out with
  | nil => simp [encodeUtf8, decodeFrom]
  | cons c cs ih =>
    obtain ⟨offset', h⟩ := decodeFrom_utf8Bytes offset out c (encodeUtf8 cs)
    rw [encodeUtf8, List.flatMap_cons]
    exact h.trans ((ih offset' (c :: out)).trans (by simp))

theorem decodeUtf8_encodeUtf8 (cs : List Char) : decodeUtf8 (encodeUtf8 cs) = .ok cs :=
  decodeFrom_encodeUtf8 cs 0 []

theorem normalizeNewlines_of_no_return {cs : List Char} (h : '\r' ∉ cs) :
    normalizeNewlines cs = cs := by
  fun_induction normalizeNewlines cs with
  | case1 => rfl
  | case2 cs ih => simp at h
  | case3 c cs _ ih =>
    obtain ⟨hc, hcs⟩ : '\r' ≠ c ∧ '\r' ∉ cs := by simpa using h
    rw [if_neg (Ne.symm hc), ih hcs]

end Marginalia.Text
