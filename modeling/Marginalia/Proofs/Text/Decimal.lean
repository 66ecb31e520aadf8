/-
  Marginalia/Proofs/Text/Decimal.lean
  ===================================
  **Decimal numbers read back.**  The digits of a number have its value, no zero
  stands in front of them, and there are at most `k` of them if the number is below
  `10 ^ k`.  So a whole number of at most `maxDigits` digits (`IsShort`) is read back
  from its decimal form (`readInt_decimalInt`), and every number that is read from a
  text is one of these (`isShort_of_readInt`).
-/
import Marginalia.Text.Digit
import Mathlib.Algebra.Ring.Nat
import Mathlib.Data.List.Induction

namespace Marginalia.Text

/-! ### Digits -/

/-- The characters `0` to `9`. -/
def IsDecimal (c : Char) : Prop := ∃ d < 10, c = digitChar d

theorem IsDecimal.of_forall {P : Char → Prop} {c : Char} (h : IsDecimal c)
    (hall : ∀ d < 10, P (digitChar d)) : P c := by
  obtain ⟨d, hd, rfl⟩ := h
  exact hall d hd

theorem toNat_digitChar {d : Nat} (h : d < 10) : (digitChar d).toNat = 0x30 + d := by
  have hall : ∀ d < 10, (digitChar d).toNat = 0x30 + d := by decide
  exact hall d h

theorem isDecimal_of_mem_decimal {n : Nat} {c : Char} (h : c ∈ decimal n) : IsDecimal c := by
  fun_induction decimal n with
  | case1 n hn =>
    obtain rfl := List.mem_singleton.mp h
    exact ⟨n, hn, rfl⟩
  | case2 n hn ih =>
    rcases List.mem_append.mp h with h | h
    · exact ih h
    · obtain rfl := List.mem_singleton.mp h
      exact ⟨n % 10, Nat.mod_lt _ (by decide), rfl⟩

theorem forall_mem_decimalInt {P : Char → Prop} (hminus : P '-')
    (hdigits : ∀ d < 10, P (digitChar d)) (n : Int) : ∀ c ∈ decimalInt n, P c := by
  intro c hc
  cases n with
  | ofNat n => exact (isDecimal_of_mem_decimal hc).of_forall hdigits
  | negSucc n =>
    rcases List.mem_cons.mp hc with rfl | hc
    · exact hminus
    · exact (isDecimal_of_mem_decimal hc).of_forall hdigits

theorem decimal_ne_nil (n : Nat) : decimal n ≠ [] := by
  rw [decimal]
  split <;> simp

theorem ofDigits_concat (ds : List Nat) (d : Nat) :
    ofDigits (ds ++ [d]) = 10 * ofDigits ds + d := by
  rw [ofDigits, List.foldl_append]
  rfl

theorem ofDigits_decimal (n : Nat) :
    ofDigits ((decimal n).map fun c => c.toNat - 0x30) = n := by
  fun_induction decimal n with
  | case1 n hn => simp [ofDigits, toNat_digitChar hn]
  | case2 n hn ih =>
    have hd : n % 10 < 10 := Nat.mod_lt _ (by decide)
    rw [List.map_append, List.map_singleton, ofDigits_concat, ih, toNat_digitChar hd]
    omega

theorem length_decimal_le {n k : Nat} (hk : 0 < k) (h : n < 10 ^ k) :
    (decimal n).length ≤ k := by
  fun_induction decimal n generalizing k with
  | case1 n hn => exact hk
  | case2 n hn ih =>
    obtain ⟨j, rfl⟩ : ∃ j, k = j + 1 := ⟨k - 1, by omega⟩
    rw [Nat.pow_succ] at h
    have hj : 0 < j := by
      rcases Nat.eq_zero_or_pos j with rfl | hj
      · simp at h
        omega
      · exact hj
    have := ih hj (by omega)
    simp
    omega

/-- Numbers of at most `maxDigits` digits. -/
def IsShort (n : Int) : Prop := (decimal n.natAbs).length ≤ maxDigits

theorem isShort_of_natAbs_lt {n : Int} (h : n.natAbs < 10 ^ maxDigits) : IsShort n :=
  length_decimal_le (by decide) h

theorem isShort_of_le {n : Int} {bound : Nat} (hbound : bound < 10 ^ maxDigits)
    (h : n.natAbs ≤ bound) : IsShort n :=
  isShort_of_natAbs_lt (Nat.lt_of_le_of_lt h hbound)

/-- A zero in front of the digits is the only one. -/
theorem eq_zero_of_decimal_eq_cons {n : Nat} {cs : List Char} (h : decimal n = '0' :: cs) :
    n = 0 := by
  fun_induction decimal n generalizing cs with
  | case1 n hn =>
    have hall : ∀ n < 10, digitChar n = '0' → n = 0 := by decide
    exact hall n hn (List.cons.inj h).1
  | case2 n hn ih =>
    cases hfront : decimal (n / 10) with
    | nil => exact absurd hfront (decimal_ne_nil _)
    | cons c front =>
      rw [hfront, List.cons_append] at h
      obtain ⟨rfl, _⟩ := List.cons.inj h
      have := ih hfront
      omega

/-! ### Reading -/

theorem digitValue?_of_isDecimal {c : Char} (h : IsDecimal c) :
    digitValue? c = some (c.toNat - 0x30) :=
  h.of_forall (P := fun c => digitValue? c = some (c.toNat - 0x30)) (by decide)

theorem isSpace_of_isDecimal {c : Char} (h : IsDecimal c) : isSpace c = false :=
  h.of_forall (P := fun c => isSpace c = false) (by decide)

theorem readDigitRun_of_isDecimal {cs : List Char} (h : ∀ c ∈ cs, IsDecimal c) (after : Bool) :
    readDigitRun after cs = some (cs.map fun c => c.toNat - 0x30, []) := by
  induction cs generalizing after with
  | nil => rfl
  | cons c cs ih =>
    have hc := digitValue?_of_isDecimal (h c List.mem_cons_self)
    have hcs := ih (fun d hd => h d (List.mem_cons_of_mem _ hd)) true
    simp [readDigitRun, hc, hcs]

theorem trimSpaces_of_no_space {cs : List Char} (h : ∀ c ∈ cs, isSpace c = false) :
    trimSpaces cs = cs := by
  have hdrop : ∀ {l : List Char}, (∀ c ∈ l, isSpace c = false) → l.dropWhile isSpace = l := by
    intro l hl
    cases l with
    | nil => rfl
    | cons c l => simp [List.dropWhile, hl c List.mem_cons_self]
  rw [trimSpaces, hdrop h, hdrop fun c hc => h c (List.mem_reverse.mp hc), List.reverse_reverse]

theorem readSign_decimal (n : Nat) : readSign (decimal n) = (false, decimal n) := by
  cases h : decimal n with
  | nil => exact absurd h (decimal_ne_nil n)
  | cons c cs =>
    have hc : IsDecimal c := isDecimal_of_mem_decimal (h ▸ List.mem_cons_self)
    obtain ⟨hminus, hplus⟩ : c ≠ '-' ∧ c ≠ '+' :=
      hc.of_forall (P := fun c => c ≠ '-' ∧ c ≠ '+') (by decide)
    unfold readSign
    split
    · exact absurd (List.cons.inj ‹_›).1 hminus
    · exact absurd (List.cons.inj ‹_›).1 hplus
    · rfl

theorem readInt_of_readSign {cs : List Char} {negative : Bool} {n : Nat}
    (hspace : ∀ c ∈ cs, isSpace c = false) (hsign : readSign cs = (negative, decimal n))
    (hlength : (decimal n).length ≤ maxDigits) : readInt cs = .ok (signed negative n) := by
  have hrun := readDigitRun_of_isDecimal (fun c => isDecimal_of_mem_decimal (n := n)) false
  have hdigits : ((decimal n).map fun c => c.toNat - 0x30).isEmpty = false := by
    simp [decimal_ne_nil]
  have hcount : ¬ maxDigits < ((decimal n).map fun c => c.toNat - 0x30).length := by
    simpa using hlength
  simp only [readInt, trimSpaces_of_no_space hspace, hsign, hrun, hdigits, hcount, if_false,
    Bool.false_eq_true, List.isEmpty_nil, if_true, ofDigits_decimal]

/-- A whole number that does not have too many digits is read back. -/
theorem readInt_decimalInt {n : Int} (h : IsShort n) : readInt (decimalInt n) = .ok n := by
  have hspace : ∀ n : Nat, ∀ c ∈ decimal n, isSpace c = false := fun n c hc =>
    isSpace_of_isDecimal (isDecimal_of_mem_decimal hc)
  cases n with
  | ofNat n => exact readInt_of_readSign (hspace n) (readSign_decimal n) h
  | negSucc n =>
    have hminus : ∀ c ∈ '-' :: decimal (n + 1), isSpace c = false := by
      intro c hc
      rcases List.mem_cons.mp hc with rfl | hc
      · decide
      · exact hspace (n + 1) c hc
    have hsign : readSign ('-' :: decimal (n + 1)) = (true, decimal (n + 1)) := rfl
    exact readInt_of_readSign hminus hsign h

/-! ### Numbers that are read -/

theorem lt_ten_of_digitValue? {c : Char} {d : Nat} (h : digitValue? c = some d) : d < 10 := by
  obtain ⟨z, hz, rfl⟩ := Option.map_eq_some_iff.mp h
  have hrange := List.find?_some hz
  simp only [Bool.and_eq_true, decide_eq_true_eq] at hrange
  omega

theorem lt_ten_of_mem_readDigitRun {after : Bool} {cs rest : List Char} {ds : List Nat}
    (h : readDigitRun after cs = some (ds, rest)) : ∀ d ∈ ds, d < 10 := by
  induction cs generalizing after ds with
  | nil =>
    obtain ⟨rfl, rfl⟩ : [] = ds ∧ [] = rest := by simpa [readDigitRun] using h
    simp
  | cons c cs ih =>
    rw [readDigitRun] at h
    cases hc : digitValue? c with
    | some d =>
      simp only [hc] at h
      obtain ⟨⟨ds', rest'⟩, hrun, heq⟩ := Option.map_eq_some_iff.mp h
      obtain ⟨rfl, rfl⟩ := Prod.mk.inj heq
      intro d' hd'
      rcases List.mem_cons.mp hd' with rfl | hd'
      · exact lt_ten_of_digitValue? hc
      · exact ih hrun d' hd'
    | none =>
      simp only [hc] at h
      split at h
      · split at h
        · exact ih h
        · cases h
      · obtain ⟨rfl, _⟩ : [] = ds ∧ c :: cs = rest := by simpa using h
        simp

theorem ofDigits_lt {ds : List Nat} (h : ∀ d ∈ ds, d < 10) : ofDigits ds < 10 ^ ds.length := by
  induction ds using List.reverseRecOn with
  | nil => simp [ofDigits]
  | append_singleton ds d ih =>
    have hds := ih fun d' hd' => h d' (List.mem_append_left _ hd')
    have hd := h d (by simp)
    rw [ofDigits_concat, List.length_append, List.length_singleton, Nat.pow_succ]
    omega

/-- A greater number has as many digits, or more. -/
theorem length_decimal_mono {m n : Nat} (h : m ≤ n) :
    (decimal m).length ≤ (decimal n).length := by
  apply length_decimal_le (List.length_pos_iff.mpr (decimal_ne_nil n))
  have hdigits : ∀ d ∈ (decimal n).map fun c => c.toNat - 0x30, d < 10 := by
    intro d hd
    obtain ⟨c, hc, rfl⟩ := List.mem_map.mp hd
    exact (isDecimal_of_mem_decimal hc).of_forall (P := fun c => c.toNat - 0x30 < 10) (by decide)
  calc m ≤ n := h
    _ = ofDigits ((decimal n).map fun c => c.toNat - 0x30) := (ofDigits_decimal n).symm
    _ < 10 ^ ((decimal n).map fun c => c.toNat - 0x30).length := ofDigits_lt hdigits
    _ = 10 ^ (decimal n).length := by rw [List.length_map]

theorem natAbs_signed (negative : Bool) (n : Nat) : (signed negative n).natAbs = n := by
  cases negative <;> simp [signed]

/-- A number that is read has not too many digits, however it was written. -/
theorem isShort_of_readInt {cs : List Char} {n : Int} (h : readInt cs = .ok n) : IsShort n := by
  unfold readInt at h
  cases hrun : readDigitRun false (readSign (trimSpaces cs)).2 with
  | none => simp [hrun] at h
  | some p =>
    obtain ⟨ds, rest⟩ := p
    simp only [hrun] at h
    split at h
    · cases h
    · split at h
      · cases h
      · rename_i hlength
        split at h
        · obtain rfl := Except.ok.inj h
          apply isShort_of_natAbs_lt
          rw [natAbs_signed]
          calc ofDigits ds < 10 ^ ds.length := ofDigits_lt (lt_ten_of_mem_readDigitRun hrun)
            _ ≤ 10 ^ maxDigits := Nat.pow_le_pow_right (by decide) (Nat.not_lt.mp hlength)
        · cases h

end Marginalia.Text
