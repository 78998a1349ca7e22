import ArrayLang.Number.Basic

/-!
# Texts of numbers

Which characters the text of a number is made of, and what it reads back as. Digits come first, for
whole numbers and then for decimals. The high minus is the sign of every number below zero; the one
number that is written with a minus sign is the negative zero (`Number.minus_mem_text_iff`), which
is not below zero.
-/

namespace ArrayLang

/-! ## Decimal digits -/

/-- Natural numbers are written in digits. -/
theorem isDigit_of_mem_toString {n : Nat} {c : Char} (h : c ∈ (toString n).toList) :
    c.isDigit = true := by
  rw [Nat.toString_eq_repr, Nat.toList_repr] at h
  exact Nat.isDigit_of_mem_toDigits (by decide) (by decide) h

theorem toList_pushn (s : String) (c : Char) (n : Nat) :
    (s.pushn c n).toList = s.toList ++ List.replicate n c := by
  induction n with
  | zero => simp [String.pushn, Nat.repeat]
  | succ n ih =>
      have hstep : s.pushn c (n + 1) = (s.pushn c n).push c := rfl
      rw [hstep, String.toList_push, ih, List.append_assoc, ← List.replicate_succ']

theorem isDigit_of_mem_zeros {n : Nat} {c : Char} (h : c ∈ ("".pushn '0' n).toList) :
    c.isDigit = true := by
  rw [toList_pushn, String.toList_empty, List.nil_append] at h
  rw [List.eq_of_mem_replicate h]
  decide

/-- In positional notation there are digits and a point. -/
theorem Decimal.isDigit_of_mem_positional {d : Decimal} {c : Char}
    (h : c ∈ d.positional.toList) : c.isDigit = true ∨ c = '.' := by
  unfold positional at h
  split at h
  · split at h
    · obtain rfl : c = '0' := by simpa using h
      exact .inl (by decide)
    · rcases List.mem_append.mp (String.toList_append ▸ h) with h | h
      · exact .inl (isDigit_of_mem_toString h)
      · exact .inl (isDigit_of_mem_zeros h)
  · -- the point stands somewhere among the padded digits
    have hdigits : ∀ k, c ∈ ("".pushn '0' k ++ toString d.digits).toList → c.isDigit = true := by
      intro k hc
      rcases List.mem_append.mp (String.toList_append ▸ hc) with hc | hc
      · exact isDigit_of_mem_zeros hc
      · exact isDigit_of_mem_toString hc
    rw [String.toList_ofList] at h
    rcases List.mem_append.mp h with h | h
    · exact .inl (hdigits _ (List.mem_of_mem_take h))
    · rcases List.mem_cons.mp h with h | h
      · exact .inr h
      · exact .inl (hdigits _ (List.mem_of_mem_drop h))

/-! ## Doubles -/

namespace Binary64

variable {x : Binary64}

/-- The double below zero with nothing to its magnitude. -/
def negativeZero : Binary64 := ⟨0x8000000000000000⟩

/-- The sign bit is the highest of the 64. -/
theorem signBit_iff : x.signBit = true ↔ x.bits.toNat = 9223372036854775808 + x.magnitude := by
  have hlt : x.bits.toNat < 18446744073709551616 := x.bits.toNat_lt
  have hpow : Nat.pow 2 63 = 9223372036854775808 := rfl
  simp only [signBit, magnitude, hpow, decide_eq_true_eq]
  omega

/-- Negative zero is the zero with a sign bit. -/
theorem eq_negativeZero_iff : x = negativeZero ↔ x.signBit = true ∧ x.isZero = true := by
  constructor
  · rintro rfl
    exact ⟨rfl, rfl⟩
  · rintro ⟨hsign, hzero⟩
    have hmagnitude : x.magnitude = 0 := by simpa [isZero] using hzero
    have hbits : x.bits.toNat = negativeZero.bits.toNat := by
      rw [signBit_iff.mp hsign, hmagnitude]
      rfl
    cases x
    exact congrArg mk (UInt64.toNat_inj.mp hbits)

/-- A double without its sign has the same magnitude. -/
theorem toNat_bits_abs (x : Binary64) : x.abs.bits.toNat = x.magnitude := by
  have hlt : x.magnitude < Nat.pow 2 63 := Nat.mod_lt _ (by decide)
  have hpow : Nat.pow 2 63 = 9223372036854775808 := rfl
  refine Nat.mod_eq_of_lt ?_
  omega

theorem signBit_abs (x : Binary64) : x.abs.signBit = false := by
  have hlt : x.magnitude < Nat.pow 2 63 := Nat.mod_lt _ (by decide)
  rw [signBit, toNat_bits_abs]
  exact decide_eq_false (Nat.not_le.mpr hlt)

/-- **A minus sign stands before a double exactly if its sign bit is set**, but for a NaN. -/
theorem minus_mem_text_iff : '-' ∈ x.text.toList ↔ x.signBit = true ∧ x.isNaN = false := by
  have hbody : '-' ∉ (if x.isInfinite then "inf" else if x.isZero then "0"
      else x.shortest.positional).toList := by
    split
    · decide
    · split
      · decide
      · intro h
        rcases Decimal.isDigit_of_mem_positional h with h | h
        · cases h
        · cases h
  cases hnan : x.isNaN with
  | true => simp [text, hnan]
  | false =>
      cases hsign : x.signBit with
      | true => simp [text, hnan, hsign]
      | false => simpa [text, hnan, hsign] using hbody

end Binary64

/-! ## Numbers -/

namespace Number

/-- Integers are written by their magnitude, with a high minus in front of negative ones. -/
theorem text_int (n : Int64) :
    (Number.int n).text = if n < 0 then "¯" ++ toString n.toInt.natAbs
      else toString n.toInt.natAbs := by
  rw [text]
  split
  · rfl
  · next h =>
      rw [Int64.lt_iff_toInt_lt] at h
      obtain ⟨k, hk⟩ := Int.eq_ofNat_of_zero_le (Int.not_lt.mp h)
      rw [hk]
      rfl

theorem of_mem_text_int {n : Int64} {c : Char} (h : c ∈ (Number.int n).text.toList) :
    c.isDigit = true ∨ c = '¯' := by
  rw [text_int] at h
  split at h
  · rcases List.mem_append.mp (String.toList_append ▸ h) with h | h
    · exact .inr (by simpa using h)
    · exact .inl (isDigit_of_mem_toString h)
  · exact .inl (isDigit_of_mem_toString h)

/-- Floats are written by their magnitude, too. Here the comparison with zero decides on the high
minus, and not the sign bit. -/
theorem text_float (x : Binary64) :
    (Number.float x).text = if x.isNegative then "¯" ++ x.abs.text else x.text := rfl

/-- **The negative zero alone is written with a minus sign.** -/
theorem minus_mem_text_iff {n : Number} :
    '-' ∈ n.text.toList ↔ n = .float .negativeZero := by
  cases n with
  | int n =>
      refine iff_of_false ?_ nofun
      intro h
      rcases of_mem_text_int h with h | h
      · cases h
      · cases h
  | float x =>
      rw [Number.float.injEq, Binary64.eq_negativeZero_iff, text_float]
      cases hneg : x.isNegative with
      | true =>
          have hzero : x.isZero = false := by
            simp [Binary64.isNegative] at hneg
            exact hneg.2
          have habs : '-' ∉ x.abs.text.toList := by
            simp [Binary64.minus_mem_text_iff, Binary64.signBit_abs]
          simp [hzero, habs]
      | false =>
          -- not below zero in spite of its sign bit: a NaN, whose sign is not shown, or a zero
          have hnan : x.isZero = true → x.isNaN = false := by
            intro hzero
            have hmagnitude : x.magnitude = 0 := by simpa [Binary64.isZero] using hzero
            simp [Binary64.isNaN, Binary64.biased, hmagnitude]
          simp [Binary64.isNegative] at hneg
          simp [Binary64.minus_mem_text_iff]
          grind

/-! ### Reading integers -/

/-- The integer that a text of digits stands for, with the high minus for its sign. -/
def readInt (s : String) : Int :=
  match s.toList with
  | '¯' :: digits => -(Nat.ofDigitChars 10 digits 0 : Nat)
  | digits => (Nat.ofDigitChars 10 digits 0 : Nat)

/-- Digits can be read back. -/
theorem ofDigitChars_toString (n : Nat) : Nat.ofDigitChars 10 (toString n).toList 0 = n := by
  rw [Nat.toString_eq_repr, Nat.toList_repr, Nat.ofDigitChars_ten_toDigits]

/-- **What is written for an integer reads back as it**, also for the least one, whose magnitude is
no integer word. -/
theorem readInt_text (n : Int64) : readInt (Number.int n).text = n.toInt := by
  have hsign : n < 0 ↔ n.toInt < 0 := Int64.lt_iff_toInt_lt
  rw [text_int]
  split
  · next h =>
      have hlt : n.toInt < 0 := hsign.mp h
      have hlist : ("¯" ++ toString n.toInt.natAbs).toList =
          '¯' :: (toString n.toInt.natAbs).toList := String.toList_append
      rw [readInt, hlist]
      show -((Nat.ofDigitChars 10 (toString n.toInt.natAbs).toList 0 : Nat) : Int) = _
      rw [ofDigitChars_toString]
      omega
  · next h =>
      have hle : ¬ n.toInt < 0 := fun hlt => h (hsign.mpr hlt)
      rw [readInt]
      split
      · next digits hdigits =>
          have hmem : '¯' ∈ (toString n.toInt.natAbs).toList := hdigits ▸ List.mem_cons_self
          cases isDigit_of_mem_toString hmem
      · rw [ofDigitChars_toString]
        omega

end Number

end ArrayLang
