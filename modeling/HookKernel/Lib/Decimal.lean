import Mathlib.Data.Nat.Digits.Defs

/-!
# Decimal texts of integers

`decimalText p n` is the text that `printf` gives for `%.{p}d`: a minus sign if `n` is
negative, and the digits of its absolute value, padded to `p` of them with zeros in front.

* `readInt_decimalText`: reading the text back gives the integer.
* `length_decimalText`: how long it is.
* `decimalText_chars`: the characters that occur in it.
-/

namespace HookKernel.Lib

/-- The character of a digit. -/
def asciiDigit (d : ℕ) : UInt8 := UInt8.ofNat (48 + d)

/-- The digit of a character. -/
def digitValue (b : UInt8) : ℕ := b.toNat - 48

/-- The digits of `n`, padded to `p` of them. -/
def paddedDigits (p n : ℕ) : List UInt8 :=
  List.replicate (p - (Nat.digits 10 n).length) 48 ++ (Nat.digits 10 n).reverse.map asciiDigit

/-- The text of `n`, with at least `p` digits. -/
def decimalText (p : ℕ) (n : ℤ) : List UInt8 := (if n < 0 then [45] else []) ++ paddedDigits p n.natAbs

/-- Read digits. -/
def readNat (l : List UInt8) : ℕ := Nat.ofDigits 10 (l.reverse.map digitValue)

/-- Read a sign and digits. -/
def readInt : List UInt8 → ℤ
  | 45 :: l => -(readNat l : ℤ)
  | l => readNat l

variable {p n d : ℕ}

theorem toNat_asciiDigit (h : d < 10) : (asciiDigit d).toNat = 48 + d := by
  rw [asciiDigit, UInt8.toNat_ofNat', Nat.mod_eq_of_lt (by omega)]

theorem digitValue_asciiDigit (h : d < 10) : digitValue (asciiDigit d) = d := by
  rw [digitValue, toNat_asciiDigit h]
  omega

theorem map_digitValue (n : ℕ) : ((Nat.digits 10 n).map asciiDigit).map digitValue = Nat.digits 10 n := by
  rw [List.map_map]
  refine (List.map_congr_left fun d hd => ?_).trans (List.map_id _)
  exact digitValue_asciiDigit (Nat.digits_lt_base (by omega) hd)

/-- **Reading the digits back.** -/
theorem readNat_paddedDigits (p n : ℕ) : readNat (paddedDigits p n) = n := by
  unfold readNat paddedDigits
  rw [List.reverse_append, List.reverse_replicate, List.map_reverse, List.reverse_reverse, List.map_append,
    map_digitValue, List.map_replicate]
  show Nat.ofDigits 10 (Nat.digits 10 n ++ List.replicate _ 0) = n
  rw [Nat.ofDigits_append_replicate_zero, Nat.ofDigits_digits]

theorem length_paddedDigits (p n : ℕ) : (paddedDigits p n).length = max p (Nat.digits 10 n).length := by
  unfold paddedDigits
  rw [List.length_append, List.length_replicate, List.length_map, List.length_reverse]
  omega

/-- The characters of digits. -/
theorem paddedDigits_chars {b : UInt8} (h : b ∈ paddedDigits p n) : 48 ≤ b.toNat ∧ b.toNat ≤ 57 := by
  rcases List.mem_append.1 h with h | h
  · rw [List.eq_of_mem_replicate h]
    decide
  · obtain ⟨d, hd, rfl⟩ := List.mem_map.1 h
    have hlt : d < 10 := Nat.digits_lt_base (by omega) (List.mem_reverse.1 hd)
    rw [toNat_asciiDigit hlt]
    omega

theorem readInt_of_digit {l : List UInt8} (h : ∀ b ∈ l, 48 ≤ b.toNat) : readInt l = readNat l := by
  unfold readInt
  split
  · exact absurd (h 45 List.mem_cons_self) (by decide)
  · rfl

/-- **Reading the text back.** -/
theorem readInt_decimalText (p : ℕ) (n : ℤ) : readInt (decimalText p n) = n := by
  unfold decimalText
  by_cases hn : n < 0
  · rw [if_pos hn, List.singleton_append, readInt, readNat_paddedDigits]
    omega
  · rw [if_neg hn, List.nil_append, readInt_of_digit fun b hb => (paddedDigits_chars hb).1, readNat_paddedDigits]
    omega

theorem length_decimalText (p : ℕ) (n : ℤ) :
    (decimalText p n).length = (if n < 0 then 1 else 0) + max p (Nat.digits 10 n.natAbs).length := by
  rw [decimalText, List.length_append, length_paddedDigits]
  congr 1
  split <;> rfl

/-- **The characters of the text**: the sign and digits. -/
theorem decimalText_chars {n : ℤ} {b : UInt8} (h : b ∈ decimalText p n) : b = 45 ∨ 48 ≤ b.toNat ∧ b.toNat ≤ 57 := by
  rcases List.mem_append.1 h with h | h
  · left
    split at h
    · exact List.mem_singleton.1 h
    · cases h
  · exact Or.inr (paddedDigits_chars h)

end HookKernel.Lib
