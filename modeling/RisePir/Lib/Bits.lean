import RisePir.Lib.Digits

set_option autoImplicit false
set_option relaxedAutoImplicit false

/-! The single bits of a little-endian byte string, and two byte strings that differ in a window
of bits only. -/

namespace RisePir.Lib.Bits

open RisePir.Lib.Digits

theorem leNat_cons (b : UInt8) (bytes : List UInt8) :
    leNat (b :: bytes) = 2 ^ 8 * leNat bytes + b.toNat := by
  rw [leNat, List.map_cons, Nat.ofDigits_cons, ← leNat, Nat.add_comm]
  rfl

theorem leNat_replicate_zero (n : Nat) : leNat (List.replicate n 0) = 0 := by
  induction n with
  | zero => rfl
  | succ n ih =>
      rw [List.replicate_succ, leNat_cons, ih]
      rfl

/-- Bit `k` of a byte string is bit `k % 8` of byte `k / 8`. -/
theorem testBit_leNat (bytes : List UInt8) (k : Nat) :
    (leNat bytes).testBit k = (bytes.getD (k / 8) 0).toNat.testBit (k % 8) := by
  induction bytes generalizing k with
  | nil => simp [leNat]
  | cons b bytes ih =>
      rw [leNat_cons, Nat.testBit_two_pow_mul_add _ b.toNat_lt]
      by_cases first : k < 8
      · rw [if_pos first, Nat.div_eq_of_lt first, Nat.mod_eq_of_lt first, List.getD_cons_zero]
      · obtain ⟨later, rfl⟩ := Nat.exists_eq_add_of_le (Nat.le_of_not_lt first)
        rw [if_neg first, Nat.add_sub_cancel_left, ih, Nat.add_div_left _ (by omega),
          Nat.add_mod_left, List.getD_cons_succ]

/-- Setting a bit above a byte string's number adds its weight. -/
theorem leNat_set {bytes : List UInt8} {k : Nat} {c : UInt8} (inside : k < 8 * bytes.length)
    (free : leNat bytes < 2 ^ k)
    (set : c.toNat = (bytes.getD (k / 8) 0).toNat ||| 2 ^ (k % 8)) :
    leNat (bytes.set (k / 8) c) = leNat bytes + 2 ^ k := by
  have sum : leNat bytes + 2 ^ k = 2 ^ k * 1 + leNat bytes := by omega
  rw [sum]
  apply Nat.eq_of_testBit_eq
  intro m
  have byte : ((bytes.set (k / 8) c).getD (m / 8) 0).toNat.testBit (m % 8) =
      ((leNat bytes).testBit m || decide (k = m)) := by
    rw [testBit_leNat, List.getD_eq_getElem?_getD, List.getElem?_set, List.getD_eq_getElem?_getD]
    by_cases same : k / 8 = m / 8
    · rw [if_pos same, if_pos (by omega), Option.getD_some, set, Nat.testBit_or, Nat.testBit_two_pow,
        same, List.getD_eq_getElem?_getD]
      congr 1
      apply decide_eq_decide.mpr
      omega
    · rw [if_neg same, decide_eq_false (show ¬ k = m from fun h => same (h ▸ rfl)), Bool.or_false]
  rw [testBit_leNat, byte, Nat.testBit_two_pow_mul_add _ free]
  rcases Nat.lt_trichotomy m k with below | rfl | above
  · rw [if_pos below, decide_eq_false (by omega), Bool.or_false]
  · rw [if_neg (lt_irrefl m), decide_eq_true rfl, Bool.or_true, Nat.sub_self]
    rfl
  · have gone : leNat bytes < 2 ^ m :=
      lt_trans free (Nat.pow_lt_pow_right (by omega) above)
    obtain ⟨d, hd⟩ : ∃ d, m - k = d + 1 := ⟨m - k - 1, by omega⟩
    rw [if_neg (by omega), Nat.testBit_lt_two_pow gone, decide_eq_false (by omega), hd,
      Nat.testBit_succ]
    simp

theorem testBit_bitField (x shift width k : Nat) :
    (bitField x shift width).testBit k = (decide (k < width) && x.testBit (shift + k)) := by
  rw [bitField, Nat.testBit_mod_two_pow, Nat.testBit_div_two_pow, Nat.add_comm]

/-- A field is determined by its bits. -/
theorem bitField_congr {x y shift width : Nat}
    (h : ∀ k, shift ≤ k → k < shift + width → x.testBit k = y.testBit k) :
    bitField x shift width = bitField y shift width := by
  apply Nat.eq_of_testBit_eq
  intro k
  rw [testBit_bitField, testBit_bitField]
  by_cases inside : k < width
  · rw [h (shift + k) (by omega) (by omega)]
  · simp [inside]

/-- The second byte string has the first one's length and its bits outside the window. -/
structure DiffersWithin (lo hi : Nat) (bytes bytes' : List UInt8) : Prop where
  length : bytes'.length = bytes.length
  outside : ∀ k, ¬ (lo ≤ k ∧ k < hi) → (leNat bytes').testBit k = (leNat bytes).testBit k

namespace DiffersWithin

variable {lo hi : Nat} {bytes bytes' : List UInt8}

theorem bitField_eq (h : DiffersWithin lo hi bytes bytes') {shift width : Nat}
    (apart : shift + width ≤ lo ∨ hi ≤ shift) :
    bitField (leNat bytes') shift width = bitField (leNat bytes) shift width := by
  apply bitField_congr
  intro k low high
  exact h.outside k (by omega)

/-- Different byte strings differ in the window. -/
theorem exists_bit (h : DiffersWithin lo hi bytes bytes') (different : bytes' ≠ bytes) :
    ∃ k, lo ≤ k ∧ k < hi ∧ (leNat bytes').testBit k ≠ (leNat bytes).testBit k := by
  by_contra none
  apply different
  apply leNat_inj h.length
  apply Nat.eq_of_testBit_eq
  intro k
  by_contra bit
  by_cases inside : lo ≤ k ∧ k < hi
  · exact none ⟨k, inside.1, inside.2, bit⟩
  · exact bit (h.outside k inside)

end DiffersWithin

/-- The bytes of a number, bit by bit. -/
theorem testBit_leBytes {n x i : Nat} (hi : i < n) (k : Nat) :
    ((leBytes n x).getD i 0).toNat.testBit k = (decide (k < 8) && x.testBit (8 * i + k)) := by
  by_cases inside : k < 8
  · have read := testBit_leNat (leBytes n x) (8 * i + k)
    have index : (8 * i + k) / 8 = i := by omega
    have offset : (8 * i + k) % 8 = k := by omega
    have position : 8 * i + k < 8 * n := by omega
    have modulus : 256 ^ n = 2 ^ (8 * n) := (pow_mul 2 8 n).symm
    rw [index, offset, leNat_leBytes, modulus, Nat.testBit_mod_two_pow, decide_eq_true position,
      Bool.true_and] at read
    rw [← read, decide_eq_true inside, Bool.true_and]
  · have small : ((leBytes n x).getD i 0).toNat < 2 ^ k :=
      lt_of_lt_of_le (UInt8.toNat_lt _) (Nat.pow_le_pow_right (by omega) (by omega))
    rw [Nat.testBit_lt_two_pow small, decide_eq_false inside, Bool.false_and]

end RisePir.Lib.Bits
