import Mathlib.Data.Nat.Digits.Lemmas
import Mathlib.Tactic.Ring

set_option autoImplicit false
set_option relaxedAutoImplicit false

/-! Little-endian digit strings of a fixed length, and byte strings as numbers. -/

namespace RisePir.Lib.Digits

/-- The `n` low base-`b` digits of `x`, least significant first. -/
def digits (b : Nat) : Nat → Nat → List Nat
  | 0, _ => []
  | n + 1, x => x % b :: digits b n (x / b)

@[simp] theorem digits_length (b n x : Nat) : (digits b n x).length = n := by
  induction n generalizing x with
  | zero => rfl
  | succ n ih => simp [digits, ih]

theorem digits_lt {b : Nat} (hb : 0 < b) {n x d : Nat} (h : d ∈ digits b n x) : d < b := by
  induction n generalizing x with
  | zero => simp [digits] at h
  | succ n ih =>
      rcases List.mem_cons.mp h with rfl | h
      · exact Nat.mod_lt x hb
      · exact ih h

theorem ofDigits_digits (b n x : Nat) : Nat.ofDigits b (digits b n x) = x % b ^ n := by
  induction n generalizing x with
  | zero => simp [digits, Nat.mod_one]
  | succ n ih =>
      rw [digits, Nat.ofDigits_cons, ih, pow_succ', Nat.mod_mul]

theorem digits_ofDigits {b : Nat} {l : List Nat} (h : ∀ d ∈ l, d < b) :
    digits b l.length (Nat.ofDigits b l) = l := by
  induction l with
  | nil => rfl
  | cons d l ih =>
      have hd : d < b := h d (by simp)
      rw [List.length_cons, digits, Nat.ofDigits_cons, Nat.add_mul_mod_self_left,
        Nat.mod_eq_of_lt hd, Nat.add_mul_div_left _ _ (by omega), Nat.div_eq_of_lt hd, zero_add,
        ih fun e he => h e (List.mem_cons_of_mem d he)]

/-- The `n` low bytes of `x`, least significant first. -/
def leBytes (n x : Nat) : List UInt8 := (digits 256 n x).map UInt8.ofNat

/-- The number that a little-endian byte string spells. -/
def leNat (bytes : List UInt8) : Nat := Nat.ofDigits 256 (bytes.map UInt8.toNat)

@[simp] theorem leBytes_length (n x : Nat) : (leBytes n x).length = n := by
  simp [leBytes]

theorem leNat_leBytes (n x : Nat) : leNat (leBytes n x) = x % 256 ^ n := by
  have bytes : ((digits 256 n x).map UInt8.ofNat).map UInt8.toNat = digits 256 n x := by
    rw [List.map_map]
    conv_rhs => rw [← List.map_id (digits 256 n x)]
    refine List.map_congr_left fun d hd => ?_
    have : d < 256 := digits_lt (by omega) hd
    simp [Nat.mod_eq_of_lt this]
  rw [leNat, leBytes, bytes, ofDigits_digits]

theorem leNat_leBytes_of_lt {n x : Nat} (h : x < 256 ^ n) : leNat (leBytes n x) = x := by
  rw [leNat_leBytes, Nat.mod_eq_of_lt h]

theorem leBytes_leNat (bytes : List UInt8) : leBytes bytes.length (leNat bytes) = bytes := by
  have small : ∀ d ∈ bytes.map UInt8.toNat, d < 256 := by
    intro d hd
    obtain ⟨b, -, rfl⟩ := List.mem_map.mp hd
    exact b.toNat_lt
  have back := digits_ofDigits small
  rw [List.length_map] at back
  rw [leBytes, leNat, back, List.map_map]
  conv_rhs => rw [← List.map_id bytes]
  exact List.map_congr_left fun b _ => by simp

theorem leNat_lt (bytes : List UInt8) : leNat bytes < 256 ^ bytes.length := by
  have h := leNat_leBytes bytes.length (leNat bytes)
  rw [leBytes_leNat] at h
  rw [h]
  exact Nat.mod_lt _ (Nat.pow_pos (by omega))

theorem leNat_inj {bytes bytes' : List UInt8} (length : bytes.length = bytes'.length)
    (h : leNat bytes = leNat bytes') : bytes = bytes' := by
  rw [← leBytes_leNat bytes, ← leBytes_leNat bytes', length, h]

/-- The `width` bits of `x` from bit `shift` on. -/
def bitField (x shift width : Nat) : Nat := x / 2 ^ shift % 2 ^ width

theorem bitField_lt (x shift width : Nat) : bitField x shift width < 2 ^ width :=
  Nat.mod_lt _ (Nat.two_pow_pos width)

/-- Reading the lowest field of a packed number. -/
theorem bitField_low {low high width : Nat} (h : low < 2 ^ width) :
    bitField (low + 2 ^ width * high) 0 width = low := by
  rw [bitField, pow_zero, Nat.div_one, Nat.add_mul_mod_self_left, Nat.mod_eq_of_lt h]

/-- Reading past the lowest field of a packed number. -/
theorem bitField_high {low high skip : Nat} (h : low < 2 ^ skip) (shift width : Nat) :
    bitField (low + 2 ^ skip * high) (skip + shift) width = bitField high shift width := by
  unfold bitField
  rw [pow_add, ← Nat.div_div_eq_div_mul, Nat.add_mul_div_left _ _ (Nat.two_pow_pos skip),
    Nat.div_eq_of_lt h, zero_add]

theorem pack_lt {low high a b : Nat} (hlow : low < 2 ^ a) (hhigh : high < 2 ^ b) :
    low + 2 ^ a * high < 2 ^ (a + b) := by
  calc low + 2 ^ a * high < 2 ^ a + 2 ^ a * high := by omega
    _ = 2 ^ a * (high + 1) := by ring
    _ ≤ 2 ^ a * 2 ^ b := Nat.mul_le_mul_left _ hhigh
    _ = 2 ^ (a + b) := (pow_add 2 a b).symm

theorem two_pow_le_pow_bytes (bits : Nat) : 2 ^ bits ≤ 256 ^ ((bits + 7) / 8) := by
  calc 2 ^ bits ≤ 2 ^ (8 * ((bits + 7) / 8)) := Nat.pow_le_pow_right (by omega) (by omega)
    _ = (2 ^ 8) ^ ((bits + 7) / 8) := pow_mul 2 8 _

end RisePir.Lib.Digits
