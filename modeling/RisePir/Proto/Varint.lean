import Mathlib.Tactic.Ring
import RisePir.Proto.Types

set_option autoImplicit false
set_option relaxedAutoImplicit false

/-! Unsigned varints in seven-bit groups and the zigzag folding of signed deltas: the
primitives every wire body is written with. -/

namespace RisePir.Proto.Varint

open RisePir.Proto.Types

inductive CodecError
  | badMagic
  | unexpectedEof
  | malformedVarint
  | arityMismatch (expected found : Nat)
  | countExceedsInput
  | indexOverflow
  | deltaOutOfRange
  | trailingBytes
  deriving DecidableEq, Repr

/-- The `Display` of a `CodecError`. -/
def CodecError.display : CodecError → String
  | .badMagic => "bad magic: not a RPD1 block delta"
  | .unexpectedEof => "unexpected end of input"
  | .malformedVarint => "malformed varint"
  | .arityMismatch expected found =>
      s!"arity mismatch: expected {expected}, header declared {found}"
  | .countExceedsInput => "declared count exceeds remaining input length"
  | .indexOverflow => "reconstructed row/offset index overflowed"
  | .deltaOutOfRange => "delta out of range for plaintext_bits"
  | .trailingBytes => "trailing bytes after a complete message"

/-- `write_uvarint`'s loop. A `u64` is written in at most ten groups. -/
def writeGroups : Nat → Nat → List UInt8
  | 0, _ => []
  | groups + 1, value =>
      let byte := UInt8.ofNat (value &&& 0x7f)
      if value >>> 7 = 0 then [byte] else (byte ||| 0x80) :: writeGroups groups (value >>> 7)

def writeUvarint (value : Nat) : List UInt8 := writeGroups 10 value

/-- `read_uvarint`'s loop; what is left of the input stands for the position in it. -/
def readGroups (result shift : Nat) : List UInt8 → Except CodecError (Nat × List UInt8)
  | [] => if 64 ≤ shift then .error .malformedVarint else .error .unexpectedEof
  | byte :: rest =>
      if 64 ≤ shift then .error .malformedVarint
      else
        let low7 := (byte &&& 0x7f).toNat
        let shifted := (low7 <<< shift) % 2 ^ 64
        -- bits that fell off the top
        if shifted >>> shift ≠ low7 then .error .malformedVarint
        else if byte &&& 0x80 = 0 then .ok (result ||| shifted, rest)
        else readGroups (result ||| shifted) (shift + 7) rest

def readUvarint (bytes : List UInt8) : Except CodecError (Nat × List UInt8) := readGroups 0 0 bytes

def zigzagEncode (v : Int) : Nat :=
  let w := BitVec.ofInt 64 v
  ((w <<< 1) ^^^ w.sshiftRight 63).toNat

def zigzagDecode (u : Nat) : Int :=
  let w := BitVec.ofNat 64 u
  ((w >>> 1) ^^^ -(w &&& 1#64)).toInt

/-- A declared count is capped by the bytes that remain. -/
def checkCount (count remaining : Nat) : Except CodecError Nat :=
  if count > remaining then .error .countExceedsInput else .ok count

section Uvarint

/-- A seven-bit group keeps its value and carries the continuation bit it was written with. -/
private theorem group_bits : ∀ n < 128,
    (UInt8.ofNat n &&& 0x7f).toNat = n ∧ UInt8.ofNat n &&& 0x80 = 0 ∧
      ((UInt8.ofNat n ||| 0x80) &&& 0x7f).toNat = n ∧ (UInt8.ofNat n ||| 0x80) &&& 0x80 ≠ 0 := by
  decide

private theorem shifted_group {low shift : Nat} (h : low * 2 ^ shift < 2 ^ 64) :
    (low <<< shift) % 2 ^ 64 = low * 2 ^ shift ∧ ((low <<< shift) % 2 ^ 64) >>> shift = low := by
  rw [Nat.shiftLeft_eq, Nat.mod_eq_of_lt h, Nat.shiftRight_eq_div_pow]
  exact ⟨rfl, Nat.mul_div_cancel _ (Nat.two_pow_pos shift)⟩

private theorem or_group {result low shift : Nat} (h : result < 2 ^ shift) :
    result ||| low * 2 ^ shift = result + low * 2 ^ shift := by
  rw [Nat.or_comm, ← Nat.shiftLeft_eq, ← Nat.shiftLeft_add_eq_or_of_lt h, Nat.add_comm]

/-- Reading back what was written, from any position in a number and before any input. -/
theorem readGroups_writeGroups {groups value result shift : Nat} (rest : List UInt8)
    (enough : value < 2 ^ (7 * (groups + 1))) (fits : value * 2 ^ shift < 2 ^ 64)
    (below : result < 2 ^ shift) (inside : shift < 64) :
    readGroups result shift (writeGroups (groups + 1) value ++ rest) =
      .ok (result + value * 2 ^ shift, rest) := by
  induction groups generalizing value result shift with
  | zero =>
      have small : value < 128 := by simpa using enough
      obtain ⟨hlow, hlast, -, -⟩ := group_bits value small
      have mask : value &&& 0x7f = value := by
        rw [Nat.and_two_pow_sub_one_eq_mod value 7, Nat.mod_eq_of_lt small]
      have ends : value >>> 7 = 0 := by
        rw [Nat.shiftRight_eq_div_pow]
        exact Nat.div_eq_of_lt small
      obtain ⟨hshifted, hback⟩ := shifted_group fits
      simp only [writeGroups, mask, ends, if_true, List.singleton_append, readGroups]
      rw [if_neg (by omega), hlow, hback, if_neg (by simp), if_pos hlast, hshifted, or_group below]
  | succ groups ih =>
      have hmod : value % 128 < 128 := Nat.mod_lt _ (by omega)
      obtain ⟨hlow, hlast, hlow', hmore⟩ := group_bits (value % 128) hmod
      have mask : value &&& 0x7f = value % 128 := Nat.and_two_pow_sub_one_eq_mod value 7
      have next : value >>> 7 = value / 128 := Nat.shiftRight_eq_div_pow value 7
      have split : value % 128 + 128 * (value / 128) = value := Nat.mod_add_div value 128
      have groupFits : value % 128 * 2 ^ shift < 2 ^ 64 :=
        lt_of_le_of_lt (Nat.mul_le_mul_right _ (Nat.mod_le _ _)) fits
      obtain ⟨hshifted, hback⟩ := shifted_group groupFits
      rw [writeGroups, mask, next]
      split_ifs with ends
      · rw [List.singleton_append, readGroups, if_neg (by omega)]
        dsimp only
        rw [hlow, hback, if_neg (by simp), if_pos hlast, hshifted, or_group below]
        rw [ends] at split
        rw [← split]
        simp
      · have carry : 2 ^ (shift + 7) = 128 * 2 ^ shift := by
          rw [pow_add]
          ring
        have rest' : value / 128 * 2 ^ (shift + 7) + value % 128 * 2 ^ shift = value * 2 ^ shift := by
          rw [carry]
          conv_rhs => rw [← split]
          ring
        have room : shift + 7 < 64 := by
          have one : 1 ≤ value / 128 := Nat.one_le_iff_ne_zero.mpr ends
          have grow : 2 ^ (shift + 7) < 2 ^ 64 := by
            calc 2 ^ (shift + 7) ≤ value / 128 * 2 ^ (shift + 7) := Nat.le_mul_of_pos_left _ one
              _ ≤ value * 2 ^ shift := by omega
              _ < 2 ^ 64 := fits
          exact (Nat.pow_lt_pow_iff_right (by omega)).mp grow
        have enough' : value / 128 < 2 ^ (7 * (groups + 1)) := by
          rw [Nat.div_lt_iff_lt_mul (by omega)]
          calc value < 2 ^ (7 * (groups + 1 + 1)) := enough
            _ = 2 ^ (7 * (groups + 1)) * 2 ^ 7 := by
                rw [Nat.mul_add 7 (groups + 1) 1, pow_add]
        have below' : result + value % 128 * 2 ^ shift < 2 ^ (shift + 7) := by
          rw [carry]
          have := Nat.mul_le_mul_right (2 ^ shift) (Nat.le_of_lt_succ hmod)
          omega
        rw [List.cons_append, readGroups, if_neg (by omega)]
        dsimp only
        rw [hlow', hback, if_neg (by simp), if_neg hmore, hshifted, or_group below,
          ih enough' (by omega) below' room, ← rest']
        congr 2
        omega

/-- A `u64` is read back from its groups, and the input after them is left. -/
theorem readUvarint_writeUvarint {value : Nat} (h : value < 2 ^ 64) (rest : List UInt8) :
    readUvarint (writeUvarint value ++ rest) = .ok (value, rest) := by
  have read : readGroups 0 0 (writeGroups (9 + 1) value ++ rest) = .ok (0 + value * 2 ^ 0, rest) :=
    readGroups_writeGroups rest (lt_of_lt_of_le h (Nat.pow_le_pow_right (by omega) (by omega)))
      (by simpa using h) (by simp) (by omega)
  rw [readUvarint, writeUvarint, read]
  simp

theorem writeGroups_length_pos (groups value : Nat) : 0 < (writeGroups (groups + 1) value).length := by
  rw [writeGroups]
  split <;> simp

theorem writeUvarint_length_pos (value : Nat) : 0 < (writeUvarint value).length :=
  writeGroups_length_pos 9 value

theorem writeGroups_length_le (groups value : Nat) : (writeGroups groups value).length ≤ groups := by
  induction groups generalizing value with
  | zero => exact le_rfl
  | succ groups ih =>
      rw [writeGroups]
      split
      · rw [List.length_singleton]
        omega
      · rw [List.length_cons]
        exact Nat.succ_le_succ (ih _)

theorem writeUvarint_length_le (value : Nat) : (writeUvarint value).length ≤ 10 :=
  writeGroups_length_le 10 value

private theorem readGroups_length {bytes rest : List UInt8} {result shift value : Nat}
    (h : readGroups result shift bytes = .ok (value, rest)) : rest.length < bytes.length := by
  induction bytes generalizing result shift with
  | nil =>
      rw [readGroups] at h
      split_ifs at h
  | cons byte bytes ih =>
      rw [readGroups] at h
      dsimp only at h
      split_ifs at h with _ _ ends
      · cases h
        exact Nat.lt_succ_self _
      · exact Nat.lt_succ_of_lt (ih h)

/-- A number takes at least one byte. -/
theorem readUvarint_length {bytes rest : List UInt8} {value : Nat}
    (h : readUvarint bytes = .ok (value, rest)) : rest.length < bytes.length := readGroups_length h

end Uvarint

section Zigzag

/-- The word that `zigzagDecode` computes from the one that `zigzagEncode` computed. -/
private def refolded (w : BitVec 64) : BitVec 64 :=
  (((w <<< 1) ^^^ w.sshiftRight 63) >>> 1) ^^^ -(((w <<< 1) ^^^ w.sshiftRight 63) &&& 1#64)

private theorem refolded_nonneg {w : BitVec 64} (h : w.msb = false) : refolded w = w := by
  have small := BitVec.msb_eq_false_iff_two_mul_lt.mp h
  have sign : w.sshiftRight 63 = 0#64 := by
    rw [BitVec.sshiftRight_eq_of_msb_false h]
    apply BitVec.eq_of_toNat_eq
    simp only [BitVec.toNat_ushiftRight, Nat.shiftRight_eq_div_pow, BitVec.toNat_zero]
    omega
  have low : w <<< 1 &&& 1#64 = 0#64 := by
    ext i hi
    rcases i with _ | i <;> simp
  rw [refolded, sign, BitVec.xor_zero, low]
  apply BitVec.eq_of_toNat_eq
  simp only [BitVec.neg_zero, BitVec.xor_zero, BitVec.toNat_ushiftRight, BitVec.toNat_shiftLeft,
    Nat.shiftLeft_eq, Nat.shiftRight_eq_div_pow]
  omega

private theorem refolded_neg {w : BitVec 64} (h : w.msb = true) : refolded w = w := by
  have large := BitVec.msb_eq_true_iff_two_mul_ge.mp h
  have sign : w.sshiftRight 63 = BitVec.allOnes 64 := by
    have rest : (~~~w) >>> 63 = 0#64 := by
      apply BitVec.eq_of_toNat_eq
      simp only [BitVec.toNat_ushiftRight, Nat.shiftRight_eq_div_pow, BitVec.toNat_zero,
        BitVec.toNat_not]
      omega
    rw [BitVec.sshiftRight_eq_of_msb_true h, rest]
    rfl
  have low : (w <<< 1 ^^^ BitVec.allOnes 64) &&& 1#64 = 1#64 := by
    ext i hi
    rcases i with _ | i <;> simp
  have mask : -1#64 = BitVec.allOnes 64 := by rfl
  rw [refolded, sign, low, mask, BitVec.xor_allOnes, BitVec.xor_allOnes]
  apply BitVec.eq_of_toNat_eq
  simp only [BitVec.toNat_not, BitVec.toNat_ushiftRight, BitVec.toNat_shiftLeft, Nat.shiftLeft_eq,
    Nat.shiftRight_eq_div_pow]
  omega

private theorem refolded_eq (w : BitVec 64) : refolded w = w := by
  cases h : w.msb with
  | false => exact refolded_nonneg h
  | true => exact refolded_neg h

theorem zigzagDecode_zigzagEncode {v : Int} (h : InI64 v) : zigzagDecode (zigzagEncode v) = v := by
  unfold zigzagDecode zigzagEncode
  dsimp only
  rw [BitVec.ofNat_toNat, BitVec.setWidth_eq]
  change (refolded (BitVec.ofInt 64 v)).toInt = v
  rw [refolded_eq, BitVec.toInt_ofInt]
  exact Int.bmod_eq_of_le (by simpa using h.1) (by simpa using h.2)

theorem zigzagEncode_lt (v : Int) : zigzagEncode v < 2 ^ 64 := BitVec.isLt _

end Zigzag

end RisePir.Proto.Varint
