import RisePir.Lib.Bits
import RisePir.Lib.Splice
import RisePir.Proto.Value

set_option autoImplicit false
set_option relaxedAutoImplicit false

/-! The value codec bit by bit: the loops over a byte buffer, which panic where an index leaves the
buffer, and what they come to in numbers. -/

namespace RisePir.Proto.ValueBits

open RisePir.Lib.Bits
open RisePir.Lib.Digits
open RisePir.Lib.Splice
open RisePir.Proto.Types
open RisePir.Proto.Value

section Loops

/-- `buf[byte_idx]`, whose index panics past the end. -/
def byteAt (buf : List UInt8) (bitPos : Nat) : Option UInt8 := buf[bitPos / 8]?

/-- `write_bits` at a bit position; `none` where it panics. -/
def writeBits (buf : List UInt8) (bitPos value numBits : Nat) : Option (List UInt8) :=
  (List.range numBits).foldlM (fun buf i =>
    if (value >>> i) &&& 1 = 1 then
      (byteAt buf (bitPos + i)).map fun byte =>
        buf.set ((bitPos + i) / 8) (byte ||| (1 <<< UInt8.ofNat ((bitPos + i) % 8)))
    else some buf) buf

/-- `read_bits` at a bit position; `none` where it panics. -/
def readBits (buf : List UInt8) (bitPos numBits : Nat) : Option Nat :=
  (List.range numBits).foldlM (fun value i =>
    (byteAt buf (bitPos + i)).map fun byte =>
      if byte &&& (1 <<< UInt8.ofNat ((bitPos + i) % 8)) ≠ 0 then value ||| 1 <<< i else value) 0

theorem mask_bits : ∀ n < 8, ∀ m < 256,
    (UInt8.ofNat m &&& (1 <<< UInt8.ofNat n) ≠ 0 ↔ m.testBit n = true) ∧
      (UInt8.ofNat m ||| (1 <<< UInt8.ofNat n)).toNat = m ||| 2 ^ n := by
  decide +kernel

theorem and_mask (byte : UInt8) {n : Nat} (hn : n < 8) :
    byte &&& (1 <<< UInt8.ofNat n) ≠ 0 ↔ byte.toNat.testBit n = true := by
  have bit := (mask_bits n hn byte.toNat byte.toNat_lt).1
  rwa [UInt8.ofNat_toNat] at bit

theorem or_mask (byte : UInt8) {n : Nat} (hn : n < 8) :
    (byte ||| (1 <<< UInt8.ofNat n)).toNat = byte.toNat ||| 2 ^ n := by
  have bit := (mask_bits n hn byte.toNat byte.toNat_lt).2
  rwa [UInt8.ofNat_toNat] at bit

theorem byteAt_eq {buf : List UInt8} {bitPos : Nat} (inside : bitPos < 8 * buf.length) :
    byteAt buf bitPos = some (buf.getD (bitPos / 8) 0) := by
  have index : bitPos / 8 < buf.length := by omega
  rw [byteAt, List.getElem?_eq_getElem index, List.getD_eq_getElem _ _ index]

/-- Reading within the buffer reads a field of its number. -/
theorem readBits_eq {buf : List UInt8} {bitPos numBits : Nat}
    (inside : bitPos + numBits ≤ 8 * buf.length) :
    readBits buf bitPos numBits = some (bitField (leNat buf) bitPos numBits) := by
  induction numBits with
  | zero =>
      rw [readBits, List.range_zero, List.foldlM_nil, bitField, pow_zero, Nat.mod_one]
      rfl
  | succ n ih =>
      have earlier := ih (by omega)
      rw [readBits] at earlier
      rw [readBits, List.range_succ, List.foldlM_append, earlier, Option.bind_eq_bind,
        Option.bind_some, List.foldlM_cons, byteAt_eq (show bitPos + n < 8 * buf.length by omega)]
      simp only [List.foldlM_nil, Option.map_some, Option.bind_eq_bind, Option.bind_some,
        Option.pure_def, Option.some.injEq]
      have bit := testBit_leNat buf (bitPos + n)
      have mask := and_mask (buf.getD ((bitPos + n) / 8) 0) (Nat.mod_lt (bitPos + n) (show 0 < 8 by omega))
      rw [← bit] at mask
      apply Nat.eq_of_testBit_eq
      intro k
      have value : (if buf.getD ((bitPos + n) / 8) 0 &&& (1 <<< UInt8.ofNat ((bitPos + n) % 8)) ≠ 0 then
            bitField (leNat buf) bitPos n ||| 1 <<< n else bitField (leNat buf) bitPos n).testBit k =
          ((decide (k < n) && (leNat buf).testBit (bitPos + k)) ||
            (decide (k = n) && (leNat buf).testBit (bitPos + n))) := by
        by_cases set : (leNat buf).testBit (bitPos + n) = true
        · rw [if_pos (mask.mpr set), Nat.testBit_or, testBit_bitField, Nat.one_shiftLeft,
            Nat.testBit_two_pow, set, Bool.and_true]
          simp only [eq_comm]
        · rw [if_neg (mt mask.mp set), testBit_bitField, Bool.eq_false_of_not_eq_true set, Bool.and_false,
            Bool.or_false]
      rw [value, testBit_bitField]
      rcases Nat.lt_trichotomy k n with below | rfl | above
      · simp [below, Nat.lt_succ_of_lt below, Nat.ne_of_lt below]
      · simp
      · simp [Nat.not_lt_of_gt above, Nat.ne_of_gt above, show ¬ k < n + 1 by omega]

/-- Writing behind the bits of a buffer adds the value above them. -/
theorem writeBits_eq {buf : List UInt8} {bitPos numBits : Nat} (value : Nat)
    (inside : bitPos + numBits ≤ 8 * buf.length) (free : leNat buf < 2 ^ bitPos) :
    ∃ buf', writeBits buf bitPos value numBits = some buf' ∧ buf'.length = buf.length ∧
      leNat buf' = leNat buf + 2 ^ bitPos * (value % 2 ^ numBits) := by
  induction numBits with
  | zero => exact ⟨buf, rfl, rfl, by rw [pow_zero, Nat.mod_one, Nat.mul_zero, Nat.add_zero]⟩
  | succ n ih =>
      obtain ⟨buf', written, length, number⟩ := ih (by omega)
      rw [writeBits] at written
      rw [writeBits, List.range_succ, List.foldlM_append, written, Option.bind_eq_bind,
        Option.bind_some, List.foldlM_cons, byteAt_eq (show bitPos + n < 8 * buf'.length by omega)]
      have low : leNat buf' < 2 ^ (bitPos + n) := by
        rw [number]
        exact pack_lt free (Nat.mod_lt _ (Nat.two_pow_pos n))
      have value_bit : (value >>> n) &&& 1 = value / 2 ^ n % 2 := by
        rw [Nat.and_one_is_mod, Nat.shiftRight_eq_div_pow]
      have sum : 2 ^ bitPos * (value % 2 ^ (n + 1)) =
          2 ^ bitPos * (value % 2 ^ n) + 2 ^ (bitPos + n) * (value / 2 ^ n % 2) := by
        rw [Nat.mod_pow_succ, Nat.mul_add, pow_add, Nat.mul_assoc]
      rw [value_bit, sum]
      by_cases set : value / 2 ^ n % 2 = 1
      · rw [if_pos set, set]
        refine ⟨_, rfl, by rw [List.length_set, length], ?_⟩
        rw [leNat_set (by omega) low (or_mask _ (Nat.mod_lt _ (by omega))), number]
        omega
      · have zero : value / 2 ^ n % 2 = 0 := by omega
        rw [if_neg set, zero]
        exact ⟨buf', rfl, length, by rw [number, Nat.mul_zero, Nat.add_zero]⟩

end Loops

section Codec

variable (codec : ValueCodec)

/-- `fits_balance_bits`, whose shift would overflow at 128. -/
def fitsBalanceBits (balance : Balance) : Bool :=
  if 128 ≤ codec.balanceBits then true else balance < 1 <<< codec.balanceBits

/-- `extract_key_tag`. -/
def extractKeyTag (valueBytes : List UInt8) : Option Nat :=
  readBits valueBytes 0 codec.keyTagBits

/-- `encode`. -/
def encode (addr : AddressHash) (balance : Balance) : Option (Except ValueError (List UInt8)) :=
  match codec.checkWidths with
  | .error e => some (.error e)
  | .ok () =>
      if fitsBalanceBits codec balance then do
        let buf ← writeBits (List.replicate codec.numBytes 0) 0 (codec.keyTag addr) codec.keyTagBits
        let buf ← writeBits buf codec.keyTagBits balance codec.balanceBits
        let buf ← writeBits buf (codec.keyTagBits + codec.balanceBits) (codec.checksum balance)
          codec.checksumBits
        return .ok buf
      else some (.error .balanceOverflow)

/-- `decode`. -/
def decode (addr : AddressHash) (valueBytes : List UInt8) : Option Lookup :=
  match codec.checkWidths with
  | .error _ => some .decodeFailed
  | .ok () =>
      if valueBytes.length ≠ codec.numBytes then some .decodeFailed
      else do
        let storedKeyTag ← readBits valueBytes 0 codec.keyTagBits
        let balance ← readBits valueBytes codec.keyTagBits codec.balanceBits
        let storedChecksum ← readBits valueBytes (codec.keyTagBits + codec.balanceBits)
          codec.checksumBits
        return if storedKeyTag ≠ codec.keyTag addr then .notFound
          else if storedChecksum ≠ codec.checksum balance then .decodeFailed
          else .found balance

variable {codec}

theorem numBytes_ge (codec : ValueCodec) :
    codec.keyTagBits + codec.balanceBits + codec.checksumBits ≤ 8 * codec.numBytes := by
  rw [ValueCodec.numBytes, ValueCodec.valueBits]
  omega

theorem fitsBalanceBits_eq {balance : Balance} (word : balance < 2 ^ 128) :
    fitsBalanceBits codec balance = codec.fitsBalanceBits balance := by
  rw [fitsBalanceBits, ValueCodec.fitsBalanceBits]
  by_cases wide : 128 ≤ codec.balanceBits
  · have fits : balance < 2 ^ codec.balanceBits :=
      lt_of_lt_of_le word (Nat.pow_le_pow_right (by omega) wide)
    rw [if_pos wide, decide_eq_true fits]
  · rw [if_neg wide, Nat.one_shiftLeft]

/-- The bit loops write the packed fields. -/
theorem encode_eq {addr : AddressHash} {balance : Balance} (word : balance < 2 ^ 128) :
    encode codec addr balance = some (codec.encode addr balance) := by
  rw [encode, ValueCodec.encode]
  cases codec.checkWidths with
  | error e => rfl
  | ok u =>
      dsimp only
      rw [fitsBalanceBits_eq word]
      by_cases fits : codec.fitsBalanceBits balance = true
      · have room := numBytes_ge codec
        have tag := @ValueCodec.keyTag_lt codec addr
        have small : balance < 2 ^ codec.balanceBits := of_decide_eq_true fits
        have zeros := leNat_replicate_zero codec.numBytes
        obtain ⟨b₁, w₁, l₁, n₁⟩ := @writeBits_eq (List.replicate codec.numBytes 0) 0 codec.keyTagBits
          (codec.keyTag addr) (by rw [List.length_replicate]; omega) (by rw [zeros]; simp)
        rw [List.length_replicate] at l₁
        rw [zeros, pow_zero, Nat.one_mul, Nat.zero_add, Nat.mod_eq_of_lt tag] at n₁
        obtain ⟨b₂, w₂, l₂, n₂⟩ := @writeBits_eq b₁ codec.keyTagBits codec.balanceBits balance
          (by omega) (by omega)
        rw [l₁] at l₂
        rw [n₁, Nat.mod_eq_of_lt small] at n₂
        obtain ⟨b₃, w₃, l₃, n₃⟩ := @writeBits_eq b₂ (codec.keyTagBits + codec.balanceBits)
          codec.checksumBits (codec.checksum balance) (by omega) (by rw [n₂]; exact pack_lt tag small)
        rw [l₂] at l₃
        rw [n₂, Nat.mod_eq_of_lt (ValueCodec.checksum_lt balance)] at n₃
        have number : leNat b₃ =
            codec.packFields (codec.keyTag addr) balance (codec.checksum balance) := by
          rw [n₃, ValueCodec.packFields]
          ring
        have bytes : b₃ = leBytes codec.numBytes
            (codec.packFields (codec.keyTag addr) balance (codec.checksum balance)) := by
          rw [← number, ← l₃, leBytes_leNat]
        rw [if_pos fits, if_pos fits, w₁, ← bytes]
        simp only [Option.bind_eq_bind, Option.bind_some, w₂, w₃]
        rfl
      · rw [if_neg fits, if_neg fits]

/-- The bit loops read the fields of the number, and never leave the buffer. -/
theorem decode_eq (addr : AddressHash) (bytes : List UInt8) :
    decode codec addr bytes = some (codec.decode addr bytes) := by
  rw [decode, ValueCodec.decode]
  cases codec.checkWidths with
  | error e => rfl
  | ok u =>
      dsimp only
      by_cases length : bytes.length ≠ codec.numBytes
      · rw [if_pos length, if_pos length]
      · have room := numBytes_ge codec
        rw [if_neg length, if_neg length, readBits_eq (by omega), readBits_eq (by omega),
          readBits_eq (by omega)]
        rfl

end Codec

section Checksum

/-- The hash of further bytes. -/
def fnvFrom (hash : BitVec 64) (bytes : List UInt8) : BitVec 64 :=
  bytes.foldl (fun hash b => (hash ^^^ BitVec.ofNat 64 b.toNat) * FNV_PRIME) hash

theorem fnvFrom_cons (hash : BitVec 64) (b : UInt8) (bytes : List UInt8) : fnvFrom hash (b :: bytes) =
    fnvFrom ((hash ^^^ BitVec.ofNat 64 b.toNat) * FNV_PRIME) bytes := rfl

/-- The prime is odd, so a step loses nothing of the low byte. -/
theorem low_step_inj {h h' : BitVec 64} {b b' : UInt8}
    (same : ((h ^^^ BitVec.ofNat 64 b.toNat) * FNV_PRIME).setWidth 8 =
      ((h' ^^^ BitVec.ofNat 64 b'.toNat) * FNV_PRIME).setWidth 8) :
    h.setWidth 8 ^^^ BitVec.ofNat 8 b.toNat = h'.setWidth 8 ^^^ BitVec.ofNat 8 b'.toNat := by
  have inverse : FNV_PRIME.setWidth 8 * 123#8 = 1#8 := by decide
  rw [BitVec.setWidth_mul _ _ (by omega), BitVec.setWidth_mul _ _ (by omega)] at same
  have undone := congrArg (· * 123#8) same
  simp only [BitVec.mul_assoc, inverse, BitVec.mul_one, BitVec.setWidth_xor] at undone
  rwa [BitVec.setWidth_ofNat_of_le (by omega), BitVec.setWidth_ofNat_of_le (by omega)] at undone

/-- Hashes that differ in their low byte do so behind any further bytes. -/
theorem fnvFrom_low_ne {h h' : BitVec 64} (different : h.setWidth 8 ≠ h'.setWidth 8)
    (bytes : List UInt8) : (fnvFrom h bytes).setWidth 8 ≠ (fnvFrom h' bytes).setWidth 8 := by
  induction bytes generalizing h h' with
  | nil => exact different
  | cons b bytes ih =>
      rw [fnvFrom_cons, fnvFrom_cons]
      refine ih fun same => ?_
      exact different ((BitVec.xor_left_inj _).mp (low_step_inj same))

/-- Byte strings that differ in one byte have hashes that differ in their low byte. -/
theorem fnvFrom_differs {bytes bytes' : List UInt8} (length : bytes.length = bytes'.length) {i : Nat}
    (others : ∀ k, k ≠ i → bytes.getD k 0 = bytes'.getD k 0)
    (here : bytes.getD i 0 ≠ bytes'.getD i 0) (hash : BitVec 64) :
    (fnvFrom hash bytes).setWidth 8 ≠ (fnvFrom hash bytes').setWidth 8 := by
  induction bytes generalizing bytes' i hash with
  | nil =>
      obtain rfl := List.length_eq_zero_iff.mp length.symm
      exact absurd rfl here
  | cons b bytes ih =>
      obtain ⟨b', bytes', rfl⟩ := List.exists_cons_of_length_eq_add_one length.symm
      cases i with
      | zero =>
          have tails : bytes = bytes' := by
            apply ext_getD 0 (Nat.succ.inj length)
            intro k _
            exact others (k + 1) (Nat.succ_ne_zero k)
          subst tails
          rw [fnvFrom_cons, fnvFrom_cons]
          refine fnvFrom_low_ne (fun same => ?_) bytes
          have bytes_eq := (BitVec.xor_right_inj _).mp (low_step_inj same)
          apply here
          apply UInt8.toNat_inj.mp
          have number := congrArg BitVec.toNat bytes_eq
          rwa [BitVec.toNat_ofNat, BitVec.toNat_ofNat, Nat.mod_eq_of_lt b.toNat_lt,
            Nat.mod_eq_of_lt b'.toNat_lt] at number
      | succ i =>
          have heads : b = b' := others 0 (Nat.succ_ne_zero i).symm
          subst heads
          rw [fnvFrom_cons, fnvFrom_cons]
          exact ih (Nat.succ.inj length) (fun k hk => others (k + 1) (by omega)) here _

/-- The low byte of a checksum is the hash's. -/
theorem checksum_low {codec : ValueCodec} (wide : 8 ≤ codec.checksumBits) (balance : Balance) :
    codec.checksum balance % 2 ^ 8 = ((fnvFrom FNV_OFFSET_BASIS
      ((leBytes 16 balance).take ((codec.balanceBits + 7) / 8))).setWidth 8).toNat := by
  rw [ValueCodec.checksum, if_neg (by omega), BitVec.toNat_setWidth]
  dsimp only
  split
  · rfl
  · exact Nat.mod_mod_of_dvd _ (Nat.pow_dvd_pow 2 wide)

end Checksum

section Detection

variable {codec : ValueCodec} {addr : AddressHash} {balance : Balance} {bytes bytes' : List UInt8}

/-- The window of byte `i` of the balance within an encoding. -/
def balanceByte (codec : ValueCodec) (i : Nat) : Nat × Nat :=
  (codec.keyTagBits + 8 * i, codec.keyTagBits + min (8 * i + 8) codec.balanceBits)

private theorem getD_take_leBytes {n k : Nat} (hk : k < n) (x : Nat) :
    ((leBytes 16 x).take n).getD k 0 = (leBytes 16 x).getD k 0 := by
  rw [List.getD_eq_getElem?_getD, List.getElem?_take_of_lt hk, ← List.getD_eq_getElem?_getD]

/-- A byte of a number's little-endian representation, read off its bits. -/
private theorem byte_congr {n k x y : Nat} (hk : k < n) (hn : n ≤ 16)
    (bits : ∀ m, m < 8 → x.testBit (8 * k + m) = y.testBit (8 * k + m)) :
    ((leBytes 16 x).take n).getD k 0 = ((leBytes 16 y).take n).getD k 0 := by
  rw [getD_take_leBytes hk, getD_take_leBytes hk]
  apply UInt8.toNat_inj.mp
  apply Nat.eq_of_testBit_eq
  intro m
  rw [testBit_leBytes (by omega), testBit_leBytes (by omega)]
  by_cases inside : m < 8
  · rw [bits m inside]
  · rw [decide_eq_false inside, Bool.false_and, Bool.false_and]

/-- Other bits in one byte of the balance make another checksum. -/
theorem checksum_ne {i x y : Nat} (valid : codec.ValidWidths) (wide : 8 ≤ codec.checksumBits)
    (others : ∀ m, ¬ (8 * i ≤ m ∧ m < 8 * i + 8) → x.testBit m = y.testBit m)
    {k : Nat} (hk : k < 8) (inside : 8 * i + k < codec.balanceBits)
    (here : x.testBit (8 * i + k) ≠ y.testBit (8 * i + k)) :
    codec.checksum x ≠ codec.checksum y := by
  have short : (codec.balanceBits + 7) / 8 ≤ 16 := by
    have := valid.2.1
    omega
  have counted : i < (codec.balanceBits + 7) / 8 := by omega
  intro same
  have low := congrArg (· % 2 ^ 8) same
  simp only [checksum_low wide] at low
  have length : ((leBytes 16 x).take ((codec.balanceBits + 7) / 8)).length =
      ((leBytes 16 y).take ((codec.balanceBits + 7) / 8)).length := by
    rw [List.length_take, List.length_take, leBytes_length, leBytes_length]
  have apart : ∀ m, m ≠ i → ((leBytes 16 x).take ((codec.balanceBits + 7) / 8)).getD m 0 =
      ((leBytes 16 y).take ((codec.balanceBits + 7) / 8)).getD m 0 := by
    intro m hm
    by_cases counted' : m < (codec.balanceBits + 7) / 8
    · apply byte_congr counted' short
      intro b hb
      exact others (8 * m + b) (by omega)
    · rw [List.getD_eq_default, List.getD_eq_default] <;> rw [List.length_take] <;> omega
  have byte : ((leBytes 16 x).take ((codec.balanceBits + 7) / 8)).getD i 0 ≠
      ((leBytes 16 y).take ((codec.balanceBits + 7) / 8)).getD i 0 := by
    rw [getD_take_leBytes counted, getD_take_leBytes counted]
    intro byte
    have bit := congrArg (fun b : UInt8 => b.toNat.testBit k) byte
    simp only [testBit_leBytes (show i < 16 by omega), decide_eq_true hk, Bool.true_and] at bit
    exact here bit
  exact fnvFrom_differs length apart byte FNV_OFFSET_BASIS (BitVec.eq_of_toNat_eq low)

/-- Other bits in one byte of an encoding's balance are noticed. -/
theorem decode_corrupted (wide : 8 ≤ codec.checksumBits) (h : codec.encode addr balance = .ok bytes)
    {i : Nat} (within : DiffersWithin (balanceByte codec i).1 (balanceByte codec i).2 bytes bytes')
    (different : bytes' ≠ bytes) : codec.decode addr bytes' = .decodeFailed := by
  have fits := ValueCodec.encodable_of_encode_ok h
  obtain ⟨k, low, high, bit⟩ := within.exists_bit different
  dsimp only [balanceByte] at low high within
  have tag : bitField (leNat bytes') 0 codec.keyTagBits = codec.keyTag addr :=
    (within.bitField_eq (.inl (by omega))).trans (ValueCodec.extractKeyTag_encode h)
  have sum : bitField (leNat bytes') (codec.keyTagBits + codec.balanceBits) codec.checksumBits =
      codec.checksum balance :=
    (within.bitField_eq (.inr (by omega))).trans (ValueCodec.checksum_field h)
  have others : ∀ m, ¬ (8 * i ≤ m ∧ m < 8 * i + 8) →
      (bitField (leNat bytes') codec.keyTagBits codec.balanceBits).testBit m =
        balance.testBit m := by
    intro m apart
    rw [← ValueCodec.balance_field h, testBit_bitField, testBit_bitField]
    by_cases inside : m < codec.balanceBits
    · rw [within.outside (codec.keyTagBits + m) (by omega)]
    · rw [decide_eq_false inside, Bool.false_and, Bool.false_and]
  obtain ⟨d, rfl⟩ : ∃ d, k = codec.keyTagBits + (8 * i + d) :=
    ⟨k - codec.keyTagBits - 8 * i, by omega⟩
  have here : (bitField (leNat bytes') codec.keyTagBits codec.balanceBits).testBit (8 * i + d) ≠
      balance.testBit (8 * i + d) := by
    rw [← ValueCodec.balance_field h, testBit_bitField, testBit_bitField,
      decide_eq_true (show 8 * i + d < codec.balanceBits by omega), Bool.true_and, Bool.true_and]
    exact bit
  have noticed := checksum_ne fits.1 wide others (show d < 8 by omega) (by omega) here
  unfold ValueCodec.decode
  rw [ValueCodec.checkWidths_eq_ok.mpr fits.1]
  dsimp only
  rw [if_neg (not_not.mpr (within.length.trans (ValueCodec.length_encode h))), tag,
    if_neg (not_not.mpr rfl), sum, if_pos noticed.symm]

/-- A value is not found under another tag. -/
theorem decode_other_tag {addr' : AddressHash} (h : codec.encode addr balance = .ok bytes)
    (other : codec.keyTag addr' ≠ codec.keyTag addr) : codec.decode addr' bytes = .notFound := by
  have fits := ValueCodec.encodable_of_encode_ok h
  have tag : bitField (leNat bytes) 0 codec.keyTagBits = codec.keyTag addr :=
    ValueCodec.extractKeyTag_encode h
  unfold ValueCodec.decode
  rw [ValueCodec.checkWidths_eq_ok.mpr fits.1]
  dsimp only
  rw [if_neg (not_not.mpr (ValueCodec.length_encode h)), tag, if_pos other.symm]

/-- `extract_key_tag` of an encoding stays within it. -/
theorem extractKeyTag_eq (h : codec.encode addr balance = .ok bytes) :
    extractKeyTag codec bytes = some (codec.keyTag addr) := by
  have room := numBytes_ge codec
  have length := ValueCodec.length_encode h
  rw [extractKeyTag, readBits_eq (by omega), ← ValueCodec.extractKeyTag_encode h]
  rfl

end Detection

section Soundness

variable {codec : ValueCodec} (valid : codec.ValidWidths) (addr : AddressHash) (balance : Balance)
  (word : balance < 2 ^ 128)

include valid word in
/-- A codec of legal widths never panics, encodes exactly the balances that fit, reads back what it
encoded, and with a checksum of a byte or more notices every change within one byte of the
balance. -/
theorem value_codec_sound :
    ((∃ bytes, encode codec addr balance = some (.ok bytes)) ↔ balance < 2 ^ codec.balanceBits) ∧
      (¬ balance < 2 ^ codec.balanceBits →
        encode codec addr balance = some (.error .balanceOverflow)) ∧
      (∀ (addr' : AddressHash) (bytes : List UInt8),
        ∃ outcome, decode codec addr' bytes = some outcome) ∧
      ∀ bytes, encode codec addr balance = some (.ok bytes) →
        bytes.length = codec.numBytes ∧ leNat bytes < 2 ^ codec.valueBits ∧
          extractKeyTag codec bytes = some (codec.keyTag addr) ∧
          decode codec addr bytes = some (.found balance) ∧
          (∀ addr', codec.keyTag addr' ≠ codec.keyTag addr →
            decode codec addr' bytes = some .notFound) ∧
          (8 ≤ codec.checksumBits → ∀ i bytes', bytes' ≠ bytes →
            DiffersWithin (balanceByte codec i).1 (balanceByte codec i).2 bytes bytes' →
              decode codec addr bytes' = some .decodeFailed) := by
  rw [encode_eq word]
  simp only [decode_eq, Option.some.injEq]
  refine ⟨⟨?_, ?_⟩, ?_, ?_, ?_⟩
  · rintro ⟨bytes, h⟩
    exact (ValueCodec.encodable_of_encode_ok h).2
  · intro fits
    exact ⟨_, ValueCodec.encode_ok ⟨valid, fits⟩⟩
  · intro large
    rw [ValueCodec.encode, ValueCodec.checkWidths_eq_ok.mpr valid]
    dsimp only
    rw [ValueCodec.fitsBalanceBits, if_neg (by simpa using large)]
  · intro addr' bytes
    exact ⟨_, rfl⟩
  · intro bytes h
    refine ⟨ValueCodec.length_encode h, ValueCodec.leNat_encode_lt h, extractKeyTag_eq h,
      ValueCodec.decode_encode h, ?_, ?_⟩
    · intro addr' other
      exact decode_other_tag h other
    · intro wide i bytes' different within
      exact decode_corrupted wide h within different

/-- Three fields at unaligned positions: 12, 20 and 8 bits. -/
def unalignedCodec : ValueCodec := ⟨12, 20, 8, fun bytes _ => BitVec.ofNat 64 (leNat bytes)⟩

theorem value_codec_sound_unaligned :
    encode unalignedCodec 5 (2 ^ 20) = some (.error .balanceOverflow) ∧
      ∃ bytes, encode unalignedCodec 5 1000 = some (.ok bytes) ∧ bytes.length = 5 ∧
        decode unalignedCodec 5 bytes = some (.found 1000) ∧
        (∀ other, unalignedCodec.keyTag other ≠ unalignedCodec.keyTag 5 →
          decode unalignedCodec other bytes = some .notFound) ∧
        ∀ i bytes', bytes' ≠ bytes →
          DiffersWithin (balanceByte unalignedCodec i).1 (balanceByte unalignedCodec i).2 bytes bytes' →
            decode unalignedCodec 5 bytes' = some .decodeFailed := by
  have valid : unalignedCodec.ValidWidths := by decide
  obtain ⟨-, refused, -, -⟩ := value_codec_sound valid 5 (2 ^ 20) (by decide)
  obtain ⟨encodes, -, -, sound⟩ := value_codec_sound valid 5 1000 (by decide)
  obtain ⟨bytes, encoded⟩ := encodes.mpr (by decide)
  obtain ⟨length, -, -, own, others, changed⟩ := sound bytes encoded
  exact ⟨refused (by decide), bytes, encoded, length, own, others, changed (by decide)⟩

end Soundness

end RisePir.Proto.ValueBits
