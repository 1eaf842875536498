import RisePir.Lib.Digits
import RisePir.Proto.Types

set_option autoImplicit false
set_option relaxedAutoImplicit false

/-! The value codec: `key_tag ‖ balance ‖ checksum` as one little-endian bit
string. A byte buffer's bit string is read as the number `leNat` of it. -/

namespace RisePir.Proto.Value

open RisePir.Lib.Digits
open RisePir.Proto.Types

/-- Outcome of decoding a slot's value bytes against a claimed address. -/
inductive Lookup
  | found (balance : Balance)
  | notFound
  | decodeFailed
  deriving DecidableEq, Repr

inductive ValueError
  | balanceOverflow
  | invalidWidth
  deriving DecidableEq, Repr

def KEY_TAG_SEED : BitVec 64 := 0x524953455f544147#64

def FNV_OFFSET_BASIS : BitVec 64 := 0xcbf29ce484222325#64

def FNV_PRIME : BitVec 64 := 0x00000100000001b3#64

def fnv1a64 (bytes : List UInt8) : BitVec 64 :=
  bytes.foldl (fun hash b => (hash ^^^ BitVec.ofNat 64 b.toNat) * FNV_PRIME) FNV_OFFSET_BASIS

/-- The three field widths, and the upstream hash `xxh3_64_with_seed`. -/
structure ValueCodec where
  keyTagBits : Nat
  balanceBits : Nat
  checksumBits : Nat
  xxh3_64WithSeed : List UInt8 → BitVec 64 → BitVec 64

namespace ValueCodec

variable (codec : ValueCodec)

def valueBits : Nat := codec.keyTagBits + codec.balanceBits + codec.checksumBits

/-- `ceil(value_bits / 8)`. -/
def numBytes : Nat := (codec.valueBits + 7) / 8

def checkWidths : Except ValueError Unit :=
  if codec.keyTagBits > 64 ∨ codec.balanceBits > 128 ∨ codec.checksumBits > 64 then
    .error .invalidWidth
  else .ok ()

/-- The codec's widths are representable. -/
def ValidWidths : Prop :=
  codec.keyTagBits ≤ 64 ∧ codec.balanceBits ≤ 128 ∧ codec.checksumBits ≤ 64

instance : Decidable codec.ValidWidths := inferInstanceAs (Decidable (_ ∧ _))

/-- A `u128` fits 128 bits by its type, so one comparison covers both branches. -/
def fitsBalanceBits (balance : Balance) : Bool := balance < 2 ^ codec.balanceBits

def checksum (balance : Balance) : Nat :=
  if codec.checksumBits = 0 then 0
  else
    let hash := (fnv1a64 ((leBytes 16 balance).take ((codec.balanceBits + 7) / 8))).toNat
    if codec.checksumBits ≥ 64 then hash else hash % 2 ^ codec.checksumBits

/-- The 32 address-hash bytes. -/
def addrBytes (addr : AddressHash) : List UInt8 := leBytes 32 addr.toNat

def keyTag (addr : AddressHash) : Nat :=
  if codec.keyTagBits = 0 then 0
  else
    let full := (codec.xxh3_64WithSeed (addrBytes addr) KEY_TAG_SEED).toNat
    if codec.keyTagBits ≥ 64 then full else full % 2 ^ codec.keyTagBits

def extractKeyTag (valueBytes : List UInt8) : Nat :=
  bitField (leNat valueBytes) 0 codec.keyTagBits

/-- The three fields packed into one number, `key_tag` lowest. -/
def packFields (tag balance sum : Nat) : Nat :=
  tag + 2 ^ codec.keyTagBits * (balance + 2 ^ codec.balanceBits * sum)

def encode (addr : AddressHash) (balance : Balance) : Except ValueError (List UInt8) :=
  match codec.checkWidths with
  | .error e => .error e
  | .ok () =>
      if codec.fitsBalanceBits balance then
        .ok (leBytes codec.numBytes
          (codec.packFields (codec.keyTag addr) balance (codec.checksum balance)))
      else .error .balanceOverflow

def decode (addr : AddressHash) (valueBytes : List UInt8) : Lookup :=
  match codec.checkWidths with
  | .error _ => .decodeFailed
  | .ok () =>
      if valueBytes.length ≠ codec.numBytes then .decodeFailed
      else
        let bits := leNat valueBytes
        let storedKeyTag := bitField bits 0 codec.keyTagBits
        let balance := bitField bits codec.keyTagBits codec.balanceBits
        let storedChecksum :=
          bitField bits (codec.keyTagBits + codec.balanceBits) codec.checksumBits
        if storedKeyTag ≠ codec.keyTag addr then .notFound
        else if storedChecksum ≠ codec.checksum balance then .decodeFailed
        else .found balance

variable {codec}

theorem checkWidths_eq_ok : codec.checkWidths = .ok () ↔ codec.ValidWidths := by
  unfold checkWidths ValidWidths
  split
  · constructor
    · intro h
      cases h
    · intro h
      omega
  · simp only [true_iff]
    omega

theorem keyTag_lt (addr : AddressHash) : codec.keyTag addr < 2 ^ codec.keyTagBits := by
  unfold keyTag
  split
  · exact Nat.two_pow_pos _
  · dsimp only
    split
    · rename_i h
      exact lt_of_lt_of_le (BitVec.isLt _) (Nat.pow_le_pow_right (by omega) h)
    · exact Nat.mod_lt _ (Nat.two_pow_pos _)

theorem checksum_lt (balance : Balance) : codec.checksum balance < 2 ^ codec.checksumBits := by
  unfold checksum
  split
  · exact Nat.two_pow_pos _
  · dsimp only
    split
    · rename_i h
      exact lt_of_lt_of_le (BitVec.isLt _) (Nat.pow_le_pow_right (by omega) h)
    · exact Nat.mod_lt _ (Nat.two_pow_pos _)

/-- The balances `encode` accepts. -/
def Encodable (codec : ValueCodec) (balance : Balance) : Prop :=
  codec.ValidWidths ∧ balance < 2 ^ codec.balanceBits

instance (balance : Balance) : Decidable (codec.Encodable balance) :=
  inferInstanceAs (Decidable (_ ∧ _))

theorem packFields_lt {addr : AddressHash} {balance : Balance}
    (h : balance < 2 ^ codec.balanceBits) :
    codec.packFields (codec.keyTag addr) balance (codec.checksum balance) <
      2 ^ codec.valueBits := by
  unfold packFields valueBits
  rw [add_assoc]
  exact pack_lt (keyTag_lt addr) (pack_lt h (checksum_lt balance))

theorem encode_ok {addr : AddressHash} {balance : Balance} (h : codec.Encodable balance) :
    codec.encode addr balance = .ok (leBytes codec.numBytes
      (codec.packFields (codec.keyTag addr) balance (codec.checksum balance))) := by
  rw [encode, checkWidths_eq_ok.mpr h.1]
  simp only [fitsBalanceBits, h.2, decide_true, if_true]

theorem encodable_of_encode_ok {addr : AddressHash} {balance : Balance} {bytes : List UInt8}
    (h : codec.encode addr balance = .ok bytes) : codec.Encodable balance := by
  unfold encode at h
  split at h
  · cases h
  · rename_i hw
    split at h
    · rename_i hfit
      exact ⟨checkWidths_eq_ok.mp hw, by simpa [fitsBalanceBits] using hfit⟩
    · cases h

/-- What `encode` writes, as a number below `2 ^ value_bits`. -/
theorem leNat_encode {addr : AddressHash} {balance : Balance} {bytes : List UInt8}
    (h : codec.encode addr balance = .ok bytes) :
    leNat bytes = codec.packFields (codec.keyTag addr) balance (codec.checksum balance) := by
  have henc := encodable_of_encode_ok h
  rw [encode_ok henc] at h
  rw [← Except.ok.inj h]
  exact leNat_leBytes_of_lt (lt_of_lt_of_le (packFields_lt henc.2) (two_pow_le_pow_bytes _))

theorem leNat_encode_lt {addr : AddressHash} {balance : Balance} {bytes : List UInt8}
    (h : codec.encode addr balance = .ok bytes) : leNat bytes < 2 ^ codec.valueBits := by
  rw [leNat_encode h]
  exact packFields_lt (encodable_of_encode_ok h).2

theorem length_encode {addr : AddressHash} {balance : Balance} {bytes : List UInt8}
    (h : codec.encode addr balance = .ok bytes) : bytes.length = codec.numBytes := by
  rw [encode_ok (encodable_of_encode_ok h)] at h
  rw [← Except.ok.inj h, leBytes_length]

theorem extractKeyTag_encode {addr : AddressHash} {balance : Balance} {bytes : List UInt8}
    (h : codec.encode addr balance = .ok bytes) :
    codec.extractKeyTag bytes = codec.keyTag addr := by
  rw [extractKeyTag, leNat_encode h]
  exact bitField_low (keyTag_lt addr)

theorem balance_field {addr : AddressHash} {balance : Balance} {bytes : List UInt8}
    (h : codec.encode addr balance = .ok bytes) :
    bitField (leNat bytes) codec.keyTagBits codec.balanceBits = balance := by
  rw [leNat_encode h, packFields]
  exact (bitField_high (keyTag_lt addr) 0 codec.balanceBits).trans
    (bitField_low (encodable_of_encode_ok h).2)

theorem checksum_field {addr : AddressHash} {balance : Balance} {bytes : List UInt8}
    (h : codec.encode addr balance = .ok bytes) :
    bitField (leNat bytes) (codec.keyTagBits + codec.balanceBits) codec.checksumBits =
      codec.checksum balance := by
  have high : bitField (balance + 2 ^ codec.balanceBits * codec.checksum balance)
      (codec.balanceBits + 0) codec.checksumBits =
        bitField (codec.checksum balance) 0 codec.checksumBits :=
    bitField_high (encodable_of_encode_ok h).2 0 codec.checksumBits
  rw [add_zero] at high
  rw [leNat_encode h, packFields, bitField_high (keyTag_lt addr), high, bitField, pow_zero,
    Nat.div_one, Nat.mod_eq_of_lt (checksum_lt balance)]

theorem decode_encode {addr : AddressHash} {balance : Balance} {bytes : List UInt8}
    (h : codec.encode addr balance = .ok bytes) : codec.decode addr bytes = .found balance := by
  have tag : bitField (leNat bytes) 0 codec.keyTagBits = codec.keyTag addr :=
    extractKeyTag_encode h
  unfold decode
  rw [checkWidths_eq_ok.mpr (encodable_of_encode_ok h).1]
  simp only [length_encode h, tag, balance_field h, checksum_field h, ne_eq, not_true_eq_false,
    if_false]

theorem decode_eq_of_keyTag {addr addr' : AddressHash}
    (h : codec.keyTag addr = codec.keyTag addr') (bytes : List UInt8) :
    codec.decode addr bytes = codec.decode addr' bytes := by
  unfold decode
  rw [h]

/-- A value that carries the address's tag is found or corrupt. -/
theorem decode_ne_notFound {addr : AddressHash} {bytes : List UInt8}
    (h : codec.extractKeyTag bytes = codec.keyTag addr) : codec.decode addr bytes ≠ .notFound := by
  intro hdec
  have tag : ¬ bitField (leNat bytes) 0 codec.keyTagBits ≠ codec.keyTag addr := fun hne => hne h
  unfold decode at hdec
  split at hdec
  · cases hdec
  · split at hdec
    · cases hdec
    · dsimp only at hdec
      rw [if_neg tag] at hdec
      split at hdec <;> cases hdec

/-- A value that decodes for an address carries the address's tag. -/
theorem extractKeyTag_of_decode_found {addr : AddressHash} {bytes : List UInt8} {balance : Balance}
    (h : codec.decode addr bytes = .found balance) :
    codec.extractKeyTag bytes = codec.keyTag addr := by
  by_contra htag
  unfold decode at h
  split at h
  · cases h
  · split at h
    · cases h
    · dsimp only at h
      rw [if_pos (show bitField (leNat bytes) 0 codec.keyTagBits ≠ codec.keyTag addr from htag)] at h
      cases h

end ValueCodec

end RisePir.Proto.Value
