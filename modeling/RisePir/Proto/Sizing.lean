import RisePir.Proto.Value

set_option autoImplicit false
set_option relaxedAutoImplicit false

/-! The geometry a binary derives for a bucket count. Which plaintext width the backend may use
there is decided by selectors of the dependency, which are a parameter. -/

namespace RisePir.Proto.Sizing

open RisePir.Proto.Value

inductive Backend
  | frodo
  | simple
  deriving DecidableEq, Repr

/-- `frodo_max_plaintext_bits` and `simple_max_plaintext_bits`, the latter at the default sigma. -/
structure PirParams where
  frodoMaxPlaintextBits :
    (arity segmentRows bucketSize fingerprintBits valueBits : Nat) → Nat
  simpleMaxPlaintextBits :
    (arity segmentRows bucketSize fingerprintBits valueBits : Nat) → Nat

structure Geometry where
  arity : Nat
  numBuckets : Nat
  bucketSize : Nat
  fingerprintBits : Nat
  valueBits : Nat
  plaintextBits : Nat
  deriving DecidableEq, Repr

inductive GeomError
  | invalidArity (arity : Nat)
  | invalidBucketSize
  | invalidFieldWidth
  | tooManyAccounts
  | invalidNumBuckets (n : Nat)
  deriving DecidableEq, Repr

/-- The `Display` of a `GeomError`. -/
def GeomError.display : GeomError → String
  | .invalidArity a => s!"arity must be 2, 3, or 4, got {a}"
  | .invalidBucketSize => "bucket_size must be >= 1"
  | .invalidFieldWidth => "fingerprint_bits and value_bits must both be >= 1"
  | .tooManyAccounts => "account count requires a num_buckets that does not fit in u32"
  | .invalidNumBuckets n => s!"num_buckets must be >= 1 and a multiple of arity, got {n}"

/-- `Geometry::for_num_buckets`. -/
def forNumBuckets (selectors : PirParams) (numBuckets arity bucketSize fingerprintBits : Nat)
    (codec : ValueCodec) (backend : Backend) : Except GeomError Geometry :=
  if ¬ (2 ≤ arity ∧ arity ≤ 4) then .error (.invalidArity arity)
  else if bucketSize = 0 then .error .invalidBucketSize
  else if fingerprintBits = 0 ∨ codec.valueBits = 0 then .error .invalidFieldWidth
  else if numBuckets = 0 ∨ ¬ arity ∣ numBuckets then .error (.invalidNumBuckets numBuckets)
  else
    let select := match backend with
      | .frodo => selectors.frodoMaxPlaintextBits
      | .simple => selectors.simpleMaxPlaintextBits
    .ok ⟨arity, numBuckets, bucketSize, fingerprintBits, codec.valueBits,
      select arity (numBuckets / arity) bucketSize fingerprintBits codec.valueBits⟩

theorem forNumBuckets_ok {selectors : PirParams} {numBuckets arity bucketSize fingerprintBits : Nat}
    {codec : ValueCodec} {geometry : Geometry}
    (h : forNumBuckets selectors numBuckets arity bucketSize fingerprintBits codec .simple =
      .ok geometry) :
    numBuckets ≠ 0 ∧ arity ∣ numBuckets ∧
      geometry = ⟨arity, numBuckets, bucketSize, fingerprintBits, codec.valueBits,
        selectors.simpleMaxPlaintextBits arity (numBuckets / arity) bucketSize fingerprintBits
          codec.valueBits⟩ := by
  rw [forNumBuckets] at h
  split_ifs at h with _ _ _ shape
  cases h
  rw [not_or, not_not] at shape
  exact ⟨shape.1, shape.2, rfl⟩

end RisePir.Proto.Sizing
