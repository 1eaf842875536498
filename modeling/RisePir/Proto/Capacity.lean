import Mathlib.Order.Bounds.Defs
import RisePir.Lib.Rounding
import RisePir.Proto.Sizing

set_option autoImplicit false
set_option relaxedAutoImplicit false

/-! The geometry for a number of accounts. The bucket count is rounded up twice, by the target load
and to the shape of the arity, in `u128` arithmetic that panics where it overflows. -/

namespace RisePir.Proto.Capacity

open RisePir.Lib.Rounding
open RisePir.Proto.Sizing
open RisePir.Proto.Value

def GLOBAL_TARGET_NUM : Nat := 9000

def TARGET_DEN : Nat := 10000

def SAFETY_MARGIN_NUM : Nat := 95

/-- `segmented_cuckoo::MAX_LOAD_FACTOR`, in hundredths: one row an arity, one column a bucket size. -/
structure MaxLoadFactor where
  hundredths : List (List Nat)
  fractions : ∀ row ∈ hundredths, ∀ h ∈ row, 0 < h ∧ h ≤ 100

/-- A `u128`, unless the operation that made it has overflowed. -/
def u128 (n : Nat) : Option Nat := if n < 2 ^ 128 then some n else none

def maxLoadFactorHundredths (table : MaxLoadFactor) (arity bucketSize : Nat) : Option Nat :=
  if arity < 2 ∨ bucketSize < 1 then none
  else do
    let row ← table.hundredths[arity - 2]?
    row[bucketSize - 1]?

/-- `effective_target_load`; `none` is an overflow. -/
def effectiveTargetLoad (table : MaxLoadFactor) (arity bucketSize : Nat) : Option (Nat × Nat) :=
  match maxLoadFactorHundredths table arity bucketSize with
  | some ceilingHundredths => do
      let tightened ← u128 (SAFETY_MARGIN_NUM * ceilingHundredths)
      return (min GLOBAL_TARGET_NUM tightened, TARGET_DEN)
  | none => some (GLOBAL_TARGET_NUM, TARGET_DEN)

/-- The bucket count of the arity's shape; `none` is an overflow. -/
def shapedBuckets (arity bucketsNeeded : Nat) : Option (Except GeomError Nat) :=
  match arity with
  | 2 | 4 => do
      let buckets ← u128 (nextPowerOfTwo (max bucketsNeeded arity))
      return .ok buckets
  | 3 => do
      let segment ← u128 (nextPowerOfTwo (max (divCeil bucketsNeeded 3) 1))
      let buckets ← u128 (segment * 3)
      return .ok buckets
  | other => some (.error (.invalidArity other))

/-- `Geometry::for_accounts`; `none` is the panic of an overflow or of a division by zero. -/
def forAccounts (selectors : PirParams) (table : MaxLoadFactor)
    (accounts arity bucketSize fingerprintBits : Nat) (codec : ValueCodec) (backend : Backend) :
    Option (Except GeomError Geometry) :=
  if bucketSize = 0 then some (.error .invalidBucketSize)
  else if fingerprintBits = 0 ∨ codec.valueBits = 0 then some (.error .invalidFieldWidth)
  else do
    let (targetNum, targetDen) ← effectiveTargetLoad table arity bucketSize
    let numerator ← u128 (accounts * targetDen)
    let denominator ← u128 (bucketSize * targetNum)
    if denominator = 0 then none
    else
      match ← shapedBuckets arity (divCeil numerator denominator) with
      | .error e => return .error e
      | .ok numBuckets =>
          if 2 ^ 32 ≤ numBuckets then return .error .tooManyAccounts
          else return forNumBuckets selectors numBuckets arity bucketSize fingerprintBits codec backend

/-- The bucket counts of an arity: a power of two that is at least the arity, or three times one. -/
def Admissible (arity n : Nat) : Prop :=
  if arity = 3 then ∃ k, n = 3 * 2 ^ k else ∃ k, n = 2 ^ k ∧ arity ≤ n

/-- The admissible bucket counts that hold the accounts at the target load. -/
def Holding (accounts arity bucketSize targetNum : Nat) : Set Nat :=
  {n | Admissible arity n ∧ accounts * TARGET_DEN ≤ n * bucketSize * targetNum}

theorem u128_eq {n : Nat} (h : n < 2 ^ 128) : u128 n = some n := if_pos h

theorem effectiveTargetLoad_spec (table : MaxLoadFactor) (arity bucketSize : Nat) :
    ∃ targetNum, effectiveTargetLoad table arity bucketSize = some (targetNum, TARGET_DEN) ∧
      0 < targetNum ∧ targetNum ≤ GLOBAL_TARGET_NUM := by
  unfold effectiveTargetLoad
  cases hceiling : maxLoadFactorHundredths table arity bucketSize with
  | none => exact ⟨GLOBAL_TARGET_NUM, rfl, by decide, le_rfl⟩
  | some h =>
      have fraction : 0 < h ∧ h ≤ 100 := by
        unfold maxLoadFactorHundredths at hceiling
        split_ifs at hceiling
        obtain ⟨row, hrow, hcol⟩ := Option.bind_eq_some_iff.mp hceiling
        exact table.fractions row (List.mem_of_getElem? hrow) h (List.mem_of_getElem? hcol)
      have margin : SAFETY_MARGIN_NUM * h ≤ 9500 := by
        unfold SAFETY_MARGIN_NUM
        omega
      refine ⟨min GLOBAL_TARGET_NUM (SAFETY_MARGIN_NUM * h), ?_, ?_, min_le_left _ _⟩
      · dsimp only
        rw [u128_eq (by omega)]
        rfl
      · unfold GLOBAL_TARGET_NUM SAFETY_MARGIN_NUM
        omega

theorem admissible_pow {arity n : Nat} (shape : arity = 2 ∨ arity = 4) :
    Admissible arity n ↔ ∃ k, n = 2 ^ k ∧ arity ≤ n := by
  rw [Admissible, if_neg (by omega)]

/-- The rounding to the arity's shape gives the least admissible count that is large enough. -/
theorem shapedBuckets_spec {arity needed : Nat} (valid : arity = 2 ∨ arity = 3 ∨ arity = 4)
    (small : needed ≤ 2 ^ 78) : ∃ n, shapedBuckets arity needed = some (.ok n) ∧
      IsLeast {n | Admissible arity n ∧ needed ≤ n} n := by
  have rounded : ∀ m, m ≤ 2 ^ 78 → nextPowerOfTwo m < 2 ^ 100 := fun m hm =>
    Nat.lt_of_le_of_lt (nextPowerOfTwo_le_iff.mpr hm) (by decide)
  by_cases segmented : arity = 3
  · subst segmented
    have third : divCeil needed 3 ≤ 2 ^ 78 := (divCeil_le_iff (by decide)).mpr (by omega)
    have fits := rounded (max (divCeil needed 3) 1) (by omega)
    refine ⟨nextPowerOfTwo (max (divCeil needed 3) 1) * 3, ?_, ⟨⟨Nat.clog 2 _, Nat.mul_comm _ _⟩, ?_⟩, ?_⟩
    · change ((u128 (nextPowerOfTwo (max (divCeil needed 3) 1))).bind fun segment =>
        (u128 (segment * 3)).bind fun buckets => some (.ok buckets : Except GeomError Nat)) = _
      rw [u128_eq (by omega), Option.bind_some, u128_eq (by omega)]
      rfl
    · rw [← divCeil_le_iff (by decide)]
      exact (le_max_left _ 1).trans (le_nextPowerOfTwo _)
    · rintro n ⟨⟨k, rfl⟩, enough⟩
      have enough' : divCeil needed 3 ≤ 2 ^ k := (divCeil_le_iff (by decide)).mpr (by omega)
      have pow : nextPowerOfTwo (max (divCeil needed 3) 1) ≤ 2 ^ k :=
        nextPowerOfTwo_le_iff.mpr (max_le enough' Nat.one_le_two_pow)
      omega
  · have shape : arity = 2 ∨ arity = 4 := by omega
    have fits := rounded (max needed arity) (by omega)
    have above := le_nextPowerOfTwo (max needed arity)
    refine ⟨nextPowerOfTwo (max needed arity), ?_, ⟨?_, by omega⟩, ?_⟩
    · rcases shape with rfl | rfl
      · unfold shapedBuckets
        rw [u128_eq (by omega)]
        rfl
      · unfold shapedBuckets
        rw [u128_eq (by omega)]
        rfl
    · exact (admissible_pow shape).mpr ⟨Nat.clog 2 _, rfl, by omega⟩
    · rintro n ⟨admissible, enough⟩
      obtain ⟨k, rfl, wide⟩ := (admissible_pow shape).mp admissible
      exact nextPowerOfTwo_le_iff.mpr (max_le enough wide)

/-- An admissible count divides into the arity's segments. -/
theorem Admissible.divides {arity n : Nat} (valid : arity = 2 ∨ arity = 3 ∨ arity = 4)
    (h : Admissible arity n) : n ≠ 0 ∧ arity ∣ n := by
  by_cases segmented : arity = 3
  · subst segmented
    obtain ⟨k, rfl⟩ := h
    exact ⟨by positivity, Nat.dvd_mul_right 3 _⟩
  · have shape : arity = 2 ∨ arity = 4 := by omega
    obtain ⟨k, rfl, wide⟩ := (admissible_pow shape).mp h
    refine ⟨by positivity, ?_⟩
    rcases shape with rfl | rfl
    · exact dvd_pow_self 2 (by rintro rfl; omega)
    · have two_le : 2 ≤ k := (Nat.pow_le_pow_iff_right (show 1 < 2 by decide)).mp wide
      exact Nat.pow_dvd_pow 2 two_le

theorem Holding.mono {accounts accounts' arity bucketSize targetNum : Nat} (le : accounts ≤ accounts') :
    Holding accounts' arity bucketSize targetNum ⊆ Holding accounts arity bucketSize targetNum :=
  fun _ h => ⟨h.1, (Nat.mul_le_mul_right _ le).trans h.2⟩

section Sized

variable (selectors : PirParams) (table : MaxLoadFactor) (codec : ValueCodec) (backend : Backend)
variable {accounts arity bucketSize fingerprintBits : Nat}

/-- The code gives the least bucket count that holds the accounts, or refuses it for its width. -/
theorem forAccounts_spec (inWord : accounts < 2 ^ 64) (valid : arity = 2 ∨ arity = 3 ∨ arity = 4)
    (bucketed : 0 < bucketSize) (bucketWord : bucketSize < 2 ^ 32) (tagged : 0 < fingerprintBits)
    (valued : 0 < codec.valueBits) :
    ∃ targetNum least, effectiveTargetLoad table arity bucketSize = some (targetNum, TARGET_DEN) ∧
      IsLeast (Holding accounts arity bucketSize targetNum) least ∧
      forAccounts selectors table accounts arity bucketSize fingerprintBits codec backend =
        some (if 2 ^ 32 ≤ least then .error .tooManyAccounts
          else forNumBuckets selectors least arity bucketSize fingerprintBits codec backend) := by
  obtain ⟨targetNum, target, pos, capped⟩ := effectiveTargetLoad_spec table arity bucketSize
  have numerator : accounts * TARGET_DEN ≤ 2 ^ 78 := by
    unfold TARGET_DEN
    omega
  have denominator : 0 < bucketSize * targetNum := Nat.mul_pos bucketed pos
  have wide : bucketSize * targetNum < 2 ^ 128 := by
    have := Nat.mul_le_mul (Nat.le_of_lt bucketWord) capped
    unfold GLOBAL_TARGET_NUM at this
    omega
  have needed : divCeil (accounts * TARGET_DEN) (bucketSize * targetNum) ≤ 2 ^ 78 :=
    (divCeil_le_iff denominator).mpr (numerator.trans (Nat.le_mul_of_pos_right _ denominator))
  obtain ⟨least, shaped, isLeast⟩ := shapedBuckets_spec valid needed
  have holding : Holding accounts arity bucketSize targetNum =
      {n | Admissible arity n ∧ divCeil (accounts * TARGET_DEN) (bucketSize * targetNum) ≤ n} := by
    ext n
    rw [Holding, Set.mem_ofPred_eq, Set.mem_ofPred_eq, divCeil_le_iff denominator, Nat.mul_assoc]
  refine ⟨targetNum, least, target, holding ▸ isLeast, ?_⟩
  rw [forAccounts, if_neg (by omega), if_neg (by omega), target]
  dsimp only [Option.bind_eq_bind, Option.bind_some]
  rw [u128_eq (by omega), Option.bind_some, u128_eq wide, Option.bind_some, if_neg (by omega), shaped]
  dsimp only [Option.bind_some]
  split_ifs <;> rfl

theorem forNumBuckets_numBuckets {selectors : PirParams} {codec : ValueCodec} {backend : Backend}
    {numBuckets arity bucketSize fingerprintBits : Nat} {geometry : Geometry}
    (h : forNumBuckets selectors numBuckets arity bucketSize fingerprintBits codec backend = .ok geometry) :
    geometry.numBuckets = numBuckets := by
  unfold forNumBuckets at h
  split_ifs at h
  cases h
  rfl

/-- Accounts are sized to the least admissible bucket count that holds them at the target load, or
refused exactly when that count is wider than a `u32`; nothing overflows on the way, and more
accounts never get fewer buckets. -/
theorem accounts_sized (inWord : accounts < 2 ^ 64) (valid : arity = 2 ∨ arity = 3 ∨ arity = 4)
    (bucketed : 0 < bucketSize) (bucketWord : bucketSize < 2 ^ 32) (tagged : 0 < fingerprintBits)
    (valued : 0 < codec.valueBits) :
    ∃ targetNum least, effectiveTargetLoad table arity bucketSize = some (targetNum, TARGET_DEN) ∧
      IsLeast (Holding accounts arity bucketSize targetNum) least ∧
      (least < 2 ^ 32 → ∃ plaintextBits,
        forAccounts selectors table accounts arity bucketSize fingerprintBits codec backend =
          some (.ok ⟨arity, least, bucketSize, fingerprintBits, codec.valueBits, plaintextBits⟩)) ∧
      (2 ^ 32 ≤ least →
        forAccounts selectors table accounts arity bucketSize fingerprintBits codec backend =
          some (.error .tooManyAccounts)) ∧
      ∀ fewer ≤ accounts, ∀ geometry,
        forAccounts selectors table accounts arity bucketSize fingerprintBits codec backend =
          some (.ok geometry) →
        ∃ geometry', forAccounts selectors table fewer arity bucketSize fingerprintBits codec backend =
          some (.ok geometry') ∧ geometry'.numBuckets ≤ geometry.numBuckets := by
  obtain ⟨targetNum, least, target, isLeast, sized⟩ := forAccounts_spec selectors table codec backend
    inWord valid bucketed bucketWord tagged valued
  have derived : ∀ n, Admissible arity n → ∃ plaintextBits,
      forNumBuckets selectors n arity bucketSize fingerprintBits codec backend =
        .ok ⟨arity, n, bucketSize, fingerprintBits, codec.valueBits, plaintextBits⟩ := by
    intro n admissible
    obtain ⟨nonzero, divides⟩ := admissible.divides valid
    have shape : ¬ (n = 0 ∨ ¬ arity ∣ n) := by
      rw [not_or, not_not]
      exact ⟨nonzero, divides⟩
    unfold forNumBuckets
    rw [if_neg (by omega), if_neg (by omega), if_neg (by omega), if_neg shape]
    exact ⟨_, rfl⟩
  refine ⟨targetNum, least, target, isLeast, fun narrow => ?_, fun wide => ?_, ?_⟩
  · obtain ⟨plaintextBits, ok⟩ := derived least isLeast.1.1
    exact ⟨plaintextBits, by rw [sized, if_neg (by omega), ok]⟩
  · rw [sized, if_pos wide]
  · intro fewer le geometry answer
    obtain ⟨targetNum', least', target', isLeast', sized'⟩ := forAccounts_spec selectors table codec
      backend (Nat.lt_of_le_of_lt le inWord) valid bucketed bucketWord tagged valued
    obtain rfl : targetNum = targetNum' := by simpa [target] using target'
    have ordered : least' ≤ least := isLeast'.2 (Holding.mono le isLeast.1)
    rw [sized] at answer
    split_ifs at answer with wide
    · cases answer
    · have same := forNumBuckets_numBuckets (Option.some.inj answer)
      obtain ⟨plaintextBits, ok⟩ := derived least' isLeast'.1.1
      refine ⟨_, by rw [sized', if_neg (by omega), ok], ?_⟩
      rw [same]
      exact ordered

end Sized

/-- The published ceilings of the two-segment configurations. -/
def twoSegments : MaxLoadFactor where
  hundredths := [[48, 83, 89, 91]]
  fractions := by decide

def ninetySixBits : ValueCodec := ⟨32, 64, 0, fun _ _ => 0⟩

theorem accounts_sized_deployed : ∃ targetNum least,
    effectiveTargetLoad twoSegments 2 4 = some (targetNum, TARGET_DEN) ∧
      IsLeast (Holding 200503969 2 4 targetNum) least ∧
      (least < 2 ^ 32 → ∃ plaintextBits,
        forAccounts ⟨fun _ _ _ _ _ => 10, fun _ _ _ _ _ => 9⟩ twoSegments 200503969 2 4 32 ninetySixBits
          .simple = some (.ok ⟨2, least, 4, 32, 96, plaintextBits⟩)) := by
  obtain ⟨targetNum, least, target, isLeast, sized, -⟩ :=
    @accounts_sized ⟨fun _ _ _ _ _ => 10, fun _ _ _ _ _ => 9⟩ twoSegments ninetySixBits .simple
      200503969 2 4 32 (by decide) (by decide) (by decide) (by decide) (by decide) (by decide)
  exact ⟨targetNum, least, target, isLeast, sized⟩

end RisePir.Proto.Capacity
