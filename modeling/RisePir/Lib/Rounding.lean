import Mathlib.Algebra.Group.Nat.Defs
import Mathlib.Data.Nat.Log

set_option autoImplicit false
set_option relaxedAutoImplicit false

/-! Division rounded up and the next power of two, each by what lies above it. -/

namespace RisePir.Lib.Rounding

/-- `div_ceil`. -/
def divCeil (n d : Nat) : Nat := if 0 < n % d then n / d + 1 else n / d

theorem divCeil_le_iff {n d k : Nat} (pos : 0 < d) : divCeil n d ≤ k ↔ n ≤ k * d := by
  have split := Nat.div_add_mod n d
  have small := Nat.mod_lt n pos
  rw [divCeil]
  split_ifs with rest
  · rw [Nat.succ_le_iff, Nat.div_lt_iff_lt_mul pos]
    constructor
    · exact Nat.le_of_lt
    · intro le
      refine Nat.lt_of_le_of_ne le fun same => ?_
      rw [same, Nat.mul_mod_left] at rest
      omega
  · have whole : n = d * (n / d) := by omega
    constructor
    · intro le
      calc n = n / d * d := by rw [Nat.mul_comm]; exact whole
        _ ≤ k * d := Nat.mul_le_mul_right d le
    · exact fun le => Nat.div_le_of_le_mul (by rwa [Nat.mul_comm])

/-- `next_power_of_two`. -/
def nextPowerOfTwo (n : Nat) : Nat := 2 ^ Nat.clog 2 n

theorem le_nextPowerOfTwo (n : Nat) : n ≤ nextPowerOfTwo n := Nat.le_pow_clog (by decide) n

theorem nextPowerOfTwo_le_iff {n k : Nat} : nextPowerOfTwo n ≤ 2 ^ k ↔ n ≤ 2 ^ k := by
  rw [nextPowerOfTwo, Nat.pow_le_pow_iff_right (by decide), Nat.clog_le_iff_le_pow (by decide)]

end RisePir.Lib.Rounding
