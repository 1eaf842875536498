import Mathlib.Data.BitVec

set_option autoImplicit false
set_option relaxedAutoImplicit false

/-! The two steps that mixing functions on machine words are made of: a word xored with a shift of
itself, and a word multiplied by a constant. Both can be undone. -/

namespace RisePir.Lib.Mixing

variable {w : Nat}

def xorShift (s : Nat) (x : BitVec w) : BitVec w := x ^^^ (x >>> s)

/-- A word that every shift leaves alone is zero. -/
theorem eq_zero_of_shift {s : Nat} (pos : 0 < s) {x : BitVec w} (fixed : x = x >>> s) : x = 0#w := by
  have shifted : ∀ n, x = x >>> (n * s) := by
    intro n
    induction n with
    | zero => rw [Nat.zero_mul, BitVec.ushiftRight_zero]
    | succ n ih => rw [Nat.succ_mul, BitVec.shiftRight_add, ← ih, ← fixed]
  rw [shifted w]
  exact BitVec.ushiftRight_eq_zero (Nat.le_mul_of_pos_right w pos)

theorem xorShift_injective {s : Nat} (pos : 0 < s) :
    Function.Injective (xorShift s : BitVec w → BitVec w) := by
  intro x y same
  have both : (x ^^^ y) ^^^ ((x ^^^ y) >>> s) = 0#w := by
    calc (x ^^^ y) ^^^ ((x ^^^ y) >>> s)
        = xorShift s x ^^^ xorShift s y := by
          rw [BitVec.ushiftRight_xor_distrib, xorShift, xorShift]
          ac_rfl
      _ = 0#w := by rw [same, BitVec.xor_self]
  have fixed : x ^^^ y = (x ^^^ y) >>> s := BitVec.xor_eq_zero_iff.mp both
  exact BitVec.xor_eq_zero_iff.mp (eq_zero_of_shift pos fixed)

theorem mul_injective {c inverse : BitVec w} (h : c * inverse = 1#w) :
    Function.Injective fun x : BitVec w => x * c := by
  intro x y same
  have undone := congrArg (· * inverse) same
  simpa only [BitVec.mul_assoc, h, BitVec.mul_one] using undone

end RisePir.Lib.Mixing
