import Mathlib.Algebra.BigOperators.Group.List.Basic
import Mathlib.Algebra.BigOperators.Ring.List
import Mathlib.Data.List.GetD
import Mathlib.Tactic.Ring
import RisePir.Lib.Sparse

set_option autoImplicit false
set_option relaxedAutoImplicit false

/-! Products with a matrix that is stored as one flat array, and the effect on
them of sparse changes to that array. -/

namespace RisePir.Lib.FlatMatrix

open RisePir.Lib.Sparse

/-- The reading of a flat array as `rows` rows of `width` cells. -/
structure Shape where
  rows : Nat
  width : Nat
  deriving DecidableEq, Repr

section Product

variable {R : Type} [CommRing R]

/-- Entry `c` of the row vector `q` times the flat array `D` read under `s`. -/
def vecMul (s : Shape) (q D : Nat → R) (c : Nat) : R :=
  ((List.range s.rows).map fun r => q r * D (r * s.width + c)).sum

/-- The flat array that is `x` at `f` and zero elsewhere. -/
def single (f : Nat) (x : R) : Nat → R := fun i => if i = f then x else 0

theorem vecMul_add (s : Shape) (q D E : Nat → R) (c : Nat) :
    vecMul s q (fun i => D i + E i) c = vecMul s q D c + vecMul s q E c := by
  simp only [vecMul, mul_add, List.sum_map_add]

theorem vecMul_zero (s : Shape) (q : Nat → R) (c : Nat) : vecMul s q (fun _ => 0) c = 0 := by
  simp [vecMul]

private theorem sum_indicator (n k : Nat) (g : Nat → R) :
    ((List.range n).map fun r => if r = k then g r else 0).sum = if k < n then g k else 0 := by
  induction n with
  | zero => simp
  | succ n ih =>
      rw [List.range_succ, List.map_append, List.sum_append, ih]
      by_cases hk : k < n
      · have : n ≠ k := by omega
        simp [hk, this, Nat.lt_succ_of_lt hk]
      · by_cases he : n = k
        · subst he
          simp
        · have : ¬ k < n + 1 := by omega
          simp [hk, he, this]

/-- One changed cell reaches exactly one entry of the product. -/
theorem vecMul_single (s : Shape) (q : Nat → R) (f : Nat) (x : R) {c : Nat} (hc : c < s.width) :
    vecMul s q (single f x) c =
      if f % s.width = c ∧ f / s.width < s.rows then q (f / s.width) * x else 0 := by
  have split : ∀ r, r * s.width + c = f ↔ f % s.width = c ∧ r = f / s.width := by
    intro r
    constructor
    · rintro rfl
      rw [Nat.mul_comm r, Nat.mul_add_mod, Nat.mod_eq_of_lt hc, Nat.mul_add_div (by omega),
        Nat.div_eq_of_lt hc]
      simp
    · rintro ⟨rfl, rfl⟩
      exact Nat.div_add_mod' f s.width
  have term : ∀ r, q r * single f x (r * s.width + c) =
      if r = f / s.width then (if f % s.width = c then q r * x else 0) else 0 := by
    intro r
    unfold single
    by_cases h : r * s.width + c = f
    · obtain ⟨hc, hr⟩ := (split r).mp h
      simp [h, hc, ← hr]
    · rw [if_neg h, mul_zero]
      split
      · rename_i hr
        rw [if_neg fun hc => h ((split r).mpr ⟨hc, hr⟩)]
      · rfl
  unfold vecMul
  simp only [term]
  rw [sum_indicator s.rows (f / s.width) fun r => if f % s.width = c then q r * x else 0]
  by_cases h1 : f / s.width < s.rows <;> by_cases h2 : f % s.width = c <;> simp [h1, h2]

/-- The left factor may itself be a product: `(s · A) · D = s · (A · D)`. -/
theorem vecMul_combination (s : Shape) (n : Nat) (secret : Nat → R) (A : Nat → Nat → R)
    (D : Nat → R) (c : Nat) :
    vecMul s (fun r => ((List.range n).map fun i => secret i * A i r).sum) D c =
      ((List.range n).map fun i => secret i * vecMul s (A i) D c).sum := by
  induction n with
  | zero => simp [vecMul]
  | succ n ih =>
      simp only [List.range_succ, List.map_append, List.sum_append, List.map_singleton,
        List.sum_singleton]
      rw [← ih]
      simp only [vecMul, add_mul, mul_assoc, List.sum_map_add, List.sum_map_mul_left]

theorem vecMul_add_left (s : Shape) (q q' D : Nat → R) (c : Nat) :
    vecMul s (fun r => q r + q' r) D c = vecMul s q D c + vecMul s q' D c := by
  simp only [vecMul, add_mul, List.sum_map_add]

/-- A multiple of a unit vector reads that multiple of one row. -/
theorem vecMul_unit (s : Shape) (row : Nat) (x : R) (D : Nat → R) (c : Nat) :
    vecMul s (fun r => if r = row then x else 0) D c =
      if row < s.rows then x * D (row * s.width + c) else 0 := by
  have term : ∀ r, (if r = row then x else 0) * D (r * s.width + c) =
      if r = row then x * D (r * s.width + c) else 0 := by
    intro r
    split <;> simp
  simp only [vecMul, term]
  exact sum_indicator s.rows row fun r => x * D (r * s.width + c)

end Product

section Tabulate

variable {R : Type}

/-- An `n` by `w` matrix laid out row by row. -/
def tabulate (n w : Nat) (f : Nat → Nat → R) : List R :=
  (List.range n).flatMap fun i => (List.range w).map (f i)

@[simp] theorem tabulate_length (n w : Nat) (f : Nat → Nat → R) :
    (tabulate n w f).length = n * w := by
  induction n with
  | zero => simp [tabulate]
  | succ n ih =>
      rw [tabulate, List.range_succ, List.flatMap_append, List.length_append]
      simp only [List.flatMap_singleton, List.length_map, List.length_range]
      rw [show ((List.range n).flatMap fun i => (List.range w).map (f i)).length = n * w from ih]
      ring

theorem tabulate_congr {n w : Nat} {f g : Nat → Nat → R}
    (h : ∀ i < n, ∀ c < w, f i c = g i c) : tabulate n w f = tabulate n w g := by
  unfold tabulate
  refine List.flatMap_congr fun i hi => List.map_congr_left fun c hc => ?_
  exact h i (List.mem_range.mp hi) c (List.mem_range.mp hc)

theorem tabulate_getD {n w : Nat} (f : Nat → Nat → R) (d : R) {i c : Nat} (hi : i < n)
    (hc : c < w) : (tabulate n w f).getD (i * w + c) d = f i c := by
  induction n with
  | zero => omega
  | succ n ih =>
      have snoc : tabulate (n + 1) w f = tabulate n w f ++ (List.range w).map (f n) := by
        simp [tabulate, List.range_succ]
      rw [snoc]
      by_cases h : i < n
      · have bound : i * w + c < n * w := by
          calc i * w + c < i * w + w := by omega
            _ = (i + 1) * w := by ring
            _ ≤ n * w := Nat.mul_le_mul_right _ h
        rw [List.getD_append _ _ _ _ (by simpa using bound)]
        exact ih h
      · have : i = n := by omega
        subst this
        rw [List.getD_append_right _ _ _ _ (by simp)]
        simp [hc]

end Tabulate

section RowTerms

variable {M : Type} [AddCommMonoid M]

/-- The terms of a row-by-row list at their flat positions, rows `width` apart. -/
def flatTerms (width : Nat) (rows : List (Nat × List (Nat × M))) : List (Nat × M) :=
  (entries rows).map fun e => (e.1.1 * width + e.1.2, e.2)

omit [AddCommMonoid M] in
theorem flat_index_eq_iff {width r r' o o' : Nat} (ho : o < width) (ho' : o' < width) :
    r * width + o = r' * width + o' ↔ r = r' ∧ o = o' := by
  constructor
  · intro h
    have hdiv : ∀ a b : Nat, b < width → (a * width + b) / width = a := by
      intro a b hb
      rw [Nat.mul_comm a, Nat.mul_add_div (by omega), Nat.div_eq_of_lt hb, Nat.add_zero]
    have hr : r = r' := by rw [← hdiv r o ho, h, hdiv r' o' ho']
    subst hr
    exact ⟨rfl, by omega⟩
  · rintro ⟨rfl, rfl⟩
    rfl

theorem total_flatTerms {width : Nat} {rows : List (Nat × List (Nat × M))}
    (inside : ∀ e ∈ entries rows, e.1.2 < width) {r o : Nat} (ho : o < width) :
    total (flatTerms width rows) (r * width + o) = cellAt rows r o := by
  unfold flatTerms cellAt
  generalize entries rows = l at inside
  induction l with
  | nil => rfl
  | cons e l ih =>
      rw [List.map_cons, total_cons, total_cons, ih fun e' he => inside e' (List.mem_cons_of_mem e he)]
      congr 1
      have this : e.1.1 * width + e.1.2 = r * width + o ↔ e.1.1 = r ∧ e.1.2 = o :=
        flat_index_eq_iff (inside e (by simp)) ho
      by_cases h : e.1 = (r, o)
      · rw [if_pos h, if_pos (this.mpr ⟨congrArg Prod.fst h, congrArg Prod.snd h⟩)]
      · rw [if_neg h, if_neg fun hflat => h (Prod.ext (this.mp hflat).1 (this.mp hflat).2)]

end RowTerms

end RisePir.Lib.FlatMatrix
