import Mathlib.Data.List.GetD
import Mathlib.Data.List.Basic
import Mathlib.Tactic.Ring

set_option autoImplicit false
set_option relaxedAutoImplicit false

/-! Fixed-length windows of a flat list: reading one and overwriting one. -/

namespace RisePir.Lib.Splice

variable {α : Type}

/-- The `n` elements of `l` from position `start` on. -/
def slice (l : List α) (start n : Nat) : List α := (l.drop start).take n

/-- `l` with the window at `start` replaced by `content`. -/
def splice (l : List α) (start : Nat) (content : List α) : List α :=
  l.take start ++ content ++ l.drop (start + content.length)

theorem length_slice {l : List α} {start n : Nat} (h : start + n ≤ l.length) :
    (slice l start n).length = n := by
  rw [slice, List.length_take, List.length_drop]
  omega

theorem length_splice {l : List α} {start : Nat} {content : List α}
    (h : start + content.length ≤ l.length) : (splice l start content).length = l.length := by
  simp only [splice, List.length_append, List.length_take, List.length_drop]
  omega

theorem getD_slice (l : List α) (start n i : Nat) (d : α) :
    (slice l start n).getD i d = if i < n then l.getD (start + i) d else d := by
  by_cases h : i < n
  · simp [slice, h]
  · simp [slice, h]

theorem getD_splice {l : List α} {start : Nat} {content : List α}
    (h : start + content.length ≤ l.length) (i : Nat) (d : α) :
    (splice l start content).getD i d =
      if start ≤ i ∧ i < start + content.length then content.getD (i - start) d
      else l.getD i d := by
  have htake : (l.take start).length = start := by
    rw [List.length_take]
    omega
  unfold splice
  by_cases h₁ : i < start
  · rw [List.getD_append _ _ _ _ (by rw [List.length_append, htake]; omega),
      List.getD_append _ _ _ _ (by omega), if_neg (by omega)]
    simp [h₁]
  · by_cases h₂ : i < start + content.length
    · rw [List.getD_append _ _ _ _ (by rw [List.length_append, htake]; exact h₂),
        List.getD_append_right _ _ _ _ (by omega), if_pos ⟨by omega, h₂⟩, htake]
    · rw [List.getD_append_right _ _ _ _ (by rw [List.length_append, htake]; omega),
        if_neg (by omega), List.length_append, htake]
      simp only [List.getD_eq_getElem?_getD, List.getElem?_drop]
      congr 3
      omega

theorem ext_getD {l l' : List α} (d : α) (length : l.length = l'.length)
    (h : ∀ i < l.length, l.getD i d = l'.getD i d) : l = l' := by
  refine List.ext_getElem length fun i hi hi' => ?_
  have := h i hi
  rwa [List.getD_eq_getElem _ _ hi, List.getD_eq_getElem _ _ hi'] at this

theorem slice_eq_iff {l l' : List α} {start start' n : Nat} (d : α) (h : start + n ≤ l.length)
    (h' : start' + n ≤ l'.length) : slice l start n = slice l' start' n ↔
      ∀ i < n, l.getD (start + i) d = l'.getD (start' + i) d := by
  constructor
  · intro heq i hi
    have := congrArg (fun s => s.getD i d) heq
    simpa only [getD_slice, hi, if_true] using this
  · intro heq
    refine ext_getD d ((length_slice h).trans (length_slice h').symm) fun i hi => ?_
    rw [length_slice h] at hi
    rw [getD_slice, getD_slice, if_pos hi, if_pos hi]
    exact heq i hi

theorem slice_splice_same {l : List α} {start : Nat} {content : List α}
    (h : start + content.length ≤ l.length) :
    slice (splice l start content) start content.length = content := by
  have htake : (l.take start).length = start := by
    rw [List.length_take]
    omega
  unfold slice splice
  rw [List.append_assoc, List.drop_append_of_le_length (by omega), List.drop_of_length_le (by omega),
    List.nil_append, List.take_append_of_le_length (le_refl _), List.take_of_length_le (le_refl _)]

theorem slice_splice_disjoint {l : List α} {start start' n : Nat} {content : List α}
    (h : start + content.length ≤ l.length) (h' : start' + n ≤ l.length)
    (disjoint : start' + n ≤ start ∨ start + content.length ≤ start') :
    slice (splice l start content) start' n = slice l start' n := by
  by_cases hn : n = 0
  · subst hn
    simp [slice]
  · obtain ⟨d⟩ : Nonempty α := by
      have hpos : 0 < l.length := by omega
      exact ⟨l[0]⟩
    rw [slice_eq_iff d (by rwa [length_splice h]) h']
    intro i hi
    rw [getD_splice h, if_neg (by omega)]

theorem splice_slice {l : List α} {start n : Nat} (h : start + n ≤ l.length) :
    splice l start (slice l start n) = l := by
  unfold splice
  rw [length_slice h, slice, List.append_assoc, ← List.drop_drop, List.take_append_drop,
    List.take_append_drop]

/-- A buffer of a body's length that holds the body up to `off`. -/
structure Filled (dest body : List α) (off : Nat) : Prop where
  length : dest.length = body.length
  inside : off ≤ body.length
  prefix_eq : dest.take off = body.take off

namespace Filled

variable {dest body : List α} {off : Nat}

theorem start (a : α) (body : List α) : Filled (List.replicate body.length a) body 0 :=
  ⟨List.length_replicate, Nat.zero_le _, by simp⟩

/-- What comes next in the body fits and extends the held prefix. -/
theorem piece (h : Filled dest body off) {value : List α} (next : value <+: body.drop off) :
    Filled (splice dest off value) body (off + value.length) := by
  have fits : off + value.length ≤ body.length := by
    have := next.length_le
    rw [List.length_drop] at this
    have := h.inside
    omega
  have htake : (dest.take off).length = off := by
    rw [List.length_take, h.length]
    exact Nat.min_eq_left h.inside
  refine ⟨(length_splice (by rw [h.length]; exact fits)).trans h.length, fits, ?_⟩
  obtain ⟨rest, hrest⟩ := next
  rw [splice, List.take_append_of_le_length (by rw [List.length_append, htake]),
    List.take_of_length_le (by rw [List.length_append, htake]), h.prefix_eq, List.take_add, ← hrest,
    List.take_append_of_le_length (le_refl _), List.take_of_length_le (le_refl _)]

theorem full (h : Filled dest body off) (all : off = body.length) : dest = body := by
  have := h.prefix_eq
  rwa [all, List.take_of_length_le h.length.le, List.take_of_length_le (le_refl _)] at this

/-- A window of what is held is the body's. -/
theorem slice_eq (h : Filled dest body off) {first n : Nat} (held : first + n ≤ off) :
    slice dest first n = slice body first n := by
  have cut : ∀ l : List α, slice l first n = slice (l.take off) first n := by
    intro l
    rw [slice, slice, List.drop_take, List.take_take, Nat.min_eq_left (by omega)]
  rw [cut dest, cut body, h.prefix_eq]

end Filled

end RisePir.Lib.Splice
