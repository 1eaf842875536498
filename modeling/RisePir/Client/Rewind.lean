import RisePir.Client.Delta
import RisePir.Upstream.Pir

set_option autoImplicit false
set_option relaxedAutoImplicit false

/-! The response rewind: `resp -= q · Δ`, through each backend's index mapping. -/

namespace RisePir.Client.Rewind

open RisePir.Lib.FlatMatrix
open RisePir.Lib.Sparse
open RisePir.Upstream.Pir
open RisePir.Client.Delta

/-- The two implementations of `ResponseRewind`. -/
inductive ResponseRewind
  | frodo
  | simple
  deriving DecidableEq, Repr

/-- The query entry and the response entry that a delta at `(row, off)` meets. -/
def ResponseRewind.index (kind : ResponseRewind) (sp : SimpleServerParams) (row off : Nat) :
    Nat × Nat :=
  match kind with
  | .frodo => (row, off)
  | .simple => (row / sp.k, row % sp.k * sp.rowWidth + off)

/-- One entry's subtraction; `none` where the source divides by zero or indexes past an
end, and so panics. -/
def ResponseRewind.term (kind : ResponseRewind) (sp : SimpleServerParams) (q : Query)
    (a : List (BitVec 32)) (e : (Nat × Nat) × Int) : Option (List (BitVec 32)) :=
  let index := kind.index sp e.1.1 e.1.2
  if kind = .simple ∧ sp.k = 0 then none
  else
    match q.b[index.1]?, a[index.2]? with
    | some b, some x => some (a.set index.2 (x - b * BitVec.ofInt 32 e.2))
    | _, _ => none

/-- `rewind_response`. -/
def ResponseRewind.rewindResponse (kind : ResponseRewind) (sp : SimpleServerParams) (q : Query)
    (resp : Response) (deltas : SegmentDelta) : Option Response :=
  (deltas.terms.foldlM (kind.term sp q) resp.a).map Response.mk

/-- FrodoPIR's parameters do not reshape. -/
def ResponseRewind.Fits (kind : ResponseRewind) (sp : SimpleServerParams) : Prop :=
  kind = .frodo → sp.k = 1

instance (kind : ResponseRewind) (sp : SimpleServerParams) : Decidable (kind.Fits sp) :=
  inferInstanceAs (Decidable (_ → _))

section Mapping

variable {kind : ResponseRewind} {sp : SimpleServerParams} {nRows rowWidth plaintextBits : Nat}

/-- Both mappings read the flat position `row * row_width + off` of the reshaped matrix. -/
theorem index_eq (fits : kind.Fits sp) (describes : sp.Describes nRows rowWidth plaintextBits)
    (row : Nat) {off : Nat} (ho : off < rowWidth) : kind.index sp row off =
      ((row * rowWidth + off) / sp.reshapeRowWidth, (row * rowWidth + off) % sp.reshapeRowWidth) := by
  obtain ⟨-, hw, -, hk, hreshape, -⟩ := describes
  have hcol : row % sp.k * rowWidth + off < sp.k * rowWidth := by
    calc _ < (row % sp.k + 1) * rowWidth := by
          rw [Nat.add_mul, Nat.one_mul]
          omega
      _ ≤ sp.k * rowWidth := Nat.mul_le_mul_right _ (Nat.mod_lt _ hk)
  have flat : row * rowWidth + off =
      row % sp.k * rowWidth + off + sp.k * rowWidth * (row / sp.k) := by
    conv_lhs => rw [← Nat.div_add_mod row sp.k]
    ring
  have simple : (row / sp.k, row % sp.k * rowWidth + off) =
      ((row * rowWidth + off) / (sp.k * rowWidth), (row * rowWidth + off) % (sp.k * rowWidth)) := by
    rw [flat, Nat.add_mul_mod_self_left, Nat.mod_eq_of_lt hcol,
      Nat.add_mul_div_left _ _ (by omega), Nat.div_eq_of_lt hcol, Nat.zero_add]
  rw [hreshape, hw, ← simple]
  cases kind with
  | frodo =>
      have hone := fits rfl
      simp [ResponseRewind.index, hone, Nat.mod_one]
  | simple => rw [ResponseRewind.index, hw]

/-- An existing cell lies within the reshaped matrix. -/
theorem index_lt (describes : sp.Describes nRows rowWidth plaintextBits) {row off : Nat}
    (hr : row < nRows) (ho : off < rowWidth) :
    (row * rowWidth + off) / sp.reshapeRowWidth < sp.reshapeRows ∧
      (row * rowWidth + off) % sp.reshapeRowWidth < sp.reshapeRowWidth := by
  have simple : ResponseRewind.simple.index sp row off =
      ((row * rowWidth + off) / sp.reshapeRowWidth, (row * rowWidth + off) % sp.reshapeRowWidth) :=
    index_eq (fun h => by cases h) describes row ho
  obtain ⟨hn, hw, -, hk, hreshape, hrows⟩ := describes
  have hpos : 0 < sp.reshapeRowWidth := by
    rw [hreshape, hw]
    exact Nat.mul_pos hk (by omega)
  refine ⟨?_, Nat.mod_lt _ hpos⟩
  have hdiv : (row * rowWidth + off) / sp.reshapeRowWidth = row / sp.k :=
    (Prod.mk.inj simple).1.symm
  rw [hdiv, hrows, hn, Nat.div_lt_iff_lt_mul hk]
  have := Nat.lt_div_mul_add (a := nRows + (sp.k - 1)) hk
  omega

/-- Flat positions and words of the entries. -/
def flatWords (rowWidth : Nat) (es : List ((Nat × Nat) × Int)) : List (Nat × BitVec 32) :=
  es.map fun e => (e.1.1 * rowWidth + e.1.2, BitVec.ofInt 32 e.2)

private theorem product_getElem? (q : Query) (D : Nat → BitVec 32) (c : Nat) :
    (sp.product q D).a[c]? = if c < sp.reshapeRowWidth
      then some (vecMul sp.shape (fun r => q.b.getD r 0) D c) else none := by
  by_cases hc : c < sp.reshapeRowWidth
  · simp [SimpleServerParams.product, hc]
  · simp [SimpleServerParams.product, hc]

/-- One subtraction takes one entry's share out of the response. -/
theorem term_product (fits : kind.Fits sp) (describes : sp.Describes nRows rowWidth plaintextBits)
    {q : Query} (hq : q.b.length = sp.reshapeRows) (D : Nat → BitVec 32)
    {e : (Nat × Nat) × Int} (hr : e.1.1 < nRows) (ho : e.1.2 < rowWidth)
    (es : List ((Nat × Nat) × Int)) :
    kind.term sp q (sp.product q fun i => D i + total (flatWords rowWidth (e :: es)) i).a e =
      some (sp.product q fun i => D i + total (flatWords rowWidth es) i).a := by
  obtain ⟨hbig, hcol⟩ := index_lt describes hr ho
  have hk : ¬ (kind = .simple ∧ sp.k = 0) := fun h => absurd h.2 (Nat.ne_of_gt describes.k_pos)
  rw [ResponseRewind.term, if_neg hk, index_eq fits describes _ ho]
  have hb : q.b[(e.1.1 * rowWidth + e.1.2) / sp.reshapeRowWidth]? =
      some (q.b.getD ((e.1.1 * rowWidth + e.1.2) / sp.reshapeRowWidth) 0) := by
    rw [List.getD_eq_getElem _ _ (by omega), List.getElem?_eq_getElem]
  simp only [hb, product_getElem?, if_pos hcol]
  congr 1
  refine List.ext_getElem? fun c => ?_
  rw [List.getElem?_set, product_getElem?, product_getElem?]
  have share : ∀ c' < sp.reshapeRowWidth,
      vecMul sp.shape (fun r => q.b.getD r 0)
          (fun i => D i + total (flatWords rowWidth (e :: es)) i) c' =
        vecMul sp.shape (fun r => q.b.getD r 0)
          (fun i => D i + total (flatWords rowWidth es) i) c' +
        if (e.1.1 * rowWidth + e.1.2) % sp.reshapeRowWidth = c' then
          q.b.getD ((e.1.1 * rowWidth + e.1.2) / sp.reshapeRowWidth) 0 * BitVec.ofInt 32 e.2
        else 0 := by
    intro c' hc'
    have hsingle := vecMul_single sp.shape (fun r => q.b.getD r 0)
      (e.1.1 * rowWidth + e.1.2) (BitVec.ofInt 32 e.2) hc'
    have split : (fun i => D i + total (flatWords rowWidth (e :: es)) i) = fun i =>
        (D i + total (flatWords rowWidth es) i) +
          single (e.1.1 * rowWidth + e.1.2) (BitVec.ofInt 32 e.2) i := by
      funext i
      have hcons : total (flatWords rowWidth (e :: es)) i =
          single (e.1.1 * rowWidth + e.1.2) (BitVec.ofInt 32 e.2) i +
            total (flatWords rowWidth es) i := by
        rw [flatWords, List.map_cons, total_cons, single]
        simp only [eq_comm, flatWords]
      rw [hcons]
      ring
    rw [split, vecMul_add, hsingle]
    have hrows : (e.1.1 * rowWidth + e.1.2) / sp.shape.width < sp.shape.rows := hbig
    simp only [hrows, and_true]
    rfl
  by_cases hc : c < sp.reshapeRowWidth
  · rw [if_pos hc, if_pos hc, share c hc]
    by_cases heq : (e.1.1 * rowWidth + e.1.2) % sp.reshapeRowWidth = c
    · subst heq
      rw [if_pos rfl, if_pos (by simpa [SimpleServerParams.product] using hcol), share _ hcol,
        if_pos rfl, add_sub_cancel_right]
    · rw [if_neg heq, if_neg heq, add_zero]
  · rw [if_neg (show ¬ (_ : Nat) = c from fun heq => hc (heq ▸ hcol)), if_neg hc, if_neg hc]

/-- The rewound response to `D + Δ` is the response to `D`. -/
theorem rewindResponse_product (fits : kind.Fits sp)
    (describes : sp.Describes nRows rowWidth plaintextBits) {q : Query}
    (hq : q.b.length = sp.reshapeRows) (D : Nat → BitVec 32) {deltas : SegmentDelta}
    (inside : ∀ e ∈ deltas.terms, e.1.1 < nRows ∧ e.1.2 < rowWidth) :
    kind.rewindResponse sp q
        (sp.product q fun i => D i + total (flatWords rowWidth deltas.terms) i) deltas =
      some (sp.product q D) := by
  rw [ResponseRewind.rewindResponse]
  generalize deltas.terms = es at inside
  induction es with
  | nil =>
      have zero : (fun i => D i + total (flatWords rowWidth []) i) = D := by
        funext i
        exact add_zero _
      rw [zero]
      rfl
  | cons e es ih =>
      obtain ⟨hr, ho⟩ := inside e (by simp)
      rw [List.foldlM_cons, term_product fits describes hq D hr ho es]
      exact ih fun e' he' => inside e' (List.mem_cons_of_mem e he')

end Mapping

end RisePir.Client.Rewind
