import RisePir.Server.Telescope

set_option autoImplicit false
set_option relaxedAutoImplicit false

/-! Runs of successful blocks, one after the other. -/

namespace RisePir.Server.Run

open RisePir.Lib.Sparse
open RisePir.Lib.Splice
open RisePir.Proto.Types
open RisePir.Upstream.Cuckoo
open RisePir.Upstream.Pir
open RisePir.Upstream.Slots
open RisePir.Server.Fold
open RisePir.Server.Core
open RisePir.Server.CellDelta
open RisePir.Server.Telescope

variable {p : CuckooParams} {C : SegmentedCuckoo p} {B : PirBackend}

/-- Consecutive blocks that all succeed, with the deltas they publish. -/
inductive BlockRun : RisePirServer C B → List BlockDelta → RisePirServer C B → Prop
  | nil (s : RisePirServer C B) : BlockRun s [] s
  | cons {rng : C.Rng} {s s₁ s₂ : RisePirServer C B} {update : BlockUpdate} {delta : BlockDelta}
      {report : BlockApplyReport} {ds : List BlockDelta} (next : update.block = s.block + 1)
      (step : s.applyBlockReporting rng update = (s₁, .ok (delta, report)))
      (rest : BlockRun s₁ ds s₂) : BlockRun s (delta :: ds) s₂

theorem cellOf_lt {K : SlotPacking p} (store : CuckooKVStore K) {j row offset : Nat}
    (hj : j < p.arity) (hr : row < p.segmentSize) (ho : offset < p.rowWidth) :
    cellOf p store.cells j row offset < 2 ^ p.plaintextBits :=
  cell_lt store (p.cellIndex_lt hj hr ho)

theorem segmentCells_lt {K : SlotPacking p} (store : CuckooKVStore K) {j : Nat}
    (hj : j < p.arity) :
    ∀ cell ∈ segmentCells p store.cells j, cell.toNat < 2 ^ p.plaintextBits := by
  intro cell hcell
  obtain ⟨i, hi, rfl⟩ := List.getElem_of_mem hcell
  have hi' : i < p.segCells := by
    rw [segmentCells_length store.cells_length hj] at hi
    exact hi
  have hread := getD_slice store.cells (j * p.segCells) p.segCells i 0
  rw [if_pos hi'] at hread
  have hlt : j * p.segCells + i < p.totalCells := by
    rw [← p.arity_mul_segCells]
    calc j * p.segCells + i < (j + 1) * p.segCells := by
          rw [Nat.add_mul, Nat.one_mul]
          omega
      _ ≤ p.arity * p.segCells := Nat.mul_le_mul_right _ hj
  rw [← List.getD_eq_getElem _ 0 hi, segmentCells, hread]
  exact cell_lt store hlt

/-- A change between two tables' cells that is zero outside the deployment is small. -/
theorem Moved.magnitude {K : SlotPacking p} {store store' : CuckooKVStore K}
    {change : Nat → Nat → Nat → Int} (moved : Moved p store.cells store'.cells change)
    (outside : ∀ j row offset, ¬ (j < p.arity ∧ row < p.segmentSize ∧ offset < p.rowWidth) →
      change j row offset = 0) (j row offset : Nat) :
    |change j row offset| < 2 ^ p.plaintextBits := by
  by_cases inside : j < p.arity ∧ row < p.segmentSize ∧ offset < p.rowWidth
  · obtain ⟨hj, hr, ho⟩ := inside
    have step := moved j row offset hj hr ho
    have before : (cellOf p store.cells j row offset : Int) < 2 ^ p.plaintextBits := by
      exact_mod_cast cellOf_lt store hj hr ho
    have after : (cellOf p store'.cells j row offset : Int) < 2 ^ p.plaintextBits := by
      exact_mod_cast cellOf_lt store' hj hr ho
    rw [abs_lt]
    constructor <;> omega
  · rw [outside j row offset inside]
    simp

/-- What a 32-bit deployment adds up stays far within `i64`. -/
theorem inI64_of_magnitude {z : Int} (h : |z| < 2 ^ p.plaintextBits) : InI64 z := by
  have hpow : (2 : Int) ^ p.plaintextBits ≤ 2 ^ 31 :=
    pow_le_pow_right₀ (by omega) p.plaintextBits_range.2
  have hz := abs_lt.mp h
  constructor <;> omega

theorem Fits.outside {d : BlockDelta} (h : Fits p d) {j row offset : Nat}
    (out : ¬ (j < p.arity ∧ row < p.segmentSize ∧ offset < p.rowWidth)) :
    d.at j row offset = 0 := by
  refine cellAt_eq_zero_of_notMem fun m hm => out ⟨?_, h.inside j _ hm⟩
  by_contra hj
  have : d.perSegment.getD j [] = [] := List.getD_eq_default _ _ (by rw [h.segments]; omega)
  rw [this] at hm
  exact absurd hm (by simp)

/-- A published block leaves every segment its parameters. -/
theorem params_published {s s' : RisePirServer C B} {d : BlockDelta} (published : Published s s' d) :
    s'.segments.map SegmentState.params = s.segments.map SegmentState.params := by
  rw [published.segments]
  apply List.ext_getElem?
  intro j
  rw [List.getElem?_map, List.getElem?_map,
    patchSegments_getElem? (published.fits.segments.trans s.segments_length.symm)]
  cases s.segments[j]? with
  | none => rfl
  | some seg => exact congrArg some (patchSegment_params seg _)

namespace BlockRun

variable {s s' : RisePirServer C B} {ds : List BlockDelta}

theorem append {s'' : RisePirServer C B} {ds' : List BlockDelta} (h : BlockRun s ds s')
    (h' : BlockRun s' ds' s'') : BlockRun s (ds ++ ds') s'' := by
  induction h with
  | nil s => exact h'
  | cons next step rest ih => exact .cons next step (ih h')

theorem split {ds' : List BlockDelta} (h : BlockRun s (ds ++ ds') s') :
    ∃ mid, BlockRun s ds mid ∧ BlockRun mid ds' s' := by
  induction ds generalizing s with
  | nil => exact ⟨s, .nil s, h⟩
  | cons d ds ih =>
      cases h with
      | cons next step rest =>
          obtain ⟨mid, first, second⟩ := ih rest
          exact ⟨mid, .cons next step first, second⟩

/-- What holds of the first server, and after a published block of a server it holds of,
holds at the end. -/
theorem induct (laws : C.LogLaws) {P : RisePirServer C B → Prop} (h : BlockRun s ds s')
    (step : ∀ s s' delta, Published s s' delta → P s → P s') (start : P s) : P s' := by
  induction h with
  | nil s => exact start
  | cons next hstep rest ih => exact ih (step _ _ _ (apply_published laws hstep).1 start)

theorem fits (laws : C.LogLaws) (h : BlockRun s ds s') : ∀ d ∈ ds, Fits p d := by
  induction h with
  | nil s => simp
  | cons next step rest ih =>
      intro d hd
      rcases List.mem_cons.mp hd with rfl | hd
      · exact (apply_published laws step).1.fits
      · exact ih d hd

theorem block (laws : C.LogLaws) (h : BlockRun s ds s') : s'.block = s.block + ds.length := by
  induction h with
  | nil s => rfl
  | cons next step rest ih =>
      obtain ⟨published, hblock⟩ := apply_published laws step
      rw [ih, published.head, hblock, next, List.length_cons]
      omega

theorem consecutive (laws : C.LogLaws) (h : BlockRun s ds s') :
    Consecutive p.arity (s.block + 1) ds := by
  induction h with
  | nil s => exact .nil _
  | cons next step rest ih =>
      obtain ⟨published, hblock⟩ := apply_published laws step
      rw [published.head] at ih
      rw [← next, ← hblock]
      exact .cons published.fits.segments ih

/-- The cells move by the sum of the published deltas. -/
theorem moved (laws : C.LogLaws) (h : BlockRun s ds s') :
    Moved p s.store.cells s'.store.cells (sumAt ds) := by
  induction h with
  | nil s => exact Moved.refl _
  | @cons rng s s₁ s₂ update delta report ds next step rest ih =>
      have whole := (apply_published laws step).1.moved.trans ih
      have eq : sumAt (delta :: ds) = fun j row offset => delta.at j row offset +
          sumAt ds j row offset := by
        funext j row offset
        exact sumAt_cons delta ds j row offset
      rw [eq]
      exact whole

theorem sumAt_outside (laws : C.LogLaws) (h : BlockRun s ds s') {j row offset : Nat}
    (out : ¬ (j < p.arity ∧ row < p.segmentSize ∧ offset < p.rowWidth)) :
    sumAt ds j row offset = 0 := by
  refine List.sum_eq_zero fun x hx => ?_
  obtain ⟨d, hd, rfl⟩ := List.mem_map.mp hx
  exact Fits.outside (h.fits laws d hd) out

/-- Every sum over a stretch of the run is a difference of cells. -/
theorem sumAt_inI64 (laws : C.LogLaws) (h : BlockRun s ds s') (j row offset : Nat) :
    InI64 (sumAt ds j row offset) :=
  inI64_of_magnitude (Moved.magnitude (h.moved laws) (fun _ _ _ => h.sumAt_outside laws) j row offset)

/-- A stretch of at least one block coalesces to one delta of the same change. -/
theorem coalesced (laws : C.LogLaws) (h : BlockRun s ds s') (hne : ds ≠ []) :
    ∃ d, coalesce ds = .ok d ∧ d.block = s'.block ∧ d.perSegment.length = p.arity ∧
      d.IsCanonical ∧ ∀ j row offset, d.at j row offset = sumAt ds j row offset := by
  have prefixes : ∀ pre, pre <+: ds → ∀ j r k, InI64 (sumAt pre j r k) := by
    rintro pre ⟨post, rfl⟩ j r k
    obtain ⟨mid, first, -⟩ := h.split
    exact first.sumAt_inI64 laws j r k
  obtain ⟨d, hd, hblock, hseg, hcan, hat⟩ := coalesce_ok hne (h.consecutive laws)
    (fun d hd => (h.fits laws d hd).canonical) prefixes
  refine ⟨d, hd, ?_, hseg, hcan, hat⟩
  have := h.block laws
  omega

theorem wellFormed (logLaws : C.LogLaws) (laws : B.ServerLaws) (h : BlockRun s ds s')
    (wf : WellFormed s) : WellFormed s' :=
  h.induct (P := WellFormed) logLaws (fun _ _ _ published => published.wellFormed laws) wf

theorem hintsMatch (logLaws : C.LogLaws) (laws : B.ServerLaws) (h : BlockRun s ds s')
    (wf : WellFormed s) (hints : HintsMatch (p := p) s.segments s.store.cells) :
    HintsMatch (p := p) s'.segments s'.store.cells := by
  have both := h.induct (P := fun s => WellFormed s ∧ HintsMatch (p := p) s.segments s.store.cells)
    logLaws (fun _ _ _ published ⟨wf, hints⟩ =>
      ⟨published.wellFormed laws wf, published.hintsMatch laws wf hints⟩) ⟨wf, hints⟩
  exact both.2

/-- No block changes a segment's parameters. -/
theorem params (laws : C.LogLaws) (h : BlockRun s ds s') :
    s'.segments.map SegmentState.params = s.segments.map SegmentState.params := by
  exact h.induct (P := fun t => t.segments.map SegmentState.params =
    s.segments.map SegmentState.params) laws (fun _ _ _ published ht => (params_published published).trans ht) rfl

theorem valueCodec (laws : C.LogLaws) (h : BlockRun s ds s') : s'.valueCodec = s.valueCodec :=
  h.induct (P := fun t => t.valueCodec = s.valueCodec) laws
    (fun _ _ _ published ht => published.codec.trans ht) rfl

end BlockRun

end RisePir.Server.Run
