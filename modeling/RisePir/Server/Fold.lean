import RisePir.Lib.FlatMatrix
import RisePir.Lib.Sparse
import RisePir.Upstream.Slots

set_option autoImplicit false
set_option relaxedAutoImplicit false

/-! Slot mutations folded into sparse per-segment row deltas. -/

namespace RisePir.Server.Fold

open RisePir.Lib.FlatMatrix (flat_index_eq_iff)
open RisePir.Lib.Sparse
open RisePir.Lib.Splice
open RisePir.Proto.Types
open RisePir.Upstream.Cuckoo
open RisePir.Upstream.Slots
open Std (ExtTreeMap)

variable {p : CuckooParams} (C : SegmentedCuckoo p)

/-- `new_buf[c] - old_buf[c]` as `i64`. -/
def cellDelta (m : SlotMutation) (c : Nat) : Int :=
  ((C.newContent m).getD c 0).toNat - ((C.oldContent m).getD c 0).toNat

/-- One cell of a mutation into its row's accumulator; zero deltas are skipped. -/
def foldCell (m : SlotMutation) (row : ExtTreeMap Nat Int) (c : Nat) : ExtTreeMap Nat Int :=
  let delta := cellDelta C m c
  if delta = 0 then row else bump row (m.slot * p.cellsPerSlot + c) delta

/-- One mutation into the accumulator of its segment. -/
def foldMutation (acc : List (Accumulator Nat Nat Int)) (m : SlotMutation) :
    List (Accumulator Nat Nat Int) :=
  let bucketInSeg := m.bucket % p.segmentSize
  acc.modify (m.bucket / p.segmentSize) fun t =>
    t.insert bucketInSeg ((List.range p.cellsPerSlot).foldl (foldCell C m) (t[bucketInSeg]?.getD ∅))

/-- Fold a batch of slot mutations into per-segment, per-row sparse cell deltas. -/
def foldMutationsIntoRowDeltas (muts : List SlotMutation) : List SegmentRowDeltas :=
  (muts.foldl (foldMutation C) (List.replicate p.arity ∅)).map Accumulator.toRows

/-- What a mutation adds at cell `(segment, row, offset)`. -/
def mutationAt (m : SlotMutation) (j row offset : Nat) : Int :=
  if m.bucket / p.segmentSize = j ∧ m.bucket % p.segmentSize = row ∧
      m.slot * p.cellsPerSlot ≤ offset ∧ offset < m.slot * p.cellsPerSlot + p.cellsPerSlot
  then cellDelta C m (offset - m.slot * p.cellsPerSlot) else 0

variable {C}

private theorem foldCell_getD (m : SlotMutation) (row : ExtTreeMap Nat Int) (c offset : Nat) :
    (foldCell C m row c)[offset]?.getD 0 =
      row[offset]?.getD 0 + if m.slot * p.cellsPerSlot + c = offset then cellDelta C m c else 0 := by
  simp only [foldCell]
  by_cases h : cellDelta C m c = 0
  · rw [if_pos h, h, ite_self, add_zero]
  · rw [if_neg h, bump_getD]

private theorem foldCells_getD (m : SlotMutation) (row : ExtTreeMap Nat Int) (n offset : Nat) :
    ((List.range n).foldl (foldCell C m) row)[offset]?.getD 0 = row[offset]?.getD 0 +
      if m.slot * p.cellsPerSlot ≤ offset ∧ offset < m.slot * p.cellsPerSlot + n
      then cellDelta C m (offset - m.slot * p.cellsPerSlot) else 0 := by
  induction n with
  | zero => simp
  | succ n ih =>
      rw [List.range_succ, List.foldl_append, List.foldl_cons, List.foldl_nil, foldCell_getD, ih,
        add_assoc]
      congr 1
      by_cases h : m.slot * p.cellsPerSlot + n = offset
      · subst h
        rw [if_neg (by omega), if_pos rfl, if_pos (by omega), Nat.add_sub_cancel_left, zero_add]
      · rw [if_neg h, add_zero]
        by_cases hn : m.slot * p.cellsPerSlot ≤ offset ∧ offset < m.slot * p.cellsPerSlot + n
        · rw [if_pos hn, if_pos (by omega)]
        · rw [if_neg hn, if_neg (by omega)]

/-- The running sum of segment `j` at one cell. -/
def accAt (acc : List (Accumulator Nat Nat Int)) (j row offset : Nat) : Int :=
  (acc.getD j ∅ : Accumulator Nat Nat Int).cell row offset

private theorem foldMutation_accAt {acc : List (Accumulator Nat Nat Int)} {m : SlotMutation}
    (h : m.bucket / p.segmentSize < acc.length) (j row offset : Nat) :
    accAt (foldMutation C acc m) j row offset = accAt acc j row offset + mutationAt C m j row offset := by
  unfold accAt foldMutation mutationAt
  by_cases hj : m.bucket / p.segmentSize = j
  · subst hj
    simp only [List.getD_eq_getElem?_getD, List.getElem?_modify_eq]
    rw [List.getElem?_eq_getElem h, Option.map_eq_map, Option.map_some, Option.getD_some,
      Option.getD_some, Accumulator.cell_insert]
    by_cases hr : m.bucket % p.segmentSize = row
    · subst hr
      rw [if_pos rfl, foldCells_getD, Accumulator.cell]
      simp
    · rw [if_neg hr, if_neg fun hand => hr hand.2.1, add_zero]
  · simp only [List.getD_eq_getElem?_getD, List.getElem?_modify_ne _ _ hj]
    rw [if_neg fun hand => hj hand.1, add_zero]

private theorem foldMutation_length (acc : List (Accumulator Nat Nat Int)) (m : SlotMutation) :
    (foldMutation C acc m).length = acc.length := by
  simp [foldMutation]

private theorem foldMutations_accAt {muts : List SlotMutation}
    (inside : ∀ m ∈ muts, m.bucket < p.numBuckets) (acc : List (Accumulator Nat Nat Int))
    (length : acc.length = p.arity) (j row offset : Nat) :
    accAt (muts.foldl (foldMutation C) acc) j row offset =
      accAt acc j row offset + (muts.map fun m => mutationAt C m j row offset).sum := by
  induction muts generalizing acc with
  | nil => simp
  | cons m muts ih =>
      have hseg : m.bucket / p.segmentSize < acc.length := by
        rw [length]
        exact p.segment_lt (inside m (by simp))
      rw [List.foldl_cons, ih (fun m' hm => inside m' (List.mem_cons_of_mem m hm)) _
        ((foldMutation_length acc m).trans length), foldMutation_accAt hseg, List.map_cons,
        List.sum_cons, add_assoc]

private theorem foldMutations_length (muts : List SlotMutation)
    (acc : List (Accumulator Nat Nat Int)) :
    (muts.foldl (foldMutation C) acc).length = acc.length := by
  induction muts generalizing acc with
  | nil => rfl
  | cons m muts ih => rw [List.foldl_cons, ih, foldMutation_length]

theorem fold_length (muts : List SlotMutation) :
    (foldMutationsIntoRowDeltas C muts).length = p.arity := by
  rw [foldMutationsIntoRowDeltas, List.length_map, foldMutations_length, List.length_replicate]

theorem fold_canonical (muts : List SlotMutation) :
    ∀ seg ∈ foldMutationsIntoRowDeltas C muts, Canonical seg := by
  intro seg hseg
  obtain ⟨acc, -, rfl⟩ := List.mem_map.mp hseg
  exact acc.toRows_canonical

theorem replicate_getD_empty (n j : Nat) :
    (List.replicate n ∅ : List (Accumulator Nat Nat Int)).getD j ∅ = ∅ := by
  by_cases h : j < n <;> simp [h]

theorem map_toRows_getD (accs : List (Accumulator Nat Nat Int)) (j r k : Nat) :
    cellAt ((accs.map Accumulator.toRows).getD j []) r k = accAt accs j r k := by
  unfold accAt
  by_cases hj : j < accs.length
  · rw [List.getD_eq_getElem _ _ (by simpa using hj), List.getD_eq_getElem _ _ hj,
      List.getElem_map, Accumulator.cellAt_toRows]
  · rw [List.getD_eq_default _ _ (by simpa using hj), List.getD_eq_default _ _ (by omega)]
    simp

/-- The folded delta at a cell is the sum of what the mutations add there. -/
theorem fold_cellAt {muts : List SlotMutation} (inside : ∀ m ∈ muts, m.bucket < p.numBuckets)
    (j row offset : Nat) :
    cellAt ((foldMutationsIntoRowDeltas C muts).getD j []) row offset =
      (muts.map fun m => mutationAt C m j row offset).sum := by
  have start : accAt (List.replicate p.arity ∅) j row offset = 0 := by
    rw [accAt, replicate_getD_empty, Accumulator.cell_empty]
  rw [foldMutationsIntoRowDeltas, map_toRows_getD,
    foldMutations_accAt inside _ List.length_replicate, start, zero_add]

/-- The cell `(segment, row, offset)` of the flat array. -/
def cellOf (p : CuckooParams) (cells : List (BitVec 32)) (j row offset : Nat) : Nat :=
  (cells.getD (p.cellIndex j row offset) 0).toNat

private theorem cellIndex_in_slot {m : SlotMutation} (hs : p.IsSlot (m.bucket, m.slot))
    {j row offset : Nat} (hr : row < p.segmentSize) (ho : offset < p.rowWidth) :
    (p.slotStart m.bucket m.slot ≤ p.cellIndex j row offset ∧
        p.cellIndex j row offset < p.slotStart m.bucket m.slot + p.cellsPerSlot) ↔
      (m.bucket / p.segmentSize = j ∧ m.bucket % p.segmentSize = row ∧
        m.slot * p.cellsPerSlot ≤ offset ∧
        offset < m.slot * p.cellsPerSlot + p.cellsPerSlot) := by
  constructor
  · rintro ⟨hlo, hhi⟩
    obtain ⟨c, hc⟩ := Nat.exists_eq_add_of_le hlo
    have hcps : c < p.cellsPerSlot := by omega
    have hmod : m.bucket % p.segmentSize < p.segmentSize := Nat.mod_lt m.bucket p.segmentSize_pos
    have hoff : m.slot * p.cellsPerSlot + c < p.rowWidth := p.slot_offset_lt hs.2 hcps
    rw [p.slotStart_add, CuckooParams.cellIndex, CuckooParams.cellIndex] at hc
    have hseg := (flat_index_eq_iff (p.row_offset_lt hr ho) (p.row_offset_lt hmod hoff)).mp hc
    have hrow := (flat_index_eq_iff ho hoff).mp hseg.2
    have hcell : offset = m.slot * p.cellsPerSlot + c := hrow.2
    exact ⟨hseg.1.symm, hrow.1.symm, by omega, by omega⟩
  · rintro ⟨rfl, rfl, hlo, hhi⟩
    obtain ⟨c, rfl⟩ := Nat.exists_eq_add_of_le hlo
    rw [← p.slotStart_add]
    omega

/-- One logged write moves each cell by what the mutation adds there. -/
private theorem writeSlot_cellOf {cells : List (BitVec 32)} {m : SlotMutation}
    (hcells : cells.length = p.totalCells) (hs : p.IsSlot (m.bucket, m.slot))
    (old : slotCells p cells (m.bucket, m.slot) = C.oldContent m)
    {j row offset : Nat} (hr : row < p.segmentSize) (ho : offset < p.rowWidth) :
    (cellOf p (writeSlot p cells (m.bucket, m.slot) (C.newContent m)) j row offset : Int) =
      cellOf p cells j row offset + mutationAt C m j row offset := by
  have bound := p.slotStart_le hs
  have hnew : (C.newContent m).length = p.cellsPerSlot := C.pack_length _ _
  have window := cellIndex_in_slot hs (j := j) hr ho
  unfold cellOf mutationAt writeSlot
  rw [getD_splice (by rw [hnew, hcells]; exact bound), hnew]
  by_cases h : p.slotStart m.bucket m.slot ≤ p.cellIndex j row offset ∧
      p.cellIndex j row offset < p.slotStart m.bucket m.slot + p.cellsPerSlot
  · obtain ⟨rfl, rfl, hlo, hhi⟩ := window.mp h
    obtain ⟨c, rfl⟩ := Nat.exists_eq_add_of_le hlo
    have hc : c < p.cellsPerSlot := by omega
    rw [if_pos h, if_pos (window.mp h), ← p.slotStart_add, Nat.add_sub_cancel_left,
      Nat.add_sub_cancel_left, cellDelta]
    have before : (C.oldContent m).getD c 0 = cells.getD (p.slotStart m.bucket m.slot + c) 0 := by
      rw [← old, slotCells, getD_slice, if_pos hc]
    rw [before]
    omega
  · rw [if_neg h, if_neg fun hw => h (window.mpr hw), add_zero]

theorem replays_inside {cells after : List (BitVec 32)} {muts : List SlotMutation}
    (h : C.Replays cells muts after) : ∀ m ∈ muts, p.IsSlot (m.bucket, m.slot) := by
  induction h with
  | nil cells => simp
  | cons slot old rest ih =>
      intro m' hm
      rcases List.mem_cons.mp hm with rfl | hm
      · exact slot
      · exact ih m' hm

/-- Over a whole log the writes telescope: each cell moves by the sum of what the
mutations add there. -/
theorem replays_cellOf {cells after : List (BitVec 32)}
    {muts : List SlotMutation} (h : C.Replays cells muts after)
    (hcells : cells.length = p.totalCells) {j row offset : Nat} (hr : row < p.segmentSize)
    (ho : offset < p.rowWidth) :
    (cellOf p after j row offset : Int) =
      cellOf p cells j row offset + (muts.map fun m => mutationAt C m j row offset).sum := by
  induction h with
  | nil cells => simp
  | @cons cells after m muts slot old rest ih =>
      have step := writeSlot_cellOf hcells slot old (j := j) hr ho
      have hnew : (C.newContent m).length = p.cellsPerSlot := C.pack_length _ _
      have hlen := writeSlot_length slot hcells hnew
      rw [ih hlen, List.map_cons, List.sum_cons, ← add_assoc]
      congr 1

private theorem content_lt (fingerprint : Nat) (vcells : List (BitVec 32))
    (c : Nat) : ((C.packSlotCells fingerprint vcells).getD c 0).toNat < 2 ^ p.plaintextBits := by
  by_cases hc : c < (C.packSlotCells fingerprint vcells).length
  · rw [List.getD_eq_getElem _ _ hc]
    exact C.pack_lt _ _ _ (List.getElem_mem hc)
  · rw [List.getD_eq_default _ _ (by omega)]
    simp

/-- A cell that a log touches held a plaintext value before and holds one after. -/
theorem replays_bounded {cells after : List (BitVec 32)}
    {muts : List SlotMutation} (h : C.Replays cells muts after)
    (hcells : cells.length = p.totalCells) {j row offset : Nat} (hr : row < p.segmentSize)
    (ho : offset < p.rowWidth) :
    (muts.map fun m => mutationAt C m j row offset).sum = 0 ∨
      (cellOf p cells j row offset < 2 ^ p.plaintextBits ∧
        cellOf p after j row offset < 2 ^ p.plaintextBits) := by
  induction h with
  | nil cells => exact Or.inl rfl
  | @cons cells after m muts slot old rest ih =>
      have step := writeSlot_cellOf hcells slot old (j := j) hr ho
      have hnew : (C.newContent m).length = p.cellsPerSlot := C.pack_length _ _
      have hlen := writeSlot_length slot hcells hnew
      have bound := p.slotStart_le slot
      have telescope := replays_cellOf rest hlen (j := j) hr ho
      have ih := ih hlen
      have window := cellIndex_in_slot slot (j := j) hr ho
      by_cases hw : p.slotStart m.bucket m.slot ≤ p.cellIndex j row offset ∧
          p.cellIndex j row offset < p.slotStart m.bucket m.slot + p.cellsPerSlot
      · right
        have before : cellOf p cells j row offset < 2 ^ p.plaintextBits := by
          obtain ⟨c, hc⟩ := Nat.exists_eq_add_of_le hw.1
          have hcps : c < p.cellsPerSlot := by omega
          have read : (C.oldContent m).getD c 0 = cells.getD (p.cellIndex j row offset) 0 := by
            rw [← old, slotCells, getD_slice, if_pos hcps, hc]
          rw [cellOf, ← read]
          exact content_lt _ _ c
        have written : cellOf p (writeSlot p cells (m.bucket, m.slot) (C.newContent m)) j row offset <
            2 ^ p.plaintextBits := by
          rw [cellOf, writeSlot, getD_splice (by rw [hnew, hcells]; exact bound), hnew, if_pos hw]
          exact content_lt _ _ _
        refine ⟨before, ?_⟩
        rcases ih with hsum | ⟨-, hafter⟩
        · rw [hsum, add_zero] at telescope
          have same : cellOf p after j row offset =
              cellOf p (writeSlot p cells (m.bucket, m.slot) (C.newContent m)) j row offset :=
            Int.ofNat_inj.mp telescope
          rw [same]
          exact written
        · exact hafter
      · have none_here : mutationAt C m j row offset = 0 := if_neg fun h => hw (window.mpr h)
        have same : cellOf p (writeSlot p cells (m.bucket, m.slot) (C.newContent m)) j row offset =
            cellOf p cells j row offset := by
          rw [none_here, add_zero] at step
          exact Int.ofNat_inj.mp step
        rw [List.map_cons, List.sum_cons, none_here, zero_add, ← same]
        exact ih

/-- A mutation adds nothing outside the rows and columns of its segment. -/
theorem mutationAt_inside {m : SlotMutation} (hs : p.IsSlot (m.bucket, m.slot))
    {j row offset : Nat} (h : mutationAt C m j row offset ≠ 0) :
    j < p.arity ∧ row < p.segmentSize ∧ offset < p.rowWidth := by
  unfold mutationAt at h
  split at h
  · rename_i hw
    obtain ⟨rfl, rfl, hlo, hhi⟩ := hw
    obtain ⟨c, rfl⟩ := Nat.exists_eq_add_of_le hlo
    exact ⟨p.segment_lt hs.1, Nat.mod_lt _ p.segmentSize_pos,
      p.slot_offset_lt hs.2 (by omega)⟩
  · exact absurd rfl h

end RisePir.Server.Fold
