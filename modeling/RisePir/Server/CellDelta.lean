import RisePir.Proto.Codec
import RisePir.Server.Core

set_option autoImplicit false
set_option relaxedAutoImplicit false

/-! Cell arrays that differ by a delta: in the integers, cell by cell, and mod `2^32`,
segment by segment. -/

namespace RisePir.Server.CellDelta

open RisePir.Lib.FlatMatrix
open RisePir.Lib.Sparse
open RisePir.Lib.Splice
open RisePir.Proto.Codec
open RisePir.Proto.Types
open RisePir.Upstream.Cuckoo
open RisePir.Upstream.Pir
open RisePir.Server.Fold
open RisePir.Server.Core

variable {p : CuckooParams}

/-- The delta of segment `j`. -/
abbrev segmentOf (d : BlockDelta) (j : Nat) : SegmentRowDeltas := d.perSegment.getD j []

/-- A delta of the deployment: one canonical list per segment, every entry on a cell of
the segment and below the plaintext modulus. -/
structure Fits (p : CuckooParams) (d : BlockDelta) : Prop where
  segments : d.perSegment.length = p.arity
  canonical : d.IsCanonical
  inside : ∀ j, ∀ e ∈ entries (segmentOf d j), e.1.1 < p.segmentSize ∧ e.1.2 < p.rowWidth
  magnitude : ∀ j, ∀ e ∈ entries (segmentOf d j), |e.2| < 2 ^ p.plaintextBits

/-- `cells'` is `cells` with `change` added cell by cell, and nowhere else. -/
def Moved (p : CuckooParams) (cells cells' : List (BitVec 32)) (change : Nat → Nat → Nat → Int) :
    Prop := ∀ j row offset, j < p.arity → row < p.segmentSize → offset < p.rowWidth →
      (cellOf p cells' j row offset : Int) = cellOf p cells j row offset + change j row offset

theorem Moved.refl (cells : List (BitVec 32)) : Moved p cells cells fun _ _ _ => 0 :=
  fun _ _ _ _ _ _ => (add_zero _).symm

theorem Moved.trans {a b c : List (BitVec 32)} {f g : Nat → Nat → Nat → Int}
    (h : Moved p a b f) (h' : Moved p b c g) :
    Moved p a c fun j row offset => f j row offset + g j row offset := by
  intro j row offset hj hr ho
  rw [h' j row offset hj hr ho, h j row offset hj hr ho, add_assoc]

theorem segmentCells_length {cells : List (BitVec 32)} (hcells : cells.length = p.totalCells)
    {j : Nat} (hj : j < p.arity) :
    (segmentCells p cells j).length = p.segmentSize * p.rowWidth := by
  refine length_slice ?_
  rw [hcells, ← p.arity_mul_segCells]
  calc j * p.segCells + p.segCells = (j + 1) * p.segCells := by ring
    _ ≤ p.arity * p.segCells := Nat.mul_le_mul_right _ hj

theorem segmentCells_getD (cells : List (BitVec 32)) {j row offset : Nat}
    (hr : row < p.segmentSize) (ho : offset < p.rowWidth) :
    (segmentCells p cells j).getD (row * p.rowWidth + offset) 0 =
      cells.getD (p.cellIndex j row offset) 0 := by
  rw [segmentCells, getD_slice, if_pos (p.row_offset_lt hr ho)]
  rfl

/-- Mod `2^32` the segments differ by the delta's words. -/
theorem cellFn_moved {cells cells' : List (BitVec 32)} (hcells : cells.length = p.totalCells)
    (hcells' : cells'.length = p.totalCells) {deltas : Nat → SegmentRowDeltas}
    (inside : ∀ j, ∀ e ∈ entries (deltas j), e.1.1 < p.segmentSize ∧ e.1.2 < p.rowWidth)
    (moved : Moved p cells cells' fun j row offset => cellAt (deltas j) row offset) {j : Nat}
    (hj : j < p.arity) :
    cellFn (segmentCells p cells' j) =
      fun i => cellFn (segmentCells p cells j) i + deltaFn p.rowWidth (deltas j) i := by
  funext i
  have hi : i / p.rowWidth * p.rowWidth + i % p.rowWidth = i := Nat.div_add_mod' _ _
  have ho : i % p.rowWidth < p.rowWidth := Nat.mod_lt _ p.rowWidth_pos
  have word : deltaFn p.rowWidth (deltas j) i =
      BitVec.ofInt 32 (cellAt (deltas j) (i / p.rowWidth) (i % p.rowWidth)) := by
    conv_lhs => rw [← hi]
    exact deltaFn_cell (fun e he => (inside j e he).2) ho
  by_cases hr : i / p.rowWidth < p.segmentSize
  · have step := moved j _ _ hj hr ho
    have after := segmentCells_getD (j := j) cells' hr ho
    have before := segmentCells_getD (j := j) cells hr ho
    rw [hi] at after before
    rw [word]
    unfold cellFn
    rw [after, before]
    apply BitVec.eq_of_toInt_eq
    have cast : ∀ x : BitVec 32, x = BitVec.ofInt 32 (x.toNat : Int) := fun x => by simp
    have sum : cells'.getD (p.cellIndex j (i / p.rowWidth) (i % p.rowWidth)) 0 =
        BitVec.ofInt 32 (cells.getD (p.cellIndex j (i / p.rowWidth) (i % p.rowWidth)) 0).toNat +
          BitVec.ofInt 32 (cellAt (deltas j) (i / p.rowWidth) (i % p.rowWidth)) := by
      rw [← BitVec.ofInt_add]
      rw [cellOf, cellOf] at step
      rw [← step]
      exact cast _
    rw [sum, ← cast]
  · have zero : cellAt (deltas j) (i / p.rowWidth) (i % p.rowWidth) = 0 :=
      cellAt_eq_zero_of_notMem fun _ hm => hr (inside j _ hm).1
    have past : ∀ cs : List (BitVec 32), cs.length = p.totalCells →
        cellFn (segmentCells p cs j) i = 0 := by
      intro cs hcs
      refine List.getD_eq_default _ _ ?_
      rw [segmentCells_length hcs hj]
      calc p.segmentSize * p.rowWidth ≤ i / p.rowWidth * p.rowWidth :=
            Nat.mul_le_mul_right _ (by omega)
        _ ≤ i := by omega
    rw [past cells' hcells', past cells hcells, word, zero]
    rfl

section Wire

private theorem ascending_length {l : List Nat} (h : l.Pairwise (· < ·)) {n : Nat}
    (below : ∀ i ∈ l, i < n) : l.length ≤ n := by
  have nodup : l.Nodup := h.imp fun hlt => ne_of_lt hlt
  have sub : l ⊆ List.range n := fun i hi => List.mem_range.mpr (below i hi)
  simpa using (nodup.subperm sub).length_le

private theorem mem_segment {d : BlockDelta} {seg : SegmentRowDeltas} (h : seg ∈ d.perSegment) :
    ∃ j, segmentOf d j = seg := by
  obtain ⟨j, hj, rfl⟩ := List.getElem_of_mem h
  exact ⟨j, List.getD_eq_getElem _ _ hj⟩

/-- A delta of the deployment under a `u64` block number fits the wire. -/
theorem Fits.wireFits {d : BlockDelta} (h : Fits p d) (word : d.block < 2 ^ 64) :
    WireFits p.plaintextBits d := by
  have hbuckets := p.numBuckets_range.2
  have hsegment : p.segmentSize < 2 ^ 32 := lt_of_le_of_lt (Nat.div_le_self _ _) hbuckets
  have hwidth : p.rowWidth ≤ 2 ^ 16 := p.rowWidth_fits
  have cells : ∀ seg ∈ d.perSegment, ∀ row ∈ seg, ∀ e ∈ row.2,
      row.1 < p.segmentSize ∧ e.1 < p.rowWidth ∧ |e.2| < 2 ^ p.plaintextBits := by
    intro seg hseg row hrow e he
    obtain ⟨j, rfl⟩ := mem_segment hseg
    have hmem : ((row.1, e.1), e.2) ∈ entries (segmentOf d j) := mem_entries.mpr ⟨row.2, hrow, he⟩
    have inside := h.inside j _ hmem
    exact ⟨inside.1, inside.2, h.magnitude j _ hmem⟩
  have rows : ∀ seg ∈ d.perSegment, ∀ row ∈ seg, row.1 < p.segmentSize := by
    intro seg hseg row hrow
    obtain ⟨e, he⟩ := List.exists_mem_of_ne_nil _ ((h.canonical seg hseg).rows_nonempty row hrow)
    exact (cells seg hseg row hrow e he).1
  refine ⟨word, ?_, fun seg hseg => ?_, fun seg hseg row hrow => ⟨?_, ?_⟩,
    fun seg hseg row hrow e he => ⟨?_, ?_⟩⟩
  · have := p.arity_range
    rw [h.segments]
    omega
  · have length := ascending_length (h.canonical seg hseg).rows_ascending (n := p.segmentSize)
      fun i hi => by
        obtain ⟨row, hrow, rfl⟩ := List.mem_map.mp hi
        exact rows seg hseg row hrow
    rw [List.length_map] at length
    omega
  · exact lt_trans (rows seg hseg row hrow) hsegment
  · have length := ascending_length ((h.canonical seg hseg).columns_ascending row hrow)
      (n := p.rowWidth) fun i hi => by
        obtain ⟨e, he, rfl⟩ := List.mem_map.mp hi
        exact (cells seg hseg row hrow e he).2.1
    rw [List.length_map] at length
    omega
  · exact lt_of_lt_of_le (cells seg hseg row hrow e he).2.1 hwidth
  · have magnitude := (cells seg hseg row hrow e he).2.2
    rw [Int.abs_eq_natAbs] at magnitude
    exact_mod_cast magnitude

/-- Its body decodes to it. -/
theorem Fits.decode_encode {d : BlockDelta} (h : Fits p d) (word : d.block < 2 ^ 64) :
    decodeBlockDelta (encodeBlockDelta d) p.plaintextBits p.arity = .ok d := by
  rw [← h.segments]
  exact Proto.Codec.decode_encode p.plaintextBits_range (h.wireFits word) h.canonical

end Wire

/-- A canonical delta of small values on the deployment's cells fits it. -/
theorem fits_of_at {d : BlockDelta} (segments : d.perSegment.length = p.arity)
    (canonical : d.IsCanonical)
    (outside : ∀ j row offset, ¬ (j < p.arity ∧ row < p.segmentSize ∧ offset < p.rowWidth) →
      d.at j row offset = 0)
    (magnitude : ∀ j row offset, |d.at j row offset| < 2 ^ p.plaintextBits) : Fits p d := by
  have value : ∀ j, ∀ e ∈ entries (segmentOf d j), d.at j e.1.1 e.1.2 = e.2 ∧ e.2 ≠ 0 :=
    fun j e he => (canonical.segment j).mem_entries_iff.mp he
  refine ⟨segments, canonical, fun j e he => ?_, fun j e he => ?_⟩
  · obtain ⟨hvalue, hne⟩ := value j e he
    by_contra out
    exact hne (hvalue ▸ outside j _ _ fun inside => out inside.2)
  · rw [← (value j e he).1]
    exact magnitude j _ _

end RisePir.Server.CellDelta
