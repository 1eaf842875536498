import RisePir.Client.Tracking
import RisePir.Server.Verified

set_option autoImplicit false
set_option relaxedAutoImplicit false

/-! `finish` on a following client: it scans exactly the head's candidate slots. -/

namespace RisePir.Client.Lookup

open RisePir.Lib.Sparse
open RisePir.Lib.Splice
open RisePir.Proto.Types
open RisePir.Proto.Value
open RisePir.Upstream.Cuckoo
open RisePir.Upstream.Pir
open RisePir.Client.Delta
open RisePir.Client.Rewind
open RisePir.Client.Core
open RisePir.Client.Tracking
open RisePir.Server.Fold
open RisePir.Server.Core
open RisePir.Server.CellDelta
open RisePir.Server.Telescope
open RisePir.Server.Run
open RisePir.Server.Verified

variable {p : CuckooParams} {C : SegmentedCuckoo p} {B : PirBackend}

section Correct

private theorem toNat_ofInt {z : Int} (hz : 0 ≤ z) (hlt : z < 2 ^ p.plaintextBits) :
    ((BitVec.ofInt 32 z).toNat : Int) = z := by
  have hpow : (2 : Int) ^ p.plaintextBits ≤ 2 ^ 31 :=
    pow_le_pow_right₀ (by omega) p.plaintextBits_range.2
  rw [BitVec.toNat_ofInt]
  omega

/-- A row's delta whose corrected cells are plaintexts is added cell by cell. -/
theorem correctCells_ok (segment row : Nat) {deltas : List (Nat × Int)}
    (nodup : (deltas.map Prod.fst).Nodup) {cells : List (BitVec 32)}
    (fit : ∀ e ∈ deltas, e.1 < cells.length ∧ 0 ≤ ((cells.getD e.1 0).toNat : Int) + e.2 ∧
      ((cells.getD e.1 0).toNat : Int) + e.2 < 2 ^ p.plaintextBits) :
    ∃ cells', correctCells p segment row cells deltas = .ok cells' ∧
      cells'.length = cells.length ∧ ∀ o < cells.length, ((cells'.getD o 0).toNat : Int) =
        (cells.getD o 0).toNat + total deltas o := by
  induction deltas generalizing cells with
  | nil => exact ⟨cells, rfl, rfl, by simp⟩
  | cons e deltas ih =>
      obtain ⟨offset, d⟩ := e
      rw [List.map_cons, List.nodup_cons] at nodup
      obtain ⟨hnotin, nodup⟩ := nodup
      obtain ⟨hlt, hlow, hhigh⟩ := fit (offset, d) (by simp)
      dsimp only at hlt hlow hhigh
      have hget : cells[offset]? = some (cells.getD offset 0) := by
        rw [List.getD_eq_getElem _ _ hlt, List.getElem?_eq_getElem hlt]
      let corrected := BitVec.ofInt 32 (((cells.getD offset 0).toNat : Int) + d)
      have other : ∀ o, o ≠ offset → (cells.set offset corrected).getD o 0 = cells.getD o 0 := by
        intro o ho
        simp [List.getD_eq_getElem?_getD, ho.symm]
      have self : (cells.set offset corrected).getD offset 0 = corrected := by
        simp [List.getD_eq_getElem?_getD, hlt]
      have rest : ∀ e ∈ deltas, e.1 < (cells.set offset corrected).length ∧
          0 ≤ (((cells.set offset corrected).getD e.1 0).toNat : Int) + e.2 ∧
          (((cells.set offset corrected).getD e.1 0).toNat : Int) + e.2 < 2 ^ p.plaintextBits := by
        intro e he
        have hne : e.1 ≠ offset := fun heq => hnotin (List.mem_map.mpr ⟨e, he, heq⟩)
        rw [List.length_set, other e.1 hne]
        exact fit e (List.mem_cons_of_mem _ he)
      obtain ⟨cells', hcells', hlen, sums⟩ := ih nodup rest
      rw [List.length_set] at hlen sums
      refine ⟨cells', ?_, hlen, fun o ho => ?_⟩
      · rw [correctCells, hget]
        dsimp only
        rw [if_neg (by omega)]
        exact hcells'
      · rw [sums o ho, total_cons]
        by_cases heq : o = offset
        · subst heq
          have gone : total deltas o = 0 :=
            total_eq_zero fun e he heq => hnotin (List.mem_map.mpr ⟨e, he, heq⟩)
          rw [self, if_pos rfl, gone, toNat_ofInt hlow hhigh]
          ring
        · rw [other o heq, if_neg (Ne.symm heq), zero_add]

/-- The entries of one row sum to the row's deltas. -/
theorem total_deltaRow (pending : PendingDelta) (j row offset : Nat) :
    total (pending.row j row) offset = pending.at j row offset := by
  rw [PendingDelta.at, ← total_terms]
  by_cases hmem : ∃ v, (offset, v) ∈ pending.row j row
  · obtain ⟨v, hv⟩ := hmem
    rw [total_of_mem (row_nodup pending j row) hv, total_terms]
    exact (at_of_mem_terms (mem_row.mp hv)).symm
  · rw [total_eq_zero, total_eq_zero]
    · intro e he heq
      refine hmem ⟨e.2, mem_row.mpr ?_⟩
      rw [← heq]
      exact he
    · intro e he heq
      exact hmem ⟨e.2, heq ▸ he⟩

end Correct

section Segment

/-- One row of one segment. -/
def rowCells (p : CuckooParams) (cells : List (BitVec 32)) (j row : Nat) : List (BitVec 32) :=
  slice (segmentCells p cells j) (row * p.rowWidth) p.rowWidth

private theorem row_inside {cells : List (BitVec 32)} (hcells : cells.length = p.totalCells)
    {j row : Nat} (hj : j < p.arity) (hr : row < p.segmentSize) :
    row * p.rowWidth + p.rowWidth ≤ (segmentCells p cells j).length := by
  rw [segmentCells_length hcells hj]
  calc row * p.rowWidth + p.rowWidth = (row + 1) * p.rowWidth := by ring
    _ ≤ p.segmentSize * p.rowWidth := Nat.mul_le_mul_right _ hr

theorem rowCells_length {cells : List (BitVec 32)} (hcells : cells.length = p.totalCells)
    {j row : Nat} (hj : j < p.arity) (hr : row < p.segmentSize) :
    (rowCells p cells j row).length = p.rowWidth := length_slice (row_inside hcells hj hr)

theorem rowCells_getD (cells : List (BitVec 32)) {j row offset : Nat} (hr : row < p.segmentSize)
    (ho : offset < p.rowWidth) :
    ((rowCells p cells j row).getD offset 0).toNat = cellOf p cells j row offset := by
  rw [rowCells, getD_slice, if_pos ho, segmentCells_getD cells hr ho, cellOf]

/-- Slot `s` of a row is the slot of the row's bucket. -/
theorem slice_rowCells {cells : List (BitVec 32)} (hcells : cells.length = p.totalCells)
    {j row s : Nat} (hj : j < p.arity) (hr : row < p.segmentSize) (hs : s < p.bucketSize) :
    slice (rowCells p cells j row) (s * p.cellsPerSlot) p.cellsPerSlot =
      slotCells p cells (j * p.segmentSize + row, s) := by
  have hbucket : j * p.segmentSize + row < p.numBuckets := by
    calc j * p.segmentSize + row < (j + 1) * p.segmentSize := by
          rw [Nat.add_mul, Nat.one_mul]
          omega
      _ ≤ p.arity * p.segmentSize := Nat.mul_le_mul_right _ hj
      _ = p.numBuckets := p.arity_mul_segmentSize
  have inside : s * p.cellsPerSlot + p.cellsPerSlot ≤ (rowCells p cells j row).length := by
    rw [rowCells_length hcells hj hr]
    calc s * p.cellsPerSlot + p.cellsPerSlot = (s + 1) * p.cellsPerSlot := by ring
      _ ≤ p.bucketSize * p.cellsPerSlot := Nat.mul_le_mul_right _ hs
  have inside' : p.slotStart (j * p.segmentSize + row) s + p.cellsPerSlot ≤ cells.length := by
    rw [hcells]
    exact p.slotStart_le ⟨hbucket, hs⟩
  refine (slice_eq_iff 0 inside inside').mpr fun c hc => ?_
  have ho := p.slot_offset_lt hs hc
  have hdiv : (j * p.segmentSize + row) / p.segmentSize = j := by
    rw [Nat.mul_comm, Nat.mul_add_div p.segmentSize_pos, Nat.div_eq_of_lt hr, Nat.add_zero]
  have hmod : (j * p.segmentSize + row) % p.segmentSize = row := by
    rw [Nat.mul_comm, Nat.mul_add_mod, Nat.mod_eq_of_lt hr]
  rw [rowCells, getD_slice, if_pos ho, segmentCells_getD cells hr ho, p.slotStart_add, hdiv, hmod]

/-- The candidate slots of segment `j` and row `row`, as the scan reads them. -/
def rowSlots (C : SegmentedCuckoo p) (cells : List (BitVec 32)) (j row : Nat) :
    List (Nat × List UInt8) :=
  (List.range p.bucketSize).map fun s => C.slotAt cells (j * p.segmentSize + row, s)

theorem scanRow_rowCells {cells : List (BitVec 32)} (hcells : cells.length = p.totalCells)
    {j row : Nat} (hj : j < p.arity) (hr : row < p.segmentSize) (codec : ValueCodec)
    (key : AddressHash) (sel : Select) :
    scanRow C codec key (rowCells p cells j row) sel =
      some ((rowSlots C cells j row).foldl (selectSlot C codec key) sel) := by
  rw [scanRow, if_pos (le_of_eq (rowCells_length hcells hj hr).symm), rowSlots]
  congr 2
  refine List.map_congr_left fun s hs => ?_
  rw [slice_rowCells hcells hj hr (List.mem_range.mp hs)]
  rfl

variable {client : RisePirClient C B} {pinned head : RisePirServer C B}

/-- One segment of `finish` on the answer at the head scans the head's row. -/
theorem finishSegment_tracks (laws : B.ClientLaws) (h : Tracks client pinned head)
    (kind : ResponseRewind) (key : AddressHash) {j row : Nat} {st : B.ClientState} {q : Query}
    (hst : client.states[j]? = some st) (hr : row < p.segmentSize)
    (fits : kind.Fits (B.stateParams st)) (hq : q.b.length = (B.stateParams st).reshapeRows)
    (inFlight : B.InFlight st row q) (sel : Select) :
    finishSegment kind client key ⟨j, st, q,
        (B.stateParams st).product q (cellFn (segmentCells p head.store.cells j)), row⟩ sel =
      some (.ok ((rowSlots C head.store.cells j row).foldl
        (selectSlot C head.valueCodec key) sel)) := by
  have hj : j < p.arity := by
    rw [← h.states_length]
    exact (List.getElem?_eq_some_iff.mp hst).1
  have describes := h.describes hst
  have rewound := rewindResponse_product fits describes hq
    (cellFn (segmentCells p pinned.store.cells j)) (h.terms_inside j)
  rw [← h.cellFn_head hj] at rewound
  have decoded : B.clientDecode st ((B.stateParams st).product q
      (cellFn (segmentCells p pinned.store.cells j))) = rowCells p pinned.store.cells j row :=
    laws.decode st row q _ _ _ _ describes (segmentCells_length pinned.store.cells_length hj) hr
      (segmentCells_lt pinned.store hj) inFlight (h.hints j st hst)
  have len := rowCells_length pinned.store.cells_length hj hr
  have fit : ∀ e ∈ client.delta.row j row, e.1 < (rowCells p pinned.store.cells j row).length ∧
      0 ≤ (((rowCells p pinned.store.cells j row).getD e.1 0).toNat : Int) + e.2 ∧
      (((rowCells p pinned.store.cells j row).getD e.1 0).toNat : Int) + e.2 <
        2 ^ p.plaintextBits := by
    intro e he
    have hterm := mem_row.mp (show (e.1, e.2) ∈ client.delta.row j row from he)
    have ho := (h.terms_inside j _ hterm).2
    have hat : client.delta.at j row e.1 = e.2 := at_of_mem_terms hterm
    have step := h.moved j row e.1 hj hr ho
    have hlt : (cellOf p head.store.cells j row e.1 : Int) < 2 ^ p.plaintextBits := by
      exact_mod_cast cellOf_lt head.store hj hr ho
    rw [len, rowCells_getD _ hr ho, ← hat, ← step]
    exact ⟨ho, Int.natCast_nonneg _, hlt⟩
  obtain ⟨cells, hcells, hlen, sums⟩ := correctCells_ok j row (row_nodup client.delta j row) fit
  have headRow : cells = rowCells p head.store.cells j row := by
    have lenHead := rowCells_length head.store.cells_length hj hr
    refine ext_getD 0 (by rw [hlen, len, lenHead]) fun o ho => BitVec.eq_of_toNat_eq ?_
    rw [hlen] at ho
    have ho' : o < p.rowWidth := by rwa [len] at ho
    have value := sums o ho
    rw [total_deltaRow, rowCells_getD _ hr ho', ← h.moved j row o hj hr ho'] at value
    rw [rowCells_getD _ hr ho']
    exact_mod_cast value
  rw [finishSegment]
  dsimp only
  rw [rewound]
  dsimp only
  rw [decoded, hcells, headRow]
  dsimp only
  rw [scanRow_rowCells head.store.cells_length hj hr, h.codec]
  rfl

end Segment

section Scan

variable (codec : ValueCodec) (key : AddressHash)

/-- The joint mask of one slot. -/
def slotMask (C : SegmentedCuckoo p) (slot : Nat × List UInt8) : Bool :=
  slot.1 = C.fp key && codec.extractKeyTag slot.2 = codec.keyTag key

private theorem orMasked_false (acc bytes : List UInt8) : orMasked false acc bytes = acc := by
  have zip : ∀ acc bytes : List UInt8,
      List.zipWith (fun a v : UInt8 => a ||| if false = true then v else 0) acc bytes =
        acc.take bytes.length := by
    intro acc
    induction acc with
    | nil => simp
    | cons a acc ih =>
        intro bytes
        cases bytes with
        | nil => simp
        | cons b bytes => simpa using ih bytes
  rw [orMasked, zip, List.take_append_drop]

private theorem orMasked_zero (bytes : List UInt8) :
    orMasked true (List.replicate bytes.length 0) bytes = bytes := by
  rw [orMasked, List.drop_replicate, Nat.sub_self, List.replicate_zero, List.append_nil]
  induction bytes with
  | nil => rfl
  | cons b bytes ih => simpa [List.replicate_succ] using ih

/-- Only the masked slots contribute to the selection. -/
theorem foldl_selectSlot_filter (slots : List (Nat × List UInt8)) (sel : Select) :
    slots.foldl (selectSlot C codec key) sel =
      (slots.filter (slotMask codec key C)).foldl (selectSlot C codec key) sel := by
  induction slots generalizing sel with
  | nil => rfl
  | cons slot slots ih =>
      by_cases hmask : slotMask codec key C slot = true
      · rw [List.filter_cons_of_pos hmask, List.foldl_cons, List.foldl_cons, ih]
      · rw [List.filter_cons_of_neg hmask, List.foldl_cons, ih]
        congr 1
        have hfalse : slotMask codec key C slot = false := by simpa using hmask
        have unfolded : selectSlot C codec key sel slot =
            ⟨orMasked (slotMask codec key C slot) sel.acc slot.2,
              sel.foundMask || slotMask codec key C slot⟩ := rfl
        rw [unfolded, hfalse, orMasked_false, Bool.or_false]

/-- The outcome of the scan over all candidate slots. -/
def scanResult (C : SegmentedCuckoo p) (codec : ValueCodec) (key : AddressHash)
    (slots : List (Nat × List UInt8)) : Lookup :=
  let sel := slots.foldl (selectSlot C codec key) ⟨List.replicate p.valueSizeInBytes 0, false⟩
  if sel.foundMask then codec.decode key sel.acc else .notFound

theorem scanResult_absent {cells : List (BitVec 32)} (h : ownSlots C codec cells key = []) :
    scanResult C codec key ((C.probe key).map (C.slotAt cells)) = .notFound := by
  have none_masked : ((C.probe key).map (C.slotAt cells)).filter (slotMask codec key C) = [] := by
    rw [List.filter_map]
    exact congrArg (List.map _) h
  rw [scanResult, foldl_selectSlot_filter, none_masked]
  rfl

theorem scanResult_unique {cells : List (BitVec 32)} {s : Nat × Nat}
    (h : ownSlots C codec cells key = [s]) :
    scanResult C codec key ((C.probe key).map (C.slotAt cells)) =
      codec.decode key (C.slotAt cells s).2 := by
  have one_masked : ((C.probe key).map (C.slotAt cells)).filter (slotMask codec key C) =
      [C.slotAt cells s] := by
    rw [List.filter_map]
    exact congrArg (List.map (C.slotAt cells)) h
  have hmask : slotMask codec key C (C.slotAt cells s) = true := by
    have : C.slotAt cells s ∈ [C.slotAt cells s] := by simp
    rw [← one_masked] at this
    exact (List.mem_filter.mp this).2
  have length : (C.slotAt cells s).2.length = p.valueSizeInBytes := C.unpack_length _
  have select : selectSlot C codec key ⟨List.replicate p.valueSizeInBytes 0, false⟩
      (C.slotAt cells s) = ⟨(C.slotAt cells s).2, true⟩ := by
    have unfolded : ∀ sel, selectSlot C codec key sel (C.slotAt cells s) =
        ⟨orMasked (slotMask codec key C (C.slotAt cells s)) sel.acc (C.slotAt cells s).2,
          sel.foundMask || slotMask codec key C (C.slotAt cells s)⟩ := fun _ => rfl
    rw [unfolded, hmask, ← length, orMasked_zero, Bool.false_or]
  rw [scanResult, foldl_selectSlot_filter, one_masked, List.foldl_cons, List.foldl_nil, select]
  rfl

end Scan

end RisePir.Client.Lookup
