import RisePir.Server.Run
import RisePir.Upstream.ReferenceTable

set_option autoImplicit false
set_option relaxedAutoImplicit false

/-! A block of new addresses on the reference table, each with a first row of its own: it succeeds,
and the rows and entries of the delta that it publishes are counted. -/

namespace RisePir.Server.Filling

open RisePir.Lib.Digits
open RisePir.Lib.Sparse
open RisePir.Lib.Splice
open RisePir.Proto.Types
open RisePir.Proto.Value
open RisePir.Proto.Codec
open RisePir.Upstream.Cuckoo
open RisePir.Upstream.Pir
open RisePir.Upstream.Slots
open RisePir.Upstream.ReferenceTable
open RisePir.Server.Verified
open RisePir.Server.Core
open RisePir.Server.Fold
open RisePir.Server.CellDelta
open RisePir.Server.Telescope

variable {p : CuckooParams} {B : PirBackend} {codec : ValueCodec} {keys : Nat → AddressHash}
  {entry : Nat → List UInt8} {N : Nat}

/-- Addresses with fingerprints of their own, the `i`-th of which has row `i` of segment 0. -/
structure Spread (p : CuckooParams) (keys : Nat → AddressHash) (N : Nat) : Prop where
  first : ∀ i, i < N → (keys i).toNat / 2 ^ 16 % p.segmentSize = i
  apart : ∀ i n, i < n → n < N → (referenceTable p).fp (keys i) ≠ (referenceTable p).fp (keys n)

/-- The first slots of the first `n` rows hold the entries of the first addresses; every other slot
is empty. -/
def FirstFilled (p : CuckooParams) (keys : Nat → AddressHash) (entry : Nat → List UInt8) (n : Nat)
    (cells : List (BitVec 32)) : Prop :=
  ∀ s, p.IsSlot s → slotCells p cells s =
    if s.1 < n ∧ s.2 = 0 then
      (referenceTable p).slotContent ((referenceTable p).fp (keys s.1)) (entry s.1)
    else packNumber p 0

/-- What the addresses' slots hold. -/
structure Entries (p : CuckooParams) (codec : ValueCodec) (keys : Nat → AddressHash)
    (entry : Nat → List UInt8) (N : Nat) : Prop where
  encoded : ∀ i, i < N → codec.encode (keys i) 1 = .ok (entry i)
  length : ∀ i, i < N → (entry i).length = p.valueSizeInBytes
  bound : ∀ i, i < N → leNat (entry i) < 2 ^ p.valueBits

theorem firstFilled_empty : FirstFilled p keys entry 0 (emptyStore p).cells := by
  intro s slot
  rw [if_neg (by simp)]
  exact slotCells_zeros slot

theorem Spread.row_lt (spread : Spread p keys N) {n : Nat} (hn : n < N) : n < p.segmentSize := by
  rw [← spread.first n hn]
  exact Nat.mod_lt _ p.segmentSize_pos

theorem Spread.rows_le (spread : Spread p keys N) : N ≤ p.segmentSize := by
  by_contra more
  have := spread.row_lt (show p.segmentSize < N by omega)
  omega

theorem first_isSlot {n : Nat} (hn : n < p.segmentSize) : p.IsSlot (n, 0) := by
  refine ⟨?_, p.bucketSize_pos⟩
  calc n < p.segmentSize := hn
    _ ≤ p.arity * p.segmentSize := Nat.le_mul_of_pos_left _ (by have := p.arity_range; omega)
    _ = p.numBuckets := p.arity_mul_segmentSize

/-- The candidate that is probed first. -/
theorem candidates_first (key : AddressHash) :
    ∃ rest, candidates p key = (key.toNat / 2 ^ 16 % p.segmentSize, 0) :: rest := by
  obtain ⟨segments, hsegments⟩ : ∃ n, p.arity = n + 1 := ⟨p.arity - 1, by have := p.arity_range; omega⟩
  obtain ⟨slots, hslots⟩ : ∃ n, p.bucketSize = n + 1 :=
    ⟨p.bucketSize - 1, by have := p.bucketSize_pos; omega⟩
  rw [candidates, candidateBuckets, hsegments, hslots, @List.range_succ_eq_map segments,
    @List.range_succ_eq_map slots]
  simp only [List.map_cons, List.take_succ_cons, List.flatMap_cons, List.cons_append, Nat.zero_mul,
    Nat.mul_zero, Nat.zero_add, Nat.add_zero]
  exact ⟨_, rfl⟩

section Step

variable {store : (referenceTable p).Store} {n : Nat}

/-- The fingerprint of a slot of the filled table. -/
theorem slotAt_filled (entries : Entries p codec keys entry N)
    (filled : FirstFilled p keys entry n store.cells) (few : n ≤ N) {s : Nat × Nat}
    (slot : p.IsSlot s) : ((referenceTable p).slotAt store.cells s).1 =
      if s.1 < n ∧ s.2 = 0 then (referenceTable p).fp (keys s.1) else 0 := by
  rw [SegmentedCuckoo.slotAt, filled s slot]
  split
  · rename_i inside
    have small := ((placementLaws p).fp_range (keys s.1)).2
    have unpacked := (packing p).unpack_pack _ (entry s.1) small (entries.length s.1 (by omega))
      (entries.bound s.1 (by omega))
    exact congrArg Prod.fst unpacked
  · exact unpack_vacant

/-- The next address is not in the filled table. -/
theorem ownSlots_filled (spread : Spread p keys N) (entries : Entries p codec keys entry N)
    (filled : FirstFilled p keys entry n store.cells) (hn : n < N) :
    ownSlots (referenceTable p) codec store.cells (keys n) = [] := by
  rw [ownSlots, List.filter_eq_nil_iff]
  intro s probed own
  have slot := isSlot_of_mem_probe (placementLaws p) probed
  have same := (tagMatch_iff.mp own).1
  rw [slotAt_filled entries filled (Nat.le_of_lt hn) slot] at same
  split at same
  · rename_i inside
    exact spread.apart s.1 n inside.1 hn same
  · have := ((placementLaws p).fp_range (keys n)).1
    omega

/-- One change: it takes the next row. -/
theorem applyChange_filled (spread : Spread p keys N) (entries : Entries p codec keys entry N)
    (filled : FirstFilled p keys entry n store.cells) (hn : n < N) :
    ∃ store' : (referenceTable p).Store, applyChange codec ⟨Draw.mk 0 1, store⟩ (keys n) 1 =
        (⟨Draw.mk 0 1, store'⟩, .ok .insert) ∧
      FirstFilled p keys entry (n + 1) store'.cells ∧ store'.numItems = store.numItems + 1 := by
  have slot : p.IsSlot (n, 0) := first_isSlot (spread.row_lt hn)
  obtain ⟨rest, first⟩ := candidates_first (p := p) (keys n)
  rw [spread.first n hn] at first
  have vacant : fingerprintAt p store.cells (n, 0) = 0 := by
    have read := slotAt_filled entries filled (Nat.le_of_lt hn) slot
    rwa [if_neg (by simp)] at read
  have inserted := insert_first first slot vacant (entry n)
  have absent := locate_absent (ownSlots_filled spread entries filled hn)
  refine ⟨write store (n, 0) slot (candidateBuckets p (keys n)).1 ((packing p).valueCells (entry n))
    (store.numItems + 1), ?_, fun s hs => ?_, rfl⟩
  · rw [applyChange, absent, if_neg one_ne_zero, entries.encoded n hn]
    dsimp only
    rw [insertEntry, inserted]
  · have read := slotCells_writeSlot slot store.cells_length ((packing p).pack_length
      (candidateBuckets p (keys n)).1 ((packing p).valueCells (entry n))) hs
    refine read.trans ?_
    by_cases here : s = (n, 0)
    · subst here
      rw [if_pos rfl, if_pos ⟨Nat.lt_succ_self n, rfl⟩]
      rfl
    · have same : (s.1 < n + 1 ∧ s.2 = 0) ↔ (s.1 < n ∧ s.2 = 0) := by
        have apart : ¬ (s.1 = n ∧ s.2 = 0) := fun h => here (Prod.ext h.1 h.2)
        omega
      rw [if_neg here, filled s hs]
      simp only [same]

/-- The changes of the next `m` addresses. -/
theorem applyEach_filled (spread : Spread p keys N) (entries : Entries p codec keys entry N)
    (filled : FirstFilled p keys entry n store.cells) {m : Nat} (few : n + m ≤ N) :
    ∃ (store' : (referenceTable p).Store) (kinds : List ChangeKind),
      applyEach (applyChange codec) ⟨Draw.mk 0 1, store⟩
        ((List.range' n m).map fun i => (keys i, 1)) = (⟨Draw.mk 0 1, store'⟩, .ok kinds) ∧
      FirstFilled p keys entry (n + m) store'.cells ∧ store'.numItems = store.numItems + m := by
  induction m generalizing n store with
  | zero => exact ⟨store, [], rfl, filled, rfl⟩
  | succ m ih =>
      obtain ⟨store₁, one, filled₁, items₁⟩ :=
        applyChange_filled spread entries filled (show n < N by omega)
      obtain ⟨store', kinds, rest, filled', items⟩ := ih filled₁ (by omega)
      refine ⟨store', .insert :: kinds, ?_, ?_, ?_⟩
      · rw [List.range'_succ, List.map_cons, applyEach, one]
        dsimp only
        rw [rest]
      · rwa [Nat.add_assoc, Nat.add_comm 1 m] at filled'
      · omega

end Step

section Block

variable {s s' : RisePirServer (referenceTable p) B}

/-- The block of the first `N` addresses. -/
def freshBlock (keys : Nat → AddressHash) (N block : Nat) : BlockUpdate :=
  ⟨block, (List.range' 0 N).map fun i => (keys i, 1), []⟩

/-- The block of new addresses succeeds. -/
theorem apply_freshBlock (spread : Spread p keys N) (entries : Entries p s.valueCodec keys entry N)
    (empty : FirstFilled p keys entry 0 s.store.cells) :
    ∃ (s' : RisePirServer (referenceTable p) B) (out : BlockDelta × BlockApplyReport),
      s.applyBlockReporting (Draw.mk 0 1) (freshBlock keys N (s.block + 1)) = (s', .ok out) ∧
      FirstFilled p keys entry N s'.store.cells ∧ s'.store.numItems = s.store.numItems + N := by
  obtain ⟨store', kinds, changes, filled, items⟩ :=
    applyEach_filled (m := N) spread entries empty (by omega)
  rw [Nat.zero_add] at filled
  have later : ¬ (freshBlock keys N (s.block + 1)).block ≤ s.block := by
    show ¬ s.block + 1 ≤ s.block
    omega
  have written : applyEntries s.valueCodec ⟨Draw.mk 0 1, s.store⟩ (freshBlock keys N (s.block + 1)) =
      (⟨Draw.mk 0 1, store'⟩, .ok (kinds ++ [])) := by
    rw [applyEntries, freshBlock, changes]
    rfl
  let out := s.commitBlock store' (s.block + 1)
  refine ⟨out.1, (out.2, reportOf (kinds ++ []) (freshBlock keys N (s.block + 1)) out.2.perSegment), ?_,
    filled, items⟩
  unfold RisePirServer.applyBlockReporting
  rw [if_neg later, written]
  rfl

/-- A cell of a slot, by the slot. -/
theorem cellOf_slot (cells : List (BitVec 32)) {j row : Nat} (hr : row < p.segmentSize) (offset : Nat) :
    cellOf p cells j row offset =
      ((slotCells p cells (j * p.segmentSize + row, offset / p.cellsPerSlot)).getD
        (offset % p.cellsPerSlot) 0).toNat := by
  have inside := Nat.mod_lt offset p.cellsPerSlot_pos
  have start := p.slotStart_add (j * p.segmentSize + row) (offset / p.cellsPerSlot)
    (offset % p.cellsPerSlot)
  have segment : (j * p.segmentSize + row) / p.segmentSize = j := by
    rw [Nat.mul_comm, Nat.mul_add_div p.segmentSize_pos, Nat.div_eq_of_lt hr, Nat.add_zero]
  have within : (j * p.segmentSize + row) % p.segmentSize = row := by
    rw [Nat.mul_add_mod_of_lt hr]
  rw [segment, within, Nat.div_add_mod'] at start
  rw [cellOf, slotCells, getD_slice, if_pos inside, start]

theorem slot_of_cell {j row offset : Nat} (hj : j < p.arity) (hr : row < p.segmentSize)
    (ho : offset < p.rowWidth) :
    p.IsSlot (j * p.segmentSize + row, offset / p.cellsPerSlot) := by
  constructor
  · calc j * p.segmentSize + row < j * p.segmentSize + p.segmentSize := by omega
      _ = (j + 1) * p.segmentSize := by ring
      _ ≤ p.arity * p.segmentSize := Nat.mul_le_mul_right _ hj
      _ = p.numBuckets := p.arity_mul_segmentSize
  · rw [Nat.div_lt_iff_lt_mul p.cellsPerSlot_pos]
    exact ho

variable {delta : BlockDelta}

/-- The delta changes cells of the new addresses' slots only. -/
theorem inside_of_changed (spread : Spread p keys N) (empty : FirstFilled p keys entry 0 s.store.cells)
    (filled : FirstFilled p keys entry N s'.store.cells) (published : Published s s' delta)
    {j row offset : Nat} (hj : j < p.arity) (hr : row < p.segmentSize) (ho : offset < p.rowWidth)
    (changed : delta.at j row offset ≠ 0) : j = 0 ∧ row < N ∧ offset < p.cellsPerSlot := by
  by_contra outside
  have slot := slot_of_cell hj hr ho
  have elsewhere : ¬ (j * p.segmentSize + row < N ∧ offset / p.cellsPerSlot = 0) := by
    rintro ⟨first, zero⟩
    have rows := spread.rows_le
    have segment : j = 0 := by
      by_contra later
      have := Nat.le_mul_of_pos_left p.segmentSize (Nat.pos_of_ne_zero later)
      omega
    rw [segment, Nat.zero_mul, Nat.zero_add] at first
    exact outside ⟨segment, first, (Nat.div_eq_zero_iff_lt p.cellsPerSlot_pos).mp zero⟩
  have before := cellOf_slot s.store.cells (j := j) hr offset
  have after := cellOf_slot s'.store.cells (j := j) hr offset
  rw [empty _ slot, if_neg (by simp)] at before
  rw [filled _ slot, if_neg elsewhere] at after
  have moved := published.moved j row offset hj hr ho
  rw [before, after] at moved
  omega

/-- The delta changes a cell of every new address's slot. -/
theorem changed_of_row (spread : Spread p keys N) (entries : Entries p codec keys entry N)
    (empty : FirstFilled p keys entry 0 s.store.cells)
    (filled : FirstFilled p keys entry N s'.store.cells) (published : Published s s' delta) {n : Nat}
    (hn : n < N) : ∃ offset, offset < p.rowWidth ∧ delta.at 0 n offset ≠ 0 := by
  by_contra unchanged
  have hr := spread.row_lt hn
  have slot := first_isSlot hr
  have same : slotCells p s'.store.cells (n, 0) = slotCells p s.store.cells (n, 0) := by
    have length := slotCells_length slot s'.store.cells_length
    apply ext_getD 0 (length.trans (slotCells_length slot s.store.cells_length).symm)
    intro c hc
    rw [length] at hc
    have inside := p.slot_offset_lt p.bucketSize_pos hc
    rw [Nat.zero_mul, Nat.zero_add] at inside
    have moved := published.moved 0 n c (by have := p.arity_range; omega) hr inside
    rw [not_not.mp fun changed => unchanged ⟨c, inside, changed⟩, add_zero,
      cellOf_slot _ hr, cellOf_slot _ hr, Nat.zero_mul, Nat.zero_add, Nat.div_eq_of_lt hc,
      Nat.mod_eq_of_lt hc] at moved
    exact BitVec.eq_of_toNat_eq (by exact_mod_cast moved)
  have before := slotAt_filled entries empty (Nat.zero_le N) slot
  have after := slotAt_filled entries filled le_rfl slot
  rw [if_neg (by simp)] at before
  rw [if_pos ⟨hn, rfl⟩, SegmentedCuckoo.slotAt, same] at after
  have := ((placementLaws p).fp_range (keys n)).1
  exact absurd (after.symm.trans before) (Nat.ne_of_gt this)

theorem marks_eq (seg : SegmentRowDeltas) : marks seg = seg.length + (entries seg).length := by
  induction seg with
  | nil => rfl
  | cons row seg ih =>
      rw [marks, List.map_cons, List.sum_cons, ← marks, ih, entries_cons, List.length_append,
        List.length_map, List.length_cons]
      omega

theorem two_mul_length_le_marks {seg : SegmentRowDeltas} (nonempty : ∀ row ∈ seg, row.2 ≠ []) :
    2 * seg.length ≤ marks seg := by
  induction seg with
  | nil => exact le_rfl
  | cons row seg ih =>
      have later := ih fun row' mem => nonempty row' (List.mem_cons_of_mem row mem)
      have here := List.length_pos_iff.mpr (nonempty row List.mem_cons_self)
      rw [marks, List.map_cons, List.sum_cons, ← marks, List.length_cons]
      omega

/-- An entry of the published delta stands in segment 0, in a new address's row and its first slot. -/
theorem entry_inside (spread : Spread p keys N) (empty : FirstFilled p keys entry 0 s.store.cells)
    (filled : FirstFilled p keys entry N s'.store.cells) (published : Published s s' delta)
    {j : Nat} {e : (Nat × Nat) × Int} (mem : e ∈ entries (segmentOf delta j)) (hj : j < p.arity) :
    j = 0 ∧ e.1.1 < N ∧ e.1.2 < p.cellsPerSlot := by
  obtain ⟨hr, ho⟩ := published.fits.inside j e mem
  have canonical : Canonical (segmentOf delta j) := published.fits.canonical.segment j
  obtain ⟨value, nonzero⟩ := canonical.mem_entries_iff.mp mem
  apply inside_of_changed spread empty filled published hj hr ho
  rw [← value] at nonzero
  exact nonzero

theorem later_segment_empty (spread : Spread p keys N) (empty : FirstFilled p keys entry 0 s.store.cells)
    (filled : FirstFilled p keys entry N s'.store.cells) (published : Published s s' delta) {j : Nat}
    (hj : j + 1 < p.arity) : segmentOf delta (j + 1) = [] := by
  have canonical : Canonical (segmentOf delta (j + 1)) := published.fits.canonical.segment (j + 1)
  by_contra rows
  obtain ⟨⟨row, cells⟩, hrow⟩ := List.exists_mem_of_ne_nil _ rows
  obtain ⟨⟨offset, z⟩, hcell⟩ := List.exists_mem_of_ne_nil _ (canonical.rows_nonempty _ hrow)
  have mem := mem_entries.mpr ⟨cells, hrow, hcell⟩
  have first := (entry_inside spread empty filled published mem hj).1
  omega

theorem sum_marks (spread : Spread p keys N) (empty : FirstFilled p keys entry 0 s.store.cells)
    (filled : FirstFilled p keys entry N s'.store.cells) (published : Published s s' delta) :
    (delta.perSegment.map marks).sum = marks (segmentOf delta 0) := by
  have segments := published.fits.segments
  have empties : ∀ j, j + 1 < p.arity → segmentOf delta (j + 1) = [] :=
    fun j hj => later_segment_empty spread empty filled published hj
  simp only [segmentOf] at empties ⊢
  cases split : delta.perSegment with
  | nil => rfl
  | cons seg rest =>
      rw [split] at empties segments
      have zero : (rest.map marks).sum = 0 := by
        apply List.sum_eq_zero
        intro x mem
        obtain ⟨seg', hseg, rfl⟩ := List.mem_map.mp mem
        obtain ⟨j, hj, rfl⟩ := List.getElem_of_mem hseg
        have gone := empties j (by rw [← segments, List.length_cons]; omega)
        rw [List.getD_cons_succ, List.getD_eq_getElem _ _ hj] at gone
        rw [gone]
        rfl
      rw [List.map_cons, List.sum_cons, zero, add_zero, List.getD_cons_zero]

/-- The rows and entries of the published delta. -/
theorem marks_bounds (spread : Spread p keys N) (written : Entries p codec keys entry N)
    (empty : FirstFilled p keys entry 0 s.store.cells)
    (filled : FirstFilled p keys entry N s'.store.cells) (published : Published s s' delta) :
    2 * N ≤ (delta.perSegment.map marks).sum ∧
      (delta.perSegment.map marks).sum ≤ N + N * p.cellsPerSlot := by
  have first : 0 < p.arity := by have := p.arity_range; omega
  have canonical : Canonical (segmentOf delta 0) := published.fits.canonical.segment 0
  have rows_nodup : ((segmentOf delta 0).map Prod.fst).Nodup :=
    canonical.rows_ascending.imp fun hlt => Nat.ne_of_lt hlt
  have all_rows : List.range N ⊆ (segmentOf delta 0).map Prod.fst := by
    intro n hn
    obtain ⟨offset, -, changed⟩ :=
      changed_of_row spread written empty filled published (List.mem_range.mp hn)
    have mem := canonical.mem_entries_iff.mpr ⟨rfl, changed⟩
    obtain ⟨cells, hrow, -⟩ := mem_entries.mp mem
    exact List.mem_map.mpr ⟨_, hrow, rfl⟩
  have no_more_rows : (segmentOf delta 0).map Prod.fst ⊆ List.range N := by
    intro n hn
    obtain ⟨⟨row, cells⟩, hrow, rfl⟩ := List.mem_map.mp hn
    obtain ⟨⟨offset, z⟩, hcell⟩ := List.exists_mem_of_ne_nil _ (canonical.rows_nonempty _ hrow)
    exact List.mem_range.mpr (entry_inside spread empty filled published
      (mem_entries.mpr ⟨cells, hrow, hcell⟩) first).2.1
  have cells_inside : (entries (segmentOf delta 0)).map Prod.fst ⊆
      List.range N ×ˢ List.range p.cellsPerSlot := by
    intro i hi
    obtain ⟨e, mem, rfl⟩ := List.mem_map.mp hi
    obtain ⟨-, hrow, hcell⟩ := entry_inside spread empty filled published mem first
    exact List.mem_product.mpr ⟨List.mem_range.mpr hrow, List.mem_range.mpr hcell⟩
  have fewest := (List.nodup_range.subperm all_rows).length_le
  have most := (rows_nodup.subperm no_more_rows).length_le
  have most_cells := (canonical.entries_nodup.subperm cells_inside).length_le
  have pairs := two_mul_length_le_marks canonical.rows_nonempty
  have count := marks_eq (segmentOf delta 0)
  rw [List.length_product, List.length_range, List.length_range, List.length_map] at most_cells
  rw [List.length_range, List.length_map] at fewest most
  rw [sum_marks spread empty filled published]
  omega

end Block

end RisePir.Server.Filling
