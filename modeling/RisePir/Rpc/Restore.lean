import RisePir.Rpc.Journal
import RisePir.Rpc.StateFile
import RisePir.Server.Run

set_option autoImplicit false
set_option relaxedAutoImplicit false

/-! Loading a state file together with its journal: the records are added to the raw cells and
patched into the hints before a table is built. Nothing is looked up by key. -/

namespace RisePir.Rpc.Restore

open RisePir.Lib.Sparse
open RisePir.Lib.Splice
open RisePir.Proto.Codec
open RisePir.Proto.Types
open RisePir.Proto.Value
open RisePir.Upstream.Cuckoo
open RisePir.Upstream.Pir
open RisePir.Upstream.Slots
open RisePir.Server.Core
open RisePir.Server.Fold
open RisePir.Server.CellDelta
open RisePir.Server.Run
open RisePir.Server.Telescope
open RisePir.Http.Setup
open RisePir.Rpc.Journal
open RisePir.Rpc.State
open RisePir.Rpc.StateFile

inductive RestoreError
  | state (e : StateError)
  | applyFailure (msg : String)
  deriving DecidableEq, Repr

section Model

variable (code : LoaderCode) (params : RawParams)

/-- `row_width`. -/
def rowWidth : Nat := params.bucketSize * code.cellsPerSlot params

/-- `seg_cells`. -/
def segCells : Nat := params.numBuckets / params.arity * rowWidth code params

/-- One edit of `apply_delta_in_place`, at an offset of a row of segment `j`. -/
def applyEdit (j row : Nat) (cells : List (BitVec 32)) (edit : Nat × Int) :
    Except String (List (BitVec 32)) :=
  if rowWidth code params ≤ edit.1 then
    .error (s!"cell offset {edit.1} >= row width {rowWidth code params} in segment {j} row {row} — " ++
      "this record would edit a neighbouring row")
  else
    let idx := row * rowWidth code params + edit.1
    if segCells code params ≤ idx then
      .error s!"cell index {idx} is out of bounds within segment {j}"
    else
      let cell := (cells.getD (j * segCells code params + idx) 0).toNat
      let updated := (cell : Int) + edit.2
      if updated < 0 ∨ 2 ^ params.plaintextBits ≤ updated then
        .error (s!"applying delta {edit.2} to a cell valued {cell} in segment {j} row {row} " ++
          s!"violates 0 <= cell < 2^{params.plaintextBits} — the in-memory state is now torn mid-block")
      else .ok (cells.set (j * segCells code params + idx) (BitVec.ofInt 32 updated))

/-- One segment of `apply_delta_in_place`. -/
def applySegment (j : Nat) (cells : List (BitVec 32)) (deltas : SegmentRowDeltas) :
    Except String (List (BitVec 32)) :=
  if deltas.isEmpty then .ok cells
  else if cells.length < j * segCells code params + segCells code params then
    .error s!"segment {j} is out of bounds for this base's geometry"
  else deltas.foldlM (fun cells row => row.2.foldlM (applyEdit code params j row.1) cells) cells

/-- The segments of `apply_delta_in_place`, from segment `j` on. -/
def applySegments : Nat → List (BitVec 32) → List SegmentRowDeltas → Except String (List (BitVec 32))
  | _, cells, [] => .ok cells
  | j, cells, deltas :: rest =>
      match applySegment code params j cells deltas with
      | .error e => .error e
      | .ok cells => applySegments (j + 1) cells rest

/-- `apply_delta_in_place`. -/
def applyDeltaInPlace (cells : List (BitVec 32)) (delta : BlockDelta) :
    Except String (List (BitVec 32)) :=
  applySegments code params 0 cells delta.perSegment

end Model

/-- One record's patches of the hints, segment by segment. -/
def patchHints (B : PirBackend) :
    List (SimpleServerParams × B.Material) → List Hint → List SegmentRowDeltas → List Hint
  | (sp, material) :: segments, hint :: hints, deltas :: rest =>
      (if deltas.isEmpty then hint else B.serverPatchHint sp material hint deltas) ::
        patchHints B segments hints rest
  | _, hints, _ => hints

/-- The replay between two records: the raw state, how many were replayed, and the last deltas. -/
structure Replay where
  raw : RawState
  replayed : Nat
  tail : List BlockDelta

/-- One record. The tail keeps the last `ringCapacity` deltas. -/
def replayRecord (B : PirBackend) (code : LoaderCode) (ringCapacity : Nat)
    (material : List B.Material) (r : Replay) (rec : ScanRecord) : Except RestoreError Replay :=
  match applyDeltaInPlace code r.raw.setup.params r.raw.cells rec.delta with
  | .error msg => .error (.applyFailure msg)
  | .ok cells =>
      let hints := patchHints B (r.raw.setup.backendParams.zip material) r.raw.setup.hints
        rec.delta.perSegment
      let tail := r.tail ++ [rec.delta]
      .ok ⟨{ r.raw with
          cells
          setup := { r.raw.setup with hints, block := rec.delta.block }
          numItems := rec.numItemsAfter },
        r.replayed + 1, tail.drop (tail.length - ringCapacity)⟩

/-- What a restore produces beside the loaded state. -/
structure RestoredState where
  loaded : LoadedState
  replayed : Nat
  baseBlock : Nat
  tailDeltas : List BlockDelta
  adoptAt : Option (Nat × Nat)
  scanStop : Option ScanStop

/-- The journal's reader, if the file is there, opens and names this base. -/
def openedFor (xxh3 : List UInt8 → BitVec 64) (raw : RawState) (journal : Option (List UInt8)) :
    Option JournalReader :=
  match journal with
  | none => none
  | some bytes =>
      match JournalReader.open xxh3 bytes raw.setup.params.plaintextBits raw.setup.params.arity with
      | .error _ => none
      | .ok (header, reader) =>
          if header.baseDigest ≠ raw.digest then none
          else if header.baseBlock ≠ raw.setup.block then none
          else some reader

/-- Building the table, and what comes with it. -/
def finish (code : LoaderCode) (codec : ValueCodec) (baseBlock : Nat) (r : Replay)
    (adoptAt : Option (Nat × Nat)) (scanStop : Option ScanStop) :
    Option (Except RestoreError RestoredState) :=
  (assemble code codec r.raw).outcome.map fun out =>
    match out with
    | .error e => .error (.state e)
    | .ok loaded => .ok ⟨loaded, r.replayed, baseBlock, r.tail, adoptAt, scanStop⟩

/-- `load_with_journal_restore` on a state file and the journal beside it; `none` where an assertion
of the assembly fails. -/
def loadWithJournalRestore (B : PirBackend) (code : LoaderCode) (xxh3 : List UInt8 → BitVec 64)
    (codec : ValueCodec) (ringCapacity : Nat) (file : List UInt8) (journal : Option (List UInt8)) :
    Option (Except RestoreError RestoredState) :=
  match (parseRaw code xxh3 codec file).outcome with
  | .error e => some (.error (.state e))
  | .ok raw =>
      match openedFor xxh3 raw journal with
      | none => finish code codec raw.setup.block ⟨raw, 0, []⟩ none none
      | some reader =>
          let out := reader.records xxh3
          let material := raw.setup.backendParams.map B.expandHintMaterial
          match out.1.foldlM (replayRecord B code ringCapacity material) ⟨raw, 0, []⟩ with
          | .error e => some (.error e)
          | .ok r =>
              finish code codec raw.setup.block r
                (some (out.2.1.validEndOffset, out.2.1.lastValidHeight)) (some out.2.2)

section Cells

variable {p : CuckooParams} {code : LoaderCode}

theorem rowWidth_of (laws : code.Laws) (p : CuckooParams) : rowWidth code (.of p) = p.rowWidth := by
  rw [rowWidth, cellsPerSlot_of laws]
  rfl

theorem segCells_of (laws : code.Laws) (p : CuckooParams) : segCells code (.of p) = p.segCells := by
  rw [segCells, rowWidth_of laws]
  rfl

/-- Two cells of a segment with one index are one cell. -/
theorem cellIndex_inj {j row row' offset offset' : Nat} (ho : offset < p.rowWidth)
    (ho' : offset' < p.rowWidth)
    (same : p.cellIndex j row offset = p.cellIndex j row' offset') :
    row = row' ∧ offset = offset' := by
  rw [CuckooParams.cellIndex, CuckooParams.cellIndex] at same
  have same : row * p.rowWidth + offset = row' * p.rowWidth + offset' := by omega
  have rows := congrArg (· / p.rowWidth) same
  have offsets := congrArg (· % p.rowWidth) same
  simp only [Nat.mul_add_mod_of_lt ho, Nat.mul_add_mod_of_lt ho'] at offsets
  refine ⟨?_, offsets⟩
  subst offsets
  exact Nat.eq_of_mul_eq_mul_right p.rowWidth_pos (by omega)

theorem applyEdit_ok (laws : code.Laws) {j row offset : Nat} {z : Int} {cells : List (BitVec 32)}
    (hr : row < p.segmentSize) (ho : offset < p.rowWidth)
    (range : 0 ≤ (cellOf p cells j row offset : Int) + z ∧
      (cellOf p cells j row offset : Int) + z < 2 ^ p.plaintextBits) :
    applyEdit code (.of p) j row cells (offset, z) = .ok (cells.set (p.cellIndex j row offset)
      (BitVec.ofInt 32 ((cellOf p cells j row offset : Int) + z))) := by
  have inside := p.row_offset_lt hr ho
  rw [applyEdit, rowWidth_of laws, segCells_of laws, if_neg (by show ¬ _ ≤ offset; omega)]
  dsimp only
  rw [if_neg (by omega), if_neg]
  · rfl
  · rintro (low | high)
    · exact absurd low (not_lt.mpr range.1)
    · exact absurd high (not_le.mpr range.2)

/-- The edit of one cell, seen from every cell of the segment. -/
theorem cellOf_set {j row row' offset offset' : Nat} {cells : List (BitVec 32)}
    (length : cells.length = p.totalCells) (hj : j < p.arity) (hr : row < p.segmentSize)
    (ho : offset < p.rowWidth) (ho' : offset' < p.rowWidth) (v : BitVec 32) :
    cellOf p (cells.set (p.cellIndex j row offset) v) j row' offset' =
      if (row, offset) = (row', offset') then v.toNat else cellOf p cells j row' offset' := by
  have inside : p.cellIndex j row offset < cells.length := by
    rw [length]
    exact p.cellIndex_lt hj hr ho
  rw [cellOf, List.getD_eq_getElem?_getD, List.getElem?_set]
  by_cases same : (row, offset) = (row', offset')
  · obtain ⟨rfl, rfl⟩ := Prod.mk.inj same
    rw [if_pos rfl, if_pos inside, if_pos rfl]
    rfl
  · have apart : ¬ p.cellIndex j row offset = p.cellIndex j row' offset' := by
      intro one
      obtain ⟨rfl, rfl⟩ := cellIndex_inj ho ho' one
      exact same rfl
    rw [if_neg apart, if_neg same, cellOf, List.getD_eq_getElem?_getD]

/-- Edits of distinct cells of a segment that stay within the plaintexts: they are all made, and
nothing else is changed. -/
theorem edits_ok (laws : code.Laws) {j : Nat} (hj : j < p.arity) {edits : List ((Nat × Nat) × Int)}
    (inside : ∀ e ∈ edits, e.1.1 < p.segmentSize ∧ e.1.2 < p.rowWidth)
    (nodup : (edits.map Prod.fst).Nodup) {cells : List (BitVec 32)}
    (length : cells.length = p.totalCells)
    (range : ∀ e ∈ edits, 0 ≤ (cellOf p cells j e.1.1 e.1.2 : Int) + e.2 ∧
      (cellOf p cells j e.1.1 e.1.2 : Int) + e.2 < 2 ^ p.plaintextBits) :
    ∃ out, edits.foldlM (fun cells e => applyEdit code (.of p) j e.1.1 cells (e.1.2, e.2)) cells =
        .ok out ∧ out.length = p.totalCells ∧
      (∀ row offset, row < p.segmentSize → offset < p.rowWidth →
        (cellOf p out j row offset : Int) = cellOf p cells j row offset + total edits (row, offset)) ∧
      ∀ i, i < j * p.segCells ∨ j * p.segCells + p.segCells ≤ i → out.getD i 0 = cells.getD i 0 := by
  induction edits generalizing cells with
  | nil => exact ⟨cells, rfl, length, fun _ _ _ _ => by rw [total_nil, add_zero], fun _ _ => rfl⟩
  | cons e edits ih =>
      obtain ⟨⟨row, offset⟩, z⟩ := e
      obtain ⟨hr, ho⟩ := inside _ List.mem_cons_self
      have here := range _ List.mem_cons_self
      dsimp only at hr ho here
      obtain ⟨fresh, nodup⟩ := List.nodup_cons.mp nodup
      have bits : (2 : Int) ^ p.plaintextBits ≤ 2 ^ 31 :=
        pow_le_pow_right₀ (by omega) p.plaintextBits_range.2
      have value : ((BitVec.ofInt 32 ((cellOf p cells j row offset : Int) + z)).toNat : Int) =
          cellOf p cells j row offset + z := by
        rw [BitVec.toNat_ofInt]
        omega
      generalize hv : BitVec.ofInt 32 ((cellOf p cells j row offset : Int) + z) = v at value
      have moved : ∀ row' offset', offset' < p.rowWidth →
          (cellOf p (cells.set (p.cellIndex j row offset) v) j row' offset' : Int) =
            cellOf p cells j row' offset' + if (row, offset) = (row', offset') then z else 0 := by
        intro row' offset' ho'
        rw [cellOf_set length hj hr ho ho']
        by_cases same : (row, offset) = (row', offset')
        · obtain ⟨rfl, rfl⟩ := Prod.mk.inj same
          rw [if_pos rfl, if_pos rfl, value]
        · rw [if_neg same, if_neg same, add_zero]
      have length₁ : (cells.set (p.cellIndex j row offset) v).length = p.totalCells := by
        rw [List.length_set, length]
      obtain ⟨out, made, length', sums, kept⟩ := ih
        (fun e he => inside e (List.mem_cons_of_mem _ he)) nodup length₁
        (fun e he => by
          have apart : ¬ (row, offset) = (e.1.1, e.1.2) := fun same =>
            fresh (List.mem_map.mpr ⟨e, he, same.symm⟩)
          rw [moved _ _ (inside e (List.mem_cons_of_mem _ he)).2, if_neg apart, add_zero]
          exact range e (List.mem_cons_of_mem _ he))
      refine ⟨out, ?_, length', fun row' offset' hr' ho' => ?_, fun i outside => ?_⟩
      · rw [List.foldlM_cons, applyEdit_ok laws hr ho here, hv]
        exact made
      · rw [sums row' offset' hr' ho', moved row' offset' ho', total_cons, add_assoc]
      · rw [kept i outside, List.getD_eq_getElem?_getD, List.getElem?_set, if_neg,
          ← List.getD_eq_getElem?_getD]
        intro here
        have := p.row_offset_lt hr ho
        rw [← here, CuckooParams.cellIndex] at outside
        omega

/-- The nested loops over rows and their cells are one loop over the entries. -/
theorem foldlM_entries {σ ε : Type} (f : Nat → σ → Nat × Int → Except ε σ) (deltas : SegmentRowDeltas)
    (st : σ) : deltas.foldlM (fun st row => row.2.foldlM (f row.1) st) st =
      (entries deltas).foldlM (fun st e => f e.1.1 st (e.1.2, e.2)) st := by
  induction deltas generalizing st with
  | nil => rfl
  | cons row deltas ih =>
      rw [entries, List.flatMap_cons, List.foldlM_append, List.foldlM_map, List.foldlM_cons, ← entries]
      congr 1
      funext st'
      exact ih st'

/-- A cell of the flat array stands in a row of a segment. -/
theorem exists_cellIndex {j i : Nat} (low : j * p.segCells ≤ i) (high : i < j * p.segCells + p.segCells) :
    ∃ row offset, row < p.segmentSize ∧ offset < p.rowWidth ∧ i = p.cellIndex j row offset := by
  refine ⟨(i - j * p.segCells) / p.rowWidth, (i - j * p.segCells) % p.rowWidth, ?_,
    Nat.mod_lt _ p.rowWidth_pos, ?_⟩
  · rw [Nat.div_lt_iff_lt_mul p.rowWidth_pos]
    show _ < p.segCells
    omega
  · rw [CuckooParams.cellIndex, Nat.div_add_mod']
    omega

section Record

variable {d : BlockDelta} {cells cells' : List (BitVec 32)}

private theorem eq_of_cellOf {a b : List (BitVec 32)} {j row offset : Nat}
    (h : (cellOf p a j row offset : Int) = cellOf p b j row offset) :
    a.getD (p.cellIndex j row offset) 0 = b.getD (p.cellIndex j row offset) 0 := by
  apply BitVec.eq_of_toNat_eq
  rw [cellOf, cellOf] at h
  exact_mod_cast h

/-- One segment of a record that leads from plaintext cells to plaintext cells. -/
theorem applySegment_ok (laws : code.Laws) (fits : Fits p d) (moved : Moved p cells cells' d.at)
    (bound : ∀ j row offset, j < p.arity → row < p.segmentSize → offset < p.rowWidth →
      cellOf p cells' j row offset < 2 ^ p.plaintextBits)
    {j : Nat} (hj : j < p.arity) {current : List (BitVec 32)} (length : current.length = p.totalCells)
    (same : ∀ row offset, row < p.segmentSize → offset < p.rowWidth →
      cellOf p current j row offset = cellOf p cells j row offset) :
    ∃ out, applySegment code (.of p) j current (segmentOf d j) = .ok out ∧
      out.length = p.totalCells ∧
      (∀ row offset, row < p.segmentSize → offset < p.rowWidth →
        (cellOf p out j row offset : Int) = cellOf p cells' j row offset) ∧
      ∀ i, i < j * p.segCells ∨ j * p.segCells + p.segCells ≤ i →
        out.getD i 0 = current.getD i 0 := by
  have change : ∀ row offset, row < p.segmentSize → offset < p.rowWidth →
      (cellOf p current j row offset : Int) + total (entries (segmentOf d j)) (row, offset) =
        cellOf p cells' j row offset := by
    intro row offset hr ho
    rw [same row offset hr ho, moved j row offset hj hr ho]
    rfl
  rw [applySegment]
  by_cases none : (segmentOf d j).isEmpty
  · rw [if_pos none]
    refine ⟨current, rfl, length, fun row offset hr ho => ?_, fun _ _ => rfl⟩
    have nothing : total (entries (segmentOf d j)) (row, offset) = 0 := by
      rw [List.isEmpty_iff.mp none]
      rfl
    rw [← change row offset hr ho, nothing, add_zero]
  · have room : ¬ current.length < j * segCells code (.of p) + segCells code (.of p) := by
      rw [segCells_of laws, length, ← p.arity_mul_segCells, not_lt]
      calc j * p.segCells + p.segCells = (j + 1) * p.segCells := by ring
        _ ≤ p.arity * p.segCells := Nat.mul_le_mul_right _ hj
    rw [if_neg none, if_neg room, foldlM_entries (applyEdit code (.of p) j)]
    have canonical : Canonical (segmentOf d j) := fits.canonical.segment j
    obtain ⟨out, made, length', sums, kept⟩ := edits_ok laws hj (fits.inside j)
      canonical.entries_nodup length fun e he => by
        obtain ⟨hr, ho⟩ := fits.inside j e he
        have value := change e.1.1 e.1.2 hr ho
        rw [total_of_mem canonical.entries_nodup he] at value
        have := bound j e.1.1 e.1.2 hj hr ho
        rw [value]
        exact ⟨Int.natCast_nonneg _, by exact_mod_cast this⟩
    exact ⟨out, made, length', fun row offset hr ho => (sums row offset hr ho).trans
      (change row offset hr ho), kept⟩

theorem applySegments_ok (laws : code.Laws) (fits : Fits p d) (moved : Moved p cells cells' d.at)
    (length' : cells'.length = p.totalCells)
    (bound : ∀ j row offset, j < p.arity → row < p.segmentSize → offset < p.rowWidth →
      cellOf p cells' j row offset < 2 ^ p.plaintextBits)
    (rest : List SegmentRowDeltas) {j : Nat} (split : rest = d.perSegment.drop j)
    (within : j ≤ p.arity) {current : List (BitVec 32)} (length : current.length = p.totalCells)
    (ahead : ∀ i, j * p.segCells ≤ i → current.getD i 0 = cells.getD i 0)
    (done : ∀ i, i < j * p.segCells → current.getD i 0 = cells'.getD i 0) :
    applySegments code (.of p) j current rest = .ok cells' := by
  induction rest generalizing j current with
  | nil =>
      have last : j = p.arity := by
        have := congrArg List.length split
        rw [List.length_nil, List.length_drop, fits.segments] at this
        omega
      subst last
      rw [applySegments]
      congr 1
      apply List.ext_getElem (length.trans length'.symm)
      intro i hi hi'
      have same := done i (by rw [p.arity_mul_segCells, ← length]; exact hi)
      rwa [List.getD_eq_getElem _ _ hi, List.getD_eq_getElem _ _ hi'] at same
  | cons deltas rest ih =>
      have more : j < d.perSegment.length := by
        have := congrArg List.length split
        rw [List.length_cons, List.length_drop] at this
        omega
      have hj : j < p.arity := fits.segments ▸ more
      rw [List.drop_eq_getElem_cons more, List.cons.injEq] at split
      have segment : segmentOf d j = deltas := by
        rw [segmentOf, List.getD_eq_getElem _ _ more, split.1]
      obtain ⟨out, made, length₁, moved₁, kept⟩ := applySegment_ok laws fits moved bound hj length
        fun row offset hr ho => by
          rw [cellOf, cellOf, ahead _ (by rw [CuckooParams.cellIndex]; omega)]
      rw [segment] at made
      rw [applySegments, made]
      apply ih split.2 hj length₁
      · intro i past
        rw [Nat.succ_mul] at past
        rw [kept i (.inr past), ahead i (by omega)]
      · intro i before
        rw [Nat.succ_mul] at before
        by_cases here : j * p.segCells ≤ i
        · obtain ⟨row, offset, hr, ho, rfl⟩ := exists_cellIndex here before
          exact eq_of_cellOf (moved₁ row offset hr ho)
        · rw [kept i (.inl (by omega)), done i (by omega)]

/-- A record brings the cells to those of the table that published it. -/
theorem applyDeltaInPlace_ok (laws : code.Laws) (fits : Fits p d) (moved : Moved p cells cells' d.at)
    (length : cells.length = p.totalCells) (length' : cells'.length = p.totalCells)
    (bound : ∀ j row offset, j < p.arity → row < p.segmentSize → offset < p.rowWidth →
      cellOf p cells' j row offset < 2 ^ p.plaintextBits) :
    applyDeltaInPlace code (.of p) cells d = .ok cells' :=
  applySegments_ok laws fits moved length' bound d.perSegment rfl (Nat.zero_le _) length
    (fun _ _ => rfl) fun i before => absurd before (by rw [Nat.zero_mul]; exact Nat.not_lt_zero i)

end Record

end Cells

end RisePir.Rpc.Restore
