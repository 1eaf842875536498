import RisePir.Lib.Digits
import RisePir.Proto.Varint

set_option autoImplicit false
set_option relaxedAutoImplicit false

/-! The wire body of a block delta. -/

namespace RisePir.Proto.Codec

open RisePir.Lib.Digits
open RisePir.Lib.Sparse
open RisePir.Proto.Types
open RisePir.Proto.Varint

/-- `b"RPD1"`. -/
def magic : List UInt8 := [0x52, 0x50, 0x44, 0x31]

/-- `sort_by_key`: stable, by the first component. -/
def sortByKey {α : Type} (l : List (Nat × α)) : List (Nat × α) :=
  l.mergeSort fun a b => decide (a.1 ≤ b.1)

def encodeCells : Nat → List (Nat × Int) → List UInt8
  | _, [] => []
  | prevOff, (offset, delta) :: cells =>
      writeUvarint (offset - prevOff) ++ writeUvarint (zigzagEncode delta) ++
        encodeCells offset cells

def encodeRows : Nat → SegmentRowDeltas → List UInt8
  | _, [] => []
  | prevRow, (row, cells) :: rows =>
      writeUvarint (row - prevRow) ++ writeUvarint cells.length ++
        encodeCells 0 (sortByKey cells) ++ encodeRows row rows

def encodeSegment (seg : SegmentRowDeltas) : List UInt8 :=
  writeUvarint seg.length ++ encodeRows 0 (sortByKey seg)

/-- `encode_block_delta`. The source asserts that the arity fits its byte; a deployment has
at most four segments. -/
def encodeBlockDelta (delta : BlockDelta) : List UInt8 :=
  magic ++ leBytes 8 delta.block ++ [UInt8.ofNat delta.perSegment.length] ++
    delta.perSegment.flatMap encodeSegment

def readCells (bound : Nat) : Nat → Nat → List UInt8 →
    Except CodecError (List (Nat × Int) × List UInt8)
  | 0, _, bytes => .ok ([], bytes)
  | count + 1, prevOff, bytes => do
      let (gap, bytes) ← readUvarint bytes
      -- `checked_add`, then `u16::try_from`
      if 2 ^ 16 ≤ prevOff + gap then .error .indexOverflow
      else
        let (raw, bytes) ← readUvarint bytes
        if bound ≤ (zigzagDecode raw).natAbs then .error .deltaOutOfRange
        else
          let (cells, bytes) ← readCells bound count (prevOff + gap) bytes
          return ((prevOff + gap, zigzagDecode raw) :: cells, bytes)

def readRows (bound : Nat) : Nat → Nat → List UInt8 →
    Except CodecError (SegmentRowDeltas × List UInt8)
  | 0, _, bytes => .ok ([], bytes)
  | count + 1, prevRow, bytes => do
      let (gap, bytes) ← readUvarint bytes
      -- `checked_add`, then `u32::try_from`
      if 2 ^ 32 ≤ prevRow + gap then .error .indexOverflow
      else
        let (declared, bytes) ← readUvarint bytes
        let cellCount ← checkCount declared bytes.length
        let (cells, bytes) ← readCells bound cellCount 0 bytes
        let (rows, bytes) ← readRows bound count (prevRow + gap) bytes
        return ((prevRow + gap, cells) :: rows, bytes)

def readSegments (bound : Nat) : Nat → List UInt8 →
    Except CodecError (List SegmentRowDeltas × List UInt8)
  | 0, bytes => .ok ([], bytes)
  | arity + 1, bytes => do
      let (declared, bytes) ← readUvarint bytes
      let rowCount ← checkCount declared bytes.length
      let (rows, bytes) ← readRows bound rowCount 0 bytes
      let (segments, bytes) ← readSegments bound arity bytes
      return (rows :: segments, bytes)

/-- `decode_block_delta`. -/
def decodeBlockDelta (bytes : List UInt8) (plaintextBits arity : Nat) :
    Except CodecError BlockDelta :=
  if ¬(1 ≤ plaintextBits ∧ plaintextBits ≤ 31) then .error .deltaOutOfRange
  else if bytes.take 4 ≠ magic then .error .badMagic
  else if (bytes.drop 4).length < 8 then .error .unexpectedEof
  else
    match bytes.drop 12 with
    | [] => .error .unexpectedEof
    | found :: rest =>
        if found.toNat ≠ arity then .error (.arityMismatch arity found.toNat)
        else
          match readSegments (2 ^ plaintextBits) arity rest with
          | .error e => .error e
          | .ok (perSegment, rest) =>
              if rest ≠ [] then .error .trailingBytes
              else .ok ⟨leNat ((bytes.drop 4).take 8), perSegment⟩

/-- What decoding gives back: rows sorted, and columns sorted within each row. -/
def sorted (delta : BlockDelta) : BlockDelta :=
  ⟨delta.block, delta.perSegment.map fun seg =>
    (sortByKey seg).map fun row => (row.1, sortByKey row.2)⟩

/-- The values that the wire's field widths and the magnitude check let through. -/
structure WireFits (plaintextBits : Nat) (delta : BlockDelta) : Prop where
  block : delta.block < 2 ^ 64
  segments : delta.perSegment.length ≤ 255
  rows : ∀ seg ∈ delta.perSegment, seg.length < 2 ^ 64
  row : ∀ seg ∈ delta.perSegment, ∀ row ∈ seg, row.1 < 2 ^ 32 ∧ row.2.length < 2 ^ 64
  cell : ∀ seg ∈ delta.perSegment, ∀ row ∈ seg, ∀ e ∈ row.2,
    e.1 < 2 ^ 16 ∧ e.2.natAbs < 2 ^ plaintextBits

section Sorting

variable {α : Type}

theorem sortByKey_pairwise (l : List (Nat × α)) :
    (sortByKey l).Pairwise fun a b => a.1 ≤ b.1 := by
  have sorted : (sortByKey l).Pairwise fun a b => decide (a.1 ≤ b.1) = true :=
    List.pairwise_mergeSort (fun a b c hab hbc => by simp only [decide_eq_true_eq] at *; omega)
      (fun a b => by simp only [Bool.or_eq_true, decide_eq_true_eq]; omega) l
  exact sorted.imp fun h => by simpa using h

theorem sortByKey_perm (l : List (Nat × α)) : (sortByKey l).Perm l := List.mergeSort_perm l _

theorem sortByKey_length (l : List (Nat × α)) : (sortByKey l).length = l.length :=
  (sortByKey_perm l).length_eq

theorem mem_sortByKey {l : List (Nat × α)} {e : Nat × α} : e ∈ sortByKey l ↔ e ∈ l :=
  (sortByKey_perm l).mem_iff

theorem sortByKey_of_ascending {l : List (Nat × α)} (h : (l.map Prod.fst).Pairwise (· < ·)) :
    sortByKey l = l := by
  refine List.mergeSort_of_pairwise ?_
  rw [List.pairwise_map] at h
  exact h.imp fun hlt => by simpa using hlt.le

end Sorting

section RoundTrip

variable {bound : Nat}

theorem encodeCells_length (prevOff : Nat) (cells : List (Nat × Int)) :
    cells.length ≤ (encodeCells prevOff cells).length := by
  induction cells generalizing prevOff with
  | nil => simp
  | cons e cells ih =>
      have rest := ih e.1
      have first := writeUvarint_length_pos (e.1 - prevOff)
      simp only [encodeCells, List.length_append, List.length_cons]
      omega

theorem encodeRows_length (prevRow : Nat) (rows : SegmentRowDeltas) :
    rows.length ≤ (encodeRows prevRow rows).length := by
  induction rows generalizing prevRow with
  | nil => simp
  | cons row rows ih =>
      have rest := ih row.1
      have first := writeUvarint_length_pos (row.1 - prevRow)
      simp only [encodeRows, List.length_append, List.length_cons]
      omega

private theorem checkCount_ok {count : Nat} {written rest : List UInt8}
    (h : count ≤ written.length) : checkCount count (written ++ rest).length = .ok count := by
  rw [checkCount, if_neg]
  rw [List.length_append]
  omega

theorem readCells_encodeCells (rest : List UInt8) (prevOff : Nat) {cells : List (Nat × Int)}
    (bound_le : bound ≤ 2 ^ 63) (ascending : cells.Pairwise fun a b => a.1 ≤ b.1)
    (above : ∀ e ∈ cells, prevOff ≤ e.1)
    (fits : ∀ e ∈ cells, e.1 < 2 ^ 16 ∧ e.2.natAbs < bound) :
    readCells bound cells.length prevOff (encodeCells prevOff cells ++ rest) = .ok (cells, rest) := by
  induction cells generalizing prevOff with
  | nil => rfl
  | cons e cells ih =>
      obtain ⟨offset, delta⟩ := e
      obtain ⟨hoffset, hdelta⟩ := fits (offset, delta) (by simp)
      have hprev : prevOff ≤ offset := above (offset, delta) (by simp)
      have hsum : prevOff + (offset - prevOff) = offset := Nat.add_sub_cancel' hprev
      have hzigzag : zigzagDecode (zigzagEncode delta) = delta :=
        zigzagDecode_zigzagEncode ⟨by omega, by omega⟩
      have hgap : offset - prevOff < 2 ^ 64 := by omega
      have tail := ih offset (List.pairwise_cons.mp ascending).2
        (fun e he => (List.pairwise_cons.mp ascending).1 e he)
        (fun e he => fits e (List.mem_cons_of_mem _ he))
      simp only [encodeCells, List.append_assoc, List.length_cons, readCells,
        readUvarint_writeUvarint hgap, readUvarint_writeUvarint (zigzagEncode_lt delta), hsum,
        hzigzag, bind, Except.bind]
      rw [if_neg (by omega), if_neg (by omega), tail]
      rfl

theorem readRows_encodeRows (rest : List UInt8) (prevRow : Nat) {rows : SegmentRowDeltas}
    (bound_le : bound ≤ 2 ^ 63) (ascending : rows.Pairwise fun a b => a.1 ≤ b.1)
    (above : ∀ row ∈ rows, prevRow ≤ row.1)
    (row : ∀ row ∈ rows, row.1 < 2 ^ 32 ∧ row.2.length < 2 ^ 64)
    (cell : ∀ row ∈ rows, ∀ e ∈ row.2, e.1 < 2 ^ 16 ∧ e.2.natAbs < bound) :
    readRows bound rows.length prevRow (encodeRows prevRow rows ++ rest) =
      .ok (rows.map fun row => (row.1, sortByKey row.2), rest) := by
  induction rows generalizing prevRow with
  | nil => rfl
  | cons first rows ih =>
      obtain ⟨index, cells⟩ := first
      obtain ⟨hindex, hcount⟩ := row (index, cells) (by simp)
      have hprev : prevRow ≤ index := above (index, cells) (by simp)
      have hsum : prevRow + (index - prevRow) = index := Nat.add_sub_cancel' hprev
      have hgap : index - prevRow < 2 ^ 64 := by omega
      have tail := ih index (List.pairwise_cons.mp ascending).2
        (fun r hr => (List.pairwise_cons.mp ascending).1 r hr)
        (fun r hr => row r (List.mem_cons_of_mem _ hr))
        (fun r hr => cell r (List.mem_cons_of_mem _ hr))
      have columns := readCells_encodeCells (encodeRows index rows ++ rest) 0 bound_le
        (sortByKey_pairwise cells) (fun _ _ => Nat.zero_le _)
        (fun e he => cell (index, cells) (by simp) e (mem_sortByKey.mp he))
      have declared : cells.length ≤ (encodeCells 0 (sortByKey cells)).length :=
        (sortByKey_length cells).symm.le.trans (encodeCells_length 0 _)
      rw [sortByKey_length] at columns
      simp only [encodeRows, List.append_assoc, List.length_cons, readRows,
        readUvarint_writeUvarint hgap, readUvarint_writeUvarint hcount, hsum, bind, Except.bind]
      rw [if_neg (by omega), checkCount_ok declared]
      dsimp only
      rw [columns]
      dsimp only
      rw [tail]
      rfl

theorem readSegments_encodeSegments (rest : List UInt8) {segments : List SegmentRowDeltas}
    (bound_le : bound ≤ 2 ^ 63) (rows : ∀ seg ∈ segments, seg.length < 2 ^ 64)
    (row : ∀ seg ∈ segments, ∀ row ∈ seg, row.1 < 2 ^ 32 ∧ row.2.length < 2 ^ 64)
    (cell : ∀ seg ∈ segments, ∀ row ∈ seg, ∀ e ∈ row.2, e.1 < 2 ^ 16 ∧ e.2.natAbs < bound) :
    readSegments bound segments.length (segments.flatMap encodeSegment ++ rest) =
      .ok (segments.map fun seg => (sortByKey seg).map fun row => (row.1, sortByKey row.2), rest) := by
  induction segments with
  | nil => rfl
  | cons seg segments ih =>
      have tail := ih (fun s hs => rows s (List.mem_cons_of_mem _ hs))
        (fun s hs => row s (List.mem_cons_of_mem _ hs))
        (fun s hs => cell s (List.mem_cons_of_mem _ hs))
      have body := readRows_encodeRows (segments.flatMap encodeSegment ++ rest) 0 bound_le (sortByKey_pairwise seg) (fun _ _ => Nat.zero_le _)
        (fun r hr => row seg (by simp) r (mem_sortByKey.mp hr))
        (fun r hr => cell seg (by simp) r (mem_sortByKey.mp hr))
      have declared : seg.length ≤ (encodeRows 0 (sortByKey seg)).length :=
        (sortByKey_length seg).symm.le.trans (encodeRows_length 0 _)
      rw [sortByKey_length] at body
      simp only [List.flatMap_cons, encodeSegment, List.append_assoc, List.length_cons,
        readSegments, readUvarint_writeUvarint (rows seg (by simp)), bind, Except.bind]
      rw [checkCount_ok declared]
      dsimp only
      rw [body]
      dsimp only
      rw [tail]
      rfl

/-- Decoding an encoding gives the delta back, its rows and columns sorted. -/
theorem decode_encode_sorted {plaintextBits : Nat} {delta : BlockDelta}
    (range : 1 ≤ plaintextBits ∧ plaintextBits ≤ 31) (fits : WireFits plaintextBits delta) :
    decodeBlockDelta (encodeBlockDelta delta) plaintextBits delta.perSegment.length =
      .ok (sorted delta) := by
  have bound_le : 2 ^ plaintextBits ≤ 2 ^ 63 := Nat.pow_le_pow_right (by omega) (by omega)
  have body := readSegments_encodeSegments [] bound_le fits.rows fits.row fits.cell
  have arity : (UInt8.ofNat delta.perSegment.length).toNat = delta.perSegment.length := by
    have := fits.segments
    rw [UInt8.toNat_ofNat', Nat.mod_eq_of_lt (by omega)]
  have head : encodeBlockDelta delta = magic ++ (leBytes 8 delta.block ++
      (UInt8.ofNat delta.perSegment.length :: delta.perSegment.flatMap encodeSegment)) := by
    simp [encodeBlockDelta]
  have hmagic : magic.length = 4 := rfl
  have hblock : (leBytes 8 delta.block).length = 8 := leBytes_length 8 _
  have eightBytes : leNat (leBytes 8 delta.block) = delta.block :=
    leNat_leBytes_of_lt (lt_of_lt_of_eq fits.block (by norm_num))
  have past : (encodeBlockDelta delta).drop 4 = leBytes 8 delta.block ++
      (UInt8.ofNat delta.perSegment.length :: delta.perSegment.flatMap encodeSegment) := by
    rw [head, List.drop_left' hmagic]
  have after : (encodeBlockDelta delta).drop 12 =
      UInt8.ofNat delta.perSegment.length :: delta.perSegment.flatMap encodeSegment := by
    rw [show 12 = 4 + 8 by rfl, ← List.drop_drop, past, List.drop_left' hblock]
  have first : (encodeBlockDelta delta).take 4 = magic := by
    rw [head, List.take_left' hmagic]
  rw [List.append_nil] at body
  unfold decodeBlockDelta
  rw [if_neg (by simpa using range), first, if_neg (by simp), past, after,
    List.take_left' hblock, eightBytes]
  rw [if_neg (by rw [List.length_append, hblock]; omega)]
  dsimp only
  rw [arity, if_neg (by simp), body]
  rfl

theorem sorted_of_canonical {delta : BlockDelta} (h : delta.IsCanonical) : sorted delta = delta := by
  have segments : delta.perSegment.map (fun seg =>
      (sortByKey seg).map fun row => (row.1, sortByKey row.2)) = delta.perSegment := by
    conv_rhs => rw [← List.map_id delta.perSegment]
    refine List.map_congr_left fun seg hseg => ?_
    rw [sortByKey_of_ascending (h seg hseg).rows_ascending]
    conv_rhs => rw [id, ← List.map_id seg]
    refine List.map_congr_left fun row hrow => ?_
    rw [sortByKey_of_ascending ((h seg hseg).columns_ascending row hrow)]
    rfl
  rw [sorted, segments]

theorem decode_encode {plaintextBits : Nat} {delta : BlockDelta}
    (range : 1 ≤ plaintextBits ∧ plaintextBits ≤ 31) (fits : WireFits plaintextBits delta)
    (canonical : delta.IsCanonical) :
    decodeBlockDelta (encodeBlockDelta delta) plaintextBits delta.perSegment.length = .ok delta := by
  rw [decode_encode_sorted range fits, sorted_of_canonical canonical]

end RoundTrip

section Length

/-- The rows and entries of a segment, each of which is written as two varints. -/
def marks (seg : SegmentRowDeltas) : Nat := (seg.map fun row => row.2.length + 1).sum

theorem encodeCells_length_bounds (prevOff : Nat) (cells : List (Nat × Int)) :
    2 * cells.length ≤ (encodeCells prevOff cells).length ∧
      (encodeCells prevOff cells).length ≤ 20 * cells.length := by
  induction cells generalizing prevOff with
  | nil => exact ⟨le_rfl, le_rfl⟩
  | cons e cells ih =>
      obtain ⟨offset, delta⟩ := e
      have rest := ih offset
      have gap := writeUvarint_length_pos (offset - prevOff)
      have value := writeUvarint_length_pos (zigzagEncode delta)
      have gap_le := writeUvarint_length_le (offset - prevOff)
      have value_le := writeUvarint_length_le (zigzagEncode delta)
      simp only [encodeCells, List.length_append, List.length_cons]
      omega

theorem encodeRows_length_bounds (prevRow : Nat) (rows : SegmentRowDeltas) :
    2 * marks rows ≤ (encodeRows prevRow rows).length ∧
      (encodeRows prevRow rows).length ≤ 20 * marks rows := by
  induction rows generalizing prevRow with
  | nil => exact ⟨le_rfl, le_rfl⟩
  | cons row rows ih =>
      obtain ⟨row, cells⟩ := row
      have rest := ih row
      have columns := encodeCells_length_bounds 0 (sortByKey cells)
      rw [sortByKey_length] at columns
      have gap := writeUvarint_length_pos (row - prevRow)
      have count := writeUvarint_length_pos cells.length
      have gap_le := writeUvarint_length_le (row - prevRow)
      have count_le := writeUvarint_length_le cells.length
      simp only [marks, List.map_cons, List.sum_cons, encodeRows, List.length_append] at rest ⊢
      omega

theorem marks_sortByKey (seg : SegmentRowDeltas) : marks (sortByKey seg) = marks seg :=
  ((sortByKey_perm seg).map _).sum_eq

theorem encodeSegment_length_bounds (seg : SegmentRowDeltas) :
    2 * marks seg ≤ (encodeSegment seg).length ∧
      (encodeSegment seg).length ≤ 20 * marks seg + 10 := by
  have rows := encodeRows_length_bounds 0 (sortByKey seg)
  have count := writeUvarint_length_le seg.length
  rw [marks_sortByKey] at rows
  rw [encodeSegment, List.length_append]
  omega

/-- A delta's length on the wire, by its rows and entries. -/
theorem encodeBlockDelta_length_bounds (delta : BlockDelta) :
    13 + 2 * (delta.perSegment.map marks).sum ≤ (encodeBlockDelta delta).length ∧
      (encodeBlockDelta delta).length ≤
        13 + 10 * delta.perSegment.length + 20 * (delta.perSegment.map marks).sum := by
  have segments : ∀ segs : List SegmentRowDeltas,
      2 * (segs.map marks).sum ≤ (segs.flatMap encodeSegment).length ∧
        (segs.flatMap encodeSegment).length ≤ 10 * segs.length + 20 * (segs.map marks).sum := by
    intro segs
    induction segs with
    | nil => exact ⟨le_rfl, le_rfl⟩
    | cons seg segs ih =>
        have here := encodeSegment_length_bounds seg
        simp only [List.map_cons, List.sum_cons, List.flatMap_cons, List.length_append,
          List.length_cons]
        omega
  have body := segments delta.perSegment
  have head : (magic ++ leBytes 8 delta.block ++ [UInt8.ofNat delta.perSegment.length]).length = 13 := by
    simp [magic]
  rw [encodeBlockDelta, List.length_append, head]
  omega

end Length

section Magnitude

theorem bind_eq_ok {ε α β : Type} {x : Except ε α} {f : α → Except ε β} {b : β} :
    x >>= f = .ok b ↔ ∃ a, x = .ok a ∧ f a = .ok b := by
  cases x <;> simp [bind, Except.bind]

variable {bound bound' : Nat} (le : bound ≤ bound')

include le

/-- What a tight magnitude check lets through, a loose one reads the same way. -/
theorem readCells_mono {count prevOff : Nat} {bytes : List UInt8}
    {out : List (Nat × Int) × List UInt8} (h : readCells bound count prevOff bytes = .ok out) :
    readCells bound' count prevOff bytes = .ok out := by
  induction count generalizing prevOff bytes out with
  | zero => exact h
  | succ count ih =>
      rw [readCells, bind_eq_ok] at h ⊢
      obtain ⟨⟨gap, rest⟩, hgap, h⟩ := h
      refine ⟨(gap, rest), hgap, ?_⟩
      dsimp only at h ⊢
      by_cases hindex : 2 ^ 16 ≤ prevOff + gap
      · rw [if_pos hindex] at h
        cases h
      · rw [if_neg hindex, bind_eq_ok] at h ⊢
        obtain ⟨⟨raw, rest⟩, hraw, h⟩ := h
        refine ⟨(raw, rest), hraw, ?_⟩
        dsimp only at h ⊢
        by_cases hbound : bound ≤ (zigzagDecode raw).natAbs
        · rw [if_pos hbound] at h
          cases h
        · rw [if_neg hbound, bind_eq_ok] at h
          rw [if_neg fun hbound' => hbound (le.trans hbound'), bind_eq_ok]
          obtain ⟨cells, hcells, h⟩ := h
          exact ⟨cells, ih hcells, h⟩

theorem readRows_mono {count prevRow : Nat} {bytes : List UInt8}
    {out : SegmentRowDeltas × List UInt8} (h : readRows bound count prevRow bytes = .ok out) :
    readRows bound' count prevRow bytes = .ok out := by
  induction count generalizing prevRow bytes out with
  | zero => exact h
  | succ count ih =>
      rw [readRows, bind_eq_ok] at h ⊢
      obtain ⟨⟨gap, rest⟩, hgap, h⟩ := h
      refine ⟨(gap, rest), hgap, ?_⟩
      dsimp only at h ⊢
      by_cases hindex : 2 ^ 32 ≤ prevRow + gap
      · rw [if_pos hindex] at h
        cases h
      · rw [if_neg hindex, bind_eq_ok] at h ⊢
        obtain ⟨declared, hdeclared, h⟩ := h
        refine ⟨declared, hdeclared, ?_⟩
        rw [bind_eq_ok] at h ⊢
        obtain ⟨cellCount, hcount, h⟩ := h
        refine ⟨cellCount, hcount, ?_⟩
        rw [bind_eq_ok] at h ⊢
        obtain ⟨cells, hcells, h⟩ := h
        refine ⟨cells, readCells_mono le hcells, ?_⟩
        rw [bind_eq_ok] at h ⊢
        obtain ⟨rows, hrows, h⟩ := h
        exact ⟨rows, ih hrows, h⟩

theorem readSegments_mono {arity : Nat} {bytes : List UInt8}
    {out : List SegmentRowDeltas × List UInt8} (h : readSegments bound arity bytes = .ok out) :
    readSegments bound' arity bytes = .ok out := by
  induction arity generalizing bytes out with
  | zero => exact h
  | succ arity ih =>
      rw [readSegments, bind_eq_ok] at h ⊢
      obtain ⟨declared, hdeclared, h⟩ := h
      refine ⟨declared, hdeclared, ?_⟩
      rw [bind_eq_ok] at h ⊢
      obtain ⟨rowCount, hcount, h⟩ := h
      refine ⟨rowCount, hcount, ?_⟩
      rw [bind_eq_ok] at h ⊢
      obtain ⟨rows, hrows, h⟩ := h
      refine ⟨rows, readRows_mono le hrows, ?_⟩
      rw [bind_eq_ok] at h ⊢
      obtain ⟨segments, hsegments, h⟩ := h
      exact ⟨segments, ih hsegments, h⟩

omit le

/-- What a decoded body was made of. -/
theorem decode_ok {bytes : List UInt8} {plaintextBits arity : Nat} {d : BlockDelta}
    (h : decodeBlockDelta bytes plaintextBits arity = .ok d) : ∃ found rest,
      bytes.drop 12 = found :: rest ∧ found.toNat = arity ∧
      readSegments (2 ^ 31) arity rest = .ok (d.perSegment, []) ∧
      d.block = leNat ((bytes.drop 4).take 8) := by
  unfold decodeBlockDelta at h
  by_cases hbits : ¬(1 ≤ plaintextBits ∧ plaintextBits ≤ 31)
  · rw [if_pos hbits] at h
    cases h
  by_cases hmagic : bytes.take 4 ≠ magic
  · rw [if_neg hbits, if_pos hmagic] at h
    cases h
  by_cases hshort : (bytes.drop 4).length < 8
  · rw [if_neg hbits, if_neg hmagic, if_pos hshort] at h
    cases h
  rw [if_neg hbits, if_neg hmagic, if_neg hshort] at h
  cases hrest : bytes.drop 12 with
  | nil =>
      rw [hrest] at h
      cases h
  | cons found rest =>
      rw [hrest] at h
      dsimp only at h
      by_cases harity : found.toNat ≠ arity
      · rw [if_pos harity] at h
        cases h
      rw [if_neg harity] at h
      cases hread : readSegments (2 ^ plaintextBits) arity rest with
      | error e =>
          rw [hread] at h
          cases h
      | ok out =>
          obtain ⟨segments, trailing⟩ := out
          rw [hread] at h
          dsimp only at h
          by_cases htrailing : trailing ≠ []
          · rw [if_pos htrailing] at h
            cases h
          · rw [if_neg htrailing] at h
            cases h
            rw [not_not.mp htrailing] at hread
            have loose : 2 ^ plaintextBits ≤ 2 ^ 31 :=
              Nat.pow_le_pow_right (by omega) (not_not.mp hbits).2
            exact ⟨found, rest, rfl, not_not.mp harity, readSegments_mono loose hread, rfl⟩

/-- One body decodes to one delta, whatever the geometry it is read under. -/
theorem decode_unique {bytes : List UInt8} {plaintextBits plaintextBits' arity arity' : Nat}
    {d d' : BlockDelta} (h : decodeBlockDelta bytes plaintextBits arity = .ok d)
    (h' : decodeBlockDelta bytes plaintextBits' arity' = .ok d') : d = d' ∧ arity = arity' := by
  obtain ⟨found, rest, hrest, harity, hread, hblock⟩ := decode_ok h
  obtain ⟨found', rest', hrest', harity', hread', hblock'⟩ := decode_ok h'
  rw [hrest] at hrest'
  cases hrest'
  rw [← harity] at hread
  rw [← harity'] at hread'
  have segments := (Prod.mk.inj (Except.ok.inj (hread.symm.trans hread'))).1
  refine ⟨?_, harity.symm.trans harity'⟩
  cases d
  cases d'
  simp only [BlockDelta.mk.injEq]
  exact ⟨hblock.trans hblock'.symm, segments⟩

end Magnitude

end RisePir.Proto.Codec
