import RisePir.Proto.Codec

set_option autoImplicit false
set_option relaxedAutoImplicit false

/-! What the decoder accepts and what it reserves on the way, and the length an encoding has
before it is written. -/

namespace RisePir.Proto.Decoding

open RisePir.Lib.Digits
open RisePir.Lib.Sparse
open RisePir.Proto.Types
open RisePir.Proto.Varint
open RisePir.Proto.Codec

/-- `uvarint_len`'s loop. A `u64` is written in at most ten groups. -/
def uvarintGroups : Nat → Nat → Nat
  | 0, _ => 0
  | groups + 1, value => if value < 0x80 then 1 else 1 + uvarintGroups groups (value >>> 7)

def uvarintLen (value : Nat) : Nat := uvarintGroups 10 value

/-- The cells of a row, in `encoded_len`. -/
def cellsLen : Nat → List (Nat × Int) → Nat
  | _, [] => 0
  | prevOff, (offset, delta) :: cells =>
      uvarintLen (offset - prevOff) + uvarintLen (zigzagEncode delta) + cellsLen offset cells

/-- The rows of a segment, in `encoded_len`. -/
def rowsLen : Nat → SegmentRowDeltas → Nat
  | _, [] => 0
  | prevRow, (row, cells) :: rows =>
      uvarintLen (row - prevRow) + uvarintLen cells.length + cellsLen 0 (sortByKey cells) +
        rowsLen row rows

/-- `encoded_len`. -/
def encodedLen (delta : BlockDelta) : Nat :=
  4 + 8 + 1 + (delta.perSegment.map fun seg => uvarintLen seg.length + rowsLen 0 (sortByKey seg)).sum

/-- A `Vec` reserved while decoding: its capacity, and the bytes that remained. -/
abbrev Reservation : Type := Nat × Nat

/-- The vectors that reading rows reserves: the cells of each. -/
def rowReservations (bound : Nat) : Nat → Nat → List UInt8 → List Reservation
  | 0, _, _ => []
  | count + 1, prevRow, bytes =>
      match readUvarint bytes with
      | .error _ => []
      | .ok (gap, bytes) =>
          if 2 ^ 32 ≤ prevRow + gap then []
          else
            match readUvarint bytes with
            | .error _ => []
            | .ok (declared, bytes) =>
                match checkCount declared bytes.length with
                | .error _ => []
                | .ok cellCount =>
                    (cellCount, bytes.length) ::
                      match readCells bound cellCount 0 bytes with
                      | .error _ => []
                      | .ok (_, bytes) => rowReservations bound count (prevRow + gap) bytes

/-- The vectors that reading segments reserves: the rows of each, and their cells. -/
def segmentReservations (bound : Nat) : Nat → List UInt8 → List Reservation
  | 0, _ => []
  | arity + 1, bytes =>
      match readUvarint bytes with
      | .error _ => []
      | .ok (declared, bytes) =>
          match checkCount declared bytes.length with
          | .error _ => []
          | .ok rowCount =>
              (rowCount, bytes.length) :: (rowReservations bound rowCount 0 bytes ++
                match readRows bound rowCount 0 bytes with
                | .error _ => []
                | .ok (_, bytes) => segmentReservations bound arity bytes)

/-- The header is accepted: what follows it are the segments. -/
def readHead (bytes : List UInt8) (plaintextBits arity : Nat) : Option (List UInt8) :=
  if ¬(1 ≤ plaintextBits ∧ plaintextBits ≤ 31) then none
  else if bytes.take 4 ≠ magic then none
  else if (bytes.drop 4).length < 8 then none
  else
    match bytes.drop 12 with
    | [] => none
    | found :: rest => if found.toNat ≠ arity then none else some rest

/-- Every vector that `decode_block_delta` reserves. The first holds the segments, as many as the
caller expects. -/
def reservations (bytes : List UInt8) (plaintextBits arity : Nat) : List Reservation :=
  match readHead bytes plaintextBits arity with
  | none => []
  | some rest => (arity, rest.length) :: segmentReservations (2 ^ plaintextBits) arity rest

/-- A list in ascending order of keys, in which equal keys stand as they stood. -/
def StablySorted {α : Type} (l l' : List (Nat × α)) : Prop :=
  (l'.map Prod.fst).Pairwise (· ≤ ·) ∧ ∀ k, l'.filter (·.1 = k) = l.filter (·.1 = k)

theorem sortByKey_stable {α : Type} (l : List (Nat × α)) : StablySorted l (sortByKey l) := by
  refine ⟨List.pairwise_map.mpr (sortByKey_pairwise l), ?_⟩
  intro k
  have keys : (l.filter (·.1 = k)).Pairwise fun a b => decide (a.1 ≤ b.1) = true := by
    apply List.pairwise_of_forall_mem_list
    intro a ha b hb
    have := (List.mem_filter.mp ha).2
    have := (List.mem_filter.mp hb).2
    simp only [decide_eq_true_eq] at *
    omega
  have kept : (l.filter (·.1 = k)).Sublist (sortByKey l) :=
    List.sublist_mergeSort (fun a b c hab hbc => by simp only [decide_eq_true_eq] at *; omega)
      (fun a b => by simp only [Bool.or_eq_true, decide_eq_true_eq]; omega) keys List.filter_sublist
  have inside := kept.filter (·.1 = k)
  rw [List.filter_filter] at inside
  simp only [Bool.and_self] at inside
  have count := ((sortByKey_perm l).filter (·.1 = k)).length_eq
  exact (inside.eq_of_length count.symm).symm

section Length

theorem writeGroups_length (groups value : Nat) :
    (writeGroups groups value).length = uvarintGroups groups value := by
  induction groups generalizing value with
  | zero => rfl
  | succ groups ih =>
      have last : value >>> 7 = 0 ↔ value < 0x80 := by
        rw [Nat.shiftRight_eq_div_pow]
        omega
      rw [writeGroups, uvarintGroups]
      by_cases h : value < 0x80
      · rw [if_pos h]
        simp only [last.mpr h, if_true, List.length_singleton]
      · rw [if_neg h]
        have more : ¬ value >>> 7 = 0 := fun zero => h (last.mp zero)
        simp only [more, if_false, List.length_cons, ih]
        omega

theorem writeUvarint_length (value : Nat) : (writeUvarint value).length = uvarintLen value :=
  writeGroups_length 10 value

theorem encodeCells_length_eq (prevOff : Nat) (cells : List (Nat × Int)) :
    (encodeCells prevOff cells).length = cellsLen prevOff cells := by
  induction cells generalizing prevOff with
  | nil => rfl
  | cons e cells ih =>
      obtain ⟨offset, delta⟩ := e
      simp only [encodeCells, cellsLen, List.length_append, writeUvarint_length, ih]

theorem encodeRows_length_eq (prevRow : Nat) (rows : SegmentRowDeltas) :
    (encodeRows prevRow rows).length = rowsLen prevRow rows := by
  induction rows generalizing prevRow with
  | nil => rfl
  | cons row rows ih =>
      obtain ⟨index, cells⟩ := row
      simp only [encodeRows, rowsLen, List.length_append, writeUvarint_length, encodeCells_length_eq, ih]

/-- The length computed without writing is the length written. -/
theorem encodeBlockDelta_length (delta : BlockDelta) :
    (encodeBlockDelta delta).length = encodedLen delta := by
  have segments : (delta.perSegment.flatMap encodeSegment).length =
      (delta.perSegment.map fun seg => uvarintLen seg.length + rowsLen 0 (sortByKey seg)).sum := by
    rw [List.length_flatMap]
    congr 1
    apply List.map_congr_left
    intro seg _
    rw [encodeSegment, List.length_append, writeUvarint_length, encodeRows_length_eq]
  rw [encodeBlockDelta, encodedLen, List.length_append, segments]
  simp [magic]

end Length

section Reservations

private theorem checkCount_le {declared remaining count : Nat}
    (h : checkCount declared remaining = .ok count) : count ≤ remaining := by
  rw [checkCount] at h
  split_ifs at h with tooMany
  cases h
  omega

theorem rowReservations_le {bound count prevRow : Nat} {bytes : List UInt8} :
    ∀ r ∈ rowReservations bound count prevRow bytes, r.1 ≤ r.2 := by
  induction count generalizing prevRow bytes with
  | zero =>
      intro r hr
      cases hr
  | succ count ih =>
      intro r hr
      rw [rowReservations] at hr
      cases hgap : readUvarint bytes with
      | error e => simp [hgap] at hr
      | ok out =>
          obtain ⟨gap, bytes₁⟩ := out
          rw [hgap] at hr
          dsimp only at hr
          split_ifs at hr
          · cases hr
          · cases hdeclared : readUvarint bytes₁ with
            | error e => simp [hdeclared] at hr
            | ok out =>
                obtain ⟨declared, bytes₂⟩ := out
                rw [hdeclared] at hr
                dsimp only at hr
                cases hcount : checkCount declared bytes₂.length with
                | error e => simp [hcount] at hr
                | ok cellCount =>
                    rw [hcount] at hr
                    rcases List.mem_cons.mp hr with rfl | later
                    · exact checkCount_le hcount
                    · cases hcells : readCells bound cellCount 0 bytes₂ with
                      | error e => simp [hcells] at later
                      | ok out =>
                          rw [hcells] at later
                          exact ih r later

theorem segmentReservations_le {bound arity : Nat} {bytes : List UInt8} :
    ∀ r ∈ segmentReservations bound arity bytes, r.1 ≤ r.2 := by
  induction arity generalizing bytes with
  | zero =>
      intro r hr
      cases hr
  | succ arity ih =>
      intro r hr
      rw [segmentReservations] at hr
      cases hdeclared : readUvarint bytes with
      | error e => simp [hdeclared] at hr
      | ok out =>
          obtain ⟨declared, bytes₁⟩ := out
          rw [hdeclared] at hr
          dsimp only at hr
          cases hcount : checkCount declared bytes₁.length with
          | error e => simp [hcount] at hr
          | ok rowCount =>
              rw [hcount] at hr
              rcases List.mem_cons.mp hr with rfl | later
              · exact checkCount_le hcount
              · rcases List.mem_append.mp later with cells | segments
                · exact rowReservations_le r cells
                · cases hrows : readRows bound rowCount 0 bytes₁ with
                  | error e => simp [hrows] at segments
                  | ok out =>
                      rw [hrows] at segments
                      exact ih r segments

/-- A count that the input declares never reserves more elements than bytes remain. -/
theorem reservations_le (bytes : List UInt8) (plaintextBits arity : Nat) :
    ∀ r ∈ (reservations bytes plaintextBits arity).drop 1, r.1 ≤ r.2 := by
  intro r hr
  rw [reservations] at hr
  cases head : readHead bytes plaintextBits arity with
  | none => simp [head] at hr
  | some rest =>
      rw [head] at hr
      exact segmentReservations_le r hr

end Reservations

section Accepting

variable {bound : Nat}

theorem readCells_ok {count prevOff : Nat} {bytes rest : List UInt8} {cells : List (Nat × Int)}
    (h : readCells bound count prevOff bytes = .ok (cells, rest)) : cells.length = count ∧
      (cells.map Prod.fst).Pairwise (· ≤ ·) ∧
      ∀ e ∈ cells, prevOff ≤ e.1 ∧ e.1 < 2 ^ 16 ∧ e.2.natAbs < bound := by
  induction count generalizing prevOff bytes cells with
  | zero =>
      cases h
      simp
  | succ count ih =>
      rw [readCells, bind_eq_ok] at h
      obtain ⟨⟨gap, bytes₁⟩, -, h⟩ := h
      dsimp only at h
      split_ifs at h with overflow
      rw [bind_eq_ok] at h
      obtain ⟨⟨raw, bytes₂⟩, -, h⟩ := h
      dsimp only at h
      split_ifs at h with range
      rw [bind_eq_ok] at h
      obtain ⟨⟨cells', rest'⟩, hcells, h⟩ := h
      cases h
      obtain ⟨length, ascending, inside⟩ := ih hcells
      refine ⟨by rw [List.length_cons, length], ?_, ?_⟩
      · rw [List.map_cons, List.pairwise_cons]
        refine ⟨?_, ascending⟩
        intro offset hoffset
        obtain ⟨e, he, rfl⟩ := List.mem_map.mp hoffset
        exact (inside e he).1
      · intro e he
        rcases List.mem_cons.mp he with rfl | later
        · exact ⟨Nat.le_add_right _ _, by dsimp only; omega, by dsimp only; omega⟩
        · obtain ⟨above, within, small⟩ := inside e later
          exact ⟨by omega, within, small⟩

theorem readRows_ok {count prevRow : Nat} {bytes rest : List UInt8} {rows : SegmentRowDeltas}
    (h : readRows bound count prevRow bytes = .ok (rows, rest)) : rows.length = count ∧
      (rows.map Prod.fst).Pairwise (· ≤ ·) ∧
      ∀ row ∈ rows, prevRow ≤ row.1 ∧ row.1 < 2 ^ 32 ∧ (row.2.map Prod.fst).Pairwise (· ≤ ·) ∧
        ∀ e ∈ row.2, e.1 < 2 ^ 16 ∧ e.2.natAbs < bound := by
  induction count generalizing prevRow bytes rows with
  | zero =>
      cases h
      simp
  | succ count ih =>
      rw [readRows, bind_eq_ok] at h
      obtain ⟨⟨gap, bytes₁⟩, -, h⟩ := h
      dsimp only at h
      split_ifs at h with overflow
      rw [bind_eq_ok] at h
      obtain ⟨⟨declared, bytes₂⟩, -, h⟩ := h
      rw [bind_eq_ok] at h
      obtain ⟨cellCount, -, h⟩ := h
      rw [bind_eq_ok] at h
      obtain ⟨⟨cells, bytes₃⟩, hcells, h⟩ := h
      rw [bind_eq_ok] at h
      obtain ⟨⟨rows', rest'⟩, hrows, h⟩ := h
      cases h
      obtain ⟨-, columns, cell⟩ := readCells_ok hcells
      obtain ⟨length, ascending, inside⟩ := ih hrows
      refine ⟨by rw [List.length_cons, length], ?_, ?_⟩
      · rw [List.map_cons, List.pairwise_cons]
        refine ⟨?_, ascending⟩
        intro row hrow
        obtain ⟨r, hr, rfl⟩ := List.mem_map.mp hrow
        exact (inside r hr).1
      · intro row hrow
        rcases List.mem_cons.mp hrow with rfl | later
        · exact ⟨Nat.le_add_right _ _, by dsimp only; omega, columns, fun e he => (cell e he).2⟩
        · obtain ⟨above, rest⟩ := inside row later
          exact ⟨by omega, rest⟩

/-- What the decoder gives back is in order and within the widths of its fields. -/
structure InOrder (plaintextBits arity : Nat) (delta : BlockDelta) : Prop where
  segments : delta.perSegment.length = arity
  rows : ∀ seg ∈ delta.perSegment, (seg.map Prod.fst).Pairwise (· ≤ ·)
  row : ∀ seg ∈ delta.perSegment, ∀ row ∈ seg, row.1 < 2 ^ 32 ∧ (row.2.map Prod.fst).Pairwise (· ≤ ·)
  cell : ∀ seg ∈ delta.perSegment, ∀ row ∈ seg, ∀ e ∈ row.2,
    e.1 < 2 ^ 16 ∧ e.2.natAbs < 2 ^ plaintextBits

theorem readSegments_ok {plaintextBits arity block : Nat} {bytes rest : List UInt8}
    {segments : List SegmentRowDeltas}
    (h : readSegments (2 ^ plaintextBits) arity bytes = .ok (segments, rest)) :
    InOrder plaintextBits arity ⟨block, segments⟩ := by
  induction arity generalizing bytes segments with
  | zero =>
      cases h
      constructor <;> simp
  | succ arity ih =>
      rw [readSegments, bind_eq_ok] at h
      obtain ⟨⟨declared, bytes₁⟩, -, h⟩ := h
      rw [bind_eq_ok] at h
      obtain ⟨rowCount, -, h⟩ := h
      rw [bind_eq_ok] at h
      obtain ⟨⟨rows, bytes₂⟩, hrows, h⟩ := h
      rw [bind_eq_ok] at h
      obtain ⟨⟨segments', rest'⟩, hsegments, h⟩ := h
      cases h
      have tail := ih hsegments
      obtain ⟨-, ascending, inside⟩ := readRows_ok hrows
      constructor
      · show (rows :: segments').length = arity + 1
        rw [List.length_cons, tail.segments]
      · intro seg hseg
        rcases List.mem_cons.mp hseg with rfl | later
        · exact ascending
        · exact tail.rows seg later
      · intro seg hseg row hrow
        rcases List.mem_cons.mp hseg with rfl | later
        · exact ⟨(inside row hrow).2.1, (inside row hrow).2.2.1⟩
        · exact tail.row seg later row hrow
      · intro seg hseg row hrow
        rcases List.mem_cons.mp hseg with rfl | later
        · exact (inside row hrow).2.2.2
        · exact tail.cell seg later row hrow

/-- An accepted message is a header of thirteen bytes and segments that take the rest of it. -/
theorem decodeBlockDelta_ok {bytes : List UInt8} {plaintextBits arity : Nat} {delta : BlockDelta}
    (h : decodeBlockDelta bytes plaintextBits arity = .ok delta) :
    readHead bytes plaintextBits arity = some (bytes.drop 13) ∧
      readSegments (2 ^ plaintextBits) arity (bytes.drop 13) = .ok (delta.perSegment, []) ∧
      InOrder plaintextBits arity delta := by
  unfold decodeBlockDelta at h
  unfold readHead
  split_ifs at h with bits wrong short
  rw [if_neg (not_not.mpr bits), if_neg wrong, if_neg short]
  cases hrest : bytes.drop 12 with
  | nil => simp [hrest] at h
  | cons found rest =>
      have dropped : bytes.drop 13 = rest := by
        rw [show 13 = 12 + 1 by rfl, ← List.drop_drop, hrest, List.drop_one, List.tail_cons]
      rw [hrest] at h
      dsimp only at h ⊢
      split_ifs at h with differs
      rw [if_neg differs, dropped]
      cases hread : readSegments (2 ^ plaintextBits) arity rest with
      | error e => simp [hread] at h
      | ok out =>
          obtain ⟨segments, trailing⟩ := out
          rw [hread] at h
          dsimp only at h
          split_ifs at h with left
          cases h
          rw [not_not.mp left]
          exact ⟨rfl, rfl, readSegments_ok hread⟩

end Accepting

/-- What is encoded is decoded in stable order, and has the length computed for it; what is
accepted takes all of its bytes, is in order and within its fields' widths, and no count that the
bytes declare reserves more elements than bytes remain. -/
theorem codec_contract (plaintextBits : Nat) :
    (∀ delta, 1 ≤ plaintextBits ∧ plaintextBits ≤ 31 → WireFits plaintextBits delta →
      decodeBlockDelta (encodeBlockDelta delta) plaintextBits delta.perSegment.length =
          .ok (sorted delta) ∧
        (∀ seg ∈ delta.perSegment, StablySorted seg (sortByKey seg) ∧
          ∀ row ∈ seg, StablySorted row.2 (sortByKey row.2)) ∧
        encodedLen delta = (encodeBlockDelta delta).length) ∧
    ∀ bytes arity,
      (∀ delta, decodeBlockDelta bytes plaintextBits arity = .ok delta →
        readSegments (2 ^ plaintextBits) arity (bytes.drop 13) = .ok (delta.perSegment, []) ∧
          InOrder plaintextBits arity delta) ∧
      ∀ r ∈ (reservations bytes plaintextBits arity).drop 1, r.1 ≤ r.2 := by
  constructor
  · intro delta range fits
    refine ⟨decode_encode_sorted range fits, ?_, (encodeBlockDelta_length delta).symm⟩
    intro seg _
    exact ⟨sortByKey_stable seg, fun row _ => sortByKey_stable row.2⟩
  · intro bytes arity
    exact ⟨fun delta h => (decodeBlockDelta_ok h).2, reservations_le bytes plaintextBits arity⟩

/-- Two rows out of order, one of them twice, and cells out of order. -/
private def shuffled : BlockDelta := ⟨9, [[(3, [(5, -2), (1, 4)]), (0, [(2, 7)]), (3, [(0, 1)])], []]⟩

theorem codec_contract_shuffled :
    decodeBlockDelta (encodeBlockDelta shuffled) 9 2 = .ok (sorted shuffled) :=
  ((codec_contract 9).1 shuffled (by decide) ⟨by decide, by decide, by decide, by decide, by decide⟩).1

/-- A message of a header alone makes the decoder reserve a vector of three segments. -/
theorem header_reserves_segments :
    ¬ ∀ r ∈ reservations (magic ++ [0, 0, 0, 0, 0, 0, 0, 0, 3]) 9 3, r.1 ≤ r.2 := by decide

end RisePir.Proto.Decoding
