import RisePir.Client.EndToEnd

set_option autoImplicit false
set_option relaxedAutoImplicit false

/-! The branch-free selection at the end of `finish`, word by word as the source computes
it, against the server's verified read of the same cells. -/

namespace RisePir.Client.Selection

open RisePir.Lib.Digits
open RisePir.Lib.Splice
open RisePir.Proto.Types
open RisePir.Proto.Value
open RisePir.Upstream.Cuckoo
open RisePir.Upstream.Slots
open RisePir.Upstream.ReferenceTable
open RisePir.Client.Core
open RisePir.Client.Lookup
open RisePir.Client.EndToEnd
open RisePir.Server.Core
open RisePir.Server.Verified
open RisePir.Server.Small

variable {p : CuckooParams} (C : SegmentedCuckoo p) (codec : ValueCodec) (key : AddressHash)

/-- `ct_eq_u64_mask`: `((x | x.wrapping_neg()) >> 63).wrapping_sub(1)` for `x = a ^ b`. -/
def ctEqU64Mask (a b : BitVec 64) : BitVec 64 :=
  let x := a ^^^ b
  ((x ||| -x) >>> 63) - 1

/-- The accumulator and `found_mask`. -/
structure MaskedSelect where
  acc : List UInt8
  foundMask : BitVec 64
  deriving DecidableEq

/-- `*a |= mask8 & *v` over the common length, with `mask8 = (mask & 0xFF) as u8`. -/
def orMask8 (mask : BitVec 64) (acc bytes : List UInt8) : List UInt8 :=
  let mask8 : UInt8 := ⟨(mask &&& 0xFF#64).setWidth 8⟩
  List.zipWith (fun a v => a ||| (mask8 &&& v)) acc bytes ++ acc.drop bytes.length

/-- One slot of the scan, under the joint mask. -/
def maskSlot (sel : MaskedSelect) (slot : List (BitVec 32)) : MaskedSelect :=
  let unpacked := C.unpackSlotCells slot
  let mask := ctEqU64Mask (BitVec.ofNat 64 unpacked.1) (BitVec.ofNat 64 (C.fp key)) &&&
    ctEqU64Mask (BitVec.ofNat 64 (codec.extractKeyTag unpacked.2))
      (BitVec.ofNat 64 (codec.keyTag key))
  ⟨orMask8 mask sel.acc unpacked.2, sel.foundMask ||| mask⟩

/-- One segment's share: every slot of the row; `none` where the row is too short to slice. -/
def maskRow (sel : MaskedSelect) (cells : List (BitVec 32)) : Option MaskedSelect :=
  if p.rowWidth ≤ cells.length then
    some ((List.range p.bucketSize).foldl (fun sel s =>
      maskSlot C codec key sel (slice cells (s * p.cellsPerSlot) p.cellsPerSlot)) sel)
  else none

/-- The selection over the rows of all segments, and what `finish` makes of it. -/
def selectMasked (rows : List (List (BitVec 32))) : Option Lookup :=
  (rows.foldlM (maskRow C codec key) ⟨List.replicate p.valueSizeInBytes 0, 0⟩).map fun sel =>
    if sel.foundMask = 0 then .notFound else codec.decode key sel.acc

/-- Fingerprints are the `u64`s that the table's code returns. -/
structure WordFingerprints : Prop where
  key : ∀ key, C.fp key < 2 ^ 64
  slot : ∀ cells, (C.unpackSlotCells cells).1 < 2 ^ 64

section Mask

theorem ctEqU64Mask_self (a : BitVec 64) : ctEqU64Mask a a = BitVec.allOnes 64 := by
  rw [ctEqU64Mask, BitVec.xor_self]
  decide

/-- A nonzero word or its negation has the top bit set. -/
private theorem top_bit {x : BitVec 64} (nonzero : x ≠ 0) : (x ||| -x) >>> 63 = 1#64 := by
  have positive : x.toNat ≠ 0 := fun h => nonzero (BitVec.eq_of_toNat_eq h)
  have bound := x.isLt
  have negated : (-x).toNat = 2 ^ 64 - x.toNat := by
    rw [BitVec.toNat_neg, Nat.mod_eq_of_lt (by omega)]
  have left : x.toNat ≤ x.toNat ||| (-x).toNat := Nat.left_le_or
  have right : (-x).toNat ≤ x.toNat ||| (-x).toNat := Nat.right_le_or
  have whole := (x ||| -x).isLt
  rw [BitVec.toNat_or] at whole
  refine BitVec.eq_of_toNat_eq ?_
  rw [BitVec.toNat_ushiftRight, BitVec.toNat_or, Nat.shiftRight_eq_div_pow]
  show _ = 1
  omega

theorem ctEqU64Mask_of_ne {a b : BitVec 64} (h : a ≠ b) : ctEqU64Mask a b = 0 := by
  have nonzero : a ^^^ b ≠ 0 := fun zero => h (BitVec.xor_eq_zero_iff.mp zero)
  rw [ctEqU64Mask, top_bit nonzero]
  decide

/-- On numbers below `2^64` the mask is all ones exactly where they are equal. -/
theorem ctEqU64Mask_ofNat {a b : Nat} (ha : a < 2 ^ 64) (hb : b < 2 ^ 64) :
    ctEqU64Mask (BitVec.ofNat 64 a) (BitVec.ofNat 64 b) =
      if a = b then BitVec.allOnes 64 else 0 := by
  by_cases h : a = b
  · rw [if_pos h, h, ctEqU64Mask_self]
  · rw [if_neg h]
    refine ctEqU64Mask_of_ne fun heq => h ?_
    have value := congrArg BitVec.toNat heq
    rwa [BitVec.toNat_ofNat, BitVec.toNat_ofNat, Nat.mod_eq_of_lt ha, Nat.mod_eq_of_lt hb] at value

/-- The word mask that stands for a Boolean one. -/
def wordMask (mask : Bool) : BitVec 64 := if mask then BitVec.allOnes 64 else 0

private theorem wordMask_and (a b : Bool) : wordMask a &&& wordMask b = wordMask (a && b) := by
  cases a <;> cases b <;> decide

private theorem wordMask_or (a b : Bool) : wordMask a ||| wordMask b = wordMask (a || b) := by
  cases a <;> cases b <;> decide

private theorem wordMask_eq_zero (mask : Bool) : wordMask mask = 0 ↔ mask = false := by
  cases mask <;> decide

private theorem orMask8_wordMask (mask : Bool) (acc bytes : List UInt8) :
    orMask8 (wordMask mask) acc bytes = orMasked mask acc bytes := by
  have byte : ∀ v : UInt8, (⟨(wordMask mask &&& 0xFF#64).setWidth 8⟩ : UInt8) &&& v =
      if mask = true then v else 0 := by
    intro v
    cases mask with
    | false =>
        have zero : (⟨(wordMask false &&& 0xFF#64).setWidth 8⟩ : UInt8) = 0 := by decide
        rw [zero]
        simp
    | true =>
        have ones : (⟨(wordMask true &&& 0xFF#64).setWidth 8⟩ : UInt8) = 0xFF := by decide
        rw [ones]
        have full : (0xFF : UInt8) = -1 := by decide
        simp [full]
  rw [orMask8, orMasked]
  simp only [byte]

end Mask

section Scan

variable {C codec}

/-- The word state that stands for a Boolean one. -/
def lift (sel : Select) : MaskedSelect := ⟨sel.acc, wordMask sel.foundMask⟩

theorem maskSlot_lift (words : WordFingerprints C) (widths : codec.ValidWidths) (sel : Select)
    (slot : List (BitVec 32)) : maskSlot C codec key (lift sel) slot =
      lift (selectSlot C codec key sel (C.unpackSlotCells slot)) := by
  have tagBound : 2 ^ codec.keyTagBits ≤ 2 ^ 64 := Nat.pow_le_pow_right (by omega) widths.1
  have stored : codec.extractKeyTag (C.unpackSlotCells slot).2 < 2 ^ 64 :=
    lt_of_lt_of_le (bitField_lt _ _ _) tagBound
  have own : codec.keyTag key < 2 ^ 64 := lt_of_lt_of_le (ValueCodec.keyTag_lt key) tagBound
  have fingerprint := ctEqU64Mask_ofNat (words.slot slot) (words.key key)
  have tag := ctEqU64Mask_ofNat stored own
  have joint : ctEqU64Mask (BitVec.ofNat 64 (C.unpackSlotCells slot).1)
        (BitVec.ofNat 64 (C.fp key)) &&&
      ctEqU64Mask (BitVec.ofNat 64 (codec.extractKeyTag (C.unpackSlotCells slot).2))
        (BitVec.ofNat 64 (codec.keyTag key)) =
      wordMask (slotMask codec key C (C.unpackSlotCells slot)) := by
    rw [fingerprint, tag, slotMask, ← wordMask_and]
    simp only [wordMask, decide_eq_true_eq]
  rw [maskSlot, joint]
  dsimp only [lift]
  rw [orMask8_wordMask, wordMask_or]
  rfl

/-- A row under word masks is the row under Boolean masks. -/
theorem maskRow_lift (words : WordFingerprints C) (widths : codec.ValidWidths) (sel : Select)
    (cells : List (BitVec 32)) : maskRow C codec key (lift sel) cells =
      (scanRow C codec key cells sel).map lift := by
  have fold : ∀ (slots : List Nat) (sel : Select), slots.foldl (fun sel s =>
      maskSlot C codec key sel (slice cells (s * p.cellsPerSlot) p.cellsPerSlot)) (lift sel) =
        lift ((slots.map fun s =>
          C.unpackSlotCells (slice cells (s * p.cellsPerSlot) p.cellsPerSlot)).foldl
            (selectSlot C codec key) sel) := by
    intro slots
    induction slots with
    | nil => exact fun _ => rfl
    | cons s slots ih =>
        intro sel
        rw [List.foldl_cons, maskSlot_lift key words widths, ih, List.map_cons, List.foldl_cons]
  rw [maskRow, scanRow]
  by_cases long : p.rowWidth ≤ cells.length
  · rw [if_pos long, if_pos long, fold]
    rfl
  · rw [if_neg long, if_neg long]
    rfl

/-- The candidate rows of a key, one per segment, as `finish` has them after step 4. -/
def candidateCells (C : SegmentedCuckoo p) (cells : List (BitVec 32)) (key : AddressHash) :
    List (List (BitVec 32)) :=
  (candidateRows C key).mapIdx fun j row => rowCells p cells j row

private theorem maskRows {cells : List (BitVec 32)} (words : WordFingerprints C)
    (widths : codec.ValidWidths) (length : cells.length = p.totalCells)
    {entries : List (Nat × Nat)} (inside : ∀ e ∈ entries, e.1 < p.arity ∧ e.2 < p.segmentSize)
    (sel : Select) :
    (entries.map fun e => rowCells p cells e.1 e.2).foldlM (maskRow C codec key) (lift sel) =
      some (lift ((entries.flatMap fun e => rowSlots C cells e.1 e.2).foldl
        (selectSlot C codec key) sel)) := by
  induction entries generalizing sel with
  | nil => rfl
  | cons e entries ih =>
      obtain ⟨hj, hr⟩ := inside e List.mem_cons_self
      have first := maskRow_lift key words widths sel (rowCells p cells e.1 e.2)
      rw [scanRow_rowCells length hj hr] at first
      rw [List.map_cons, List.foldlM_cons, first, List.flatMap_cons, List.foldl_append]
      exact ih (fun e' he' => inside e' (List.mem_cons_of_mem e he')) _

/-- Over all candidate rows the masked scan computes the Boolean one. -/
theorem selectMasked_eq (laws : C.PlacementLaws) (words : WordFingerprints C)
    (widths : codec.ValidWidths) {cells : List (BitVec 32)} (length : cells.length = p.totalCells) :
    selectMasked C codec key (candidateCells C cells key) =
      some (scanResult C codec key ((C.probe key).map (C.slotAt cells))) := by
  have rows : candidateCells C cells key =
      ((candidateRows C key).mapIdx fun j row => (j, row)).map
        fun e => rowCells p cells e.1 e.2 := by
    refine List.ext_getElem? fun j => ?_
    simp [candidateCells, Function.comp_def]
  have inside : ∀ e ∈ (candidateRows C key).mapIdx fun j row => (j, row),
      e.1 < p.arity ∧ e.2 < p.segmentSize := by
    intro e he
    obtain ⟨j, hj, rfl⟩ := List.mem_mapIdx.mp he
    refine ⟨?_, ?_⟩
    · rw [← candidateRows_length key laws]
      exact hj
    · obtain ⟨bucket, -, heq⟩ := List.mem_map.mp (List.getElem_mem hj)
      show (candidateRows C key)[j] < p.segmentSize
      rw [← heq]
      exact Nat.mod_lt _ p.segmentSize_pos
  have scanned := maskRows key words widths length inside
    ⟨List.replicate p.valueSizeInBytes 0, false⟩
  rw [rowSlots_probe key laws cells] at scanned
  have start : lift ⟨List.replicate p.valueSizeInBytes 0, false⟩ =
      ⟨List.replicate p.valueSizeInBytes 0, 0⟩ := rfl
  rw [selectMasked, rows, ← start, scanned, Option.map_some, scanResult]
  generalize ((C.probe key).map (C.slotAt cells)).foldl (selectSlot C codec key)
    ⟨List.replicate p.valueSizeInBytes 0, false⟩ = sel
  obtain ⟨acc, found⟩ := sel
  have none_found : (lift ⟨acc, found⟩).foundMask = 0 ↔ found = false := wordMask_eq_zero found
  cases found with
  | false =>
      rw [if_pos (none_found.mpr rfl)]
      rfl
  | true =>
      rw [if_neg fun zero => by cases none_found.mp zero]
      rfl

end Scan

/-- With at most one slot of the key's candidate rows under its fingerprint and tag, the
masked selection finds a balance, nothing, or a corrupt entry exactly where the verified
read does. -/
theorem selection_agrees (laws : C.PlacementLaws) (words : WordFingerprints C)
    (widths : codec.ValidWidths) {cells : List (BitVec 32)} (length : cells.length = p.totalCells)
    (single : ∀ s ∈ C.probe key, ∀ s' ∈ C.probe key, tagMatch C codec cells key s = true →
      tagMatch C codec cells key s' = true → s = s') :
    ∃ outcome, selectMasked C codec key (candidateCells C cells key) = some outcome ∧
      (∀ b, outcome = .found b ↔ Server.Verified.get C codec cells key = .ok (some b)) ∧
      (outcome = .notFound ↔ Server.Verified.get C codec cells key = .ok none) ∧
      (outcome = .decodeFailed ↔ Server.Verified.get C codec cells key = .error .corrupt) := by
  refine ⟨_, selectMasked_eq key laws words widths length, ?_⟩
  match own : ownSlots C codec cells key with
  | [] =>
      rw [get_absent own, scanResult_absent codec key own]
      simp
  | [s] =>
      rw [get_unique laws own, scanResult_unique codec key own]
      have tagged : s ∈ ownSlots C codec cells key := by simp [own]
      cases decoded : codec.decode key (C.slotAt cells s).2 with
      | found v => simp
      | notFound =>
          have tag := (mem_ownSlots.mp tagged).2
          exact absurd decoded (ValueCodec.decode_ne_notFound (tagMatch_iff.mp tag).2)
      | decodeFailed => simp
  | s :: s' :: rest =>
      have first : s ∈ ownSlots C codec cells key := by simp [own]
      have second : s' ∈ ownSlots C codec cells key := by simp [own]
      obtain ⟨hs, ts⟩ := mem_ownSlots.mp first
      obtain ⟨hs', ts'⟩ := mem_ownSlots.mp second
      have nodup : (ownSlots C codec cells key).Nodup := (probe_nodup laws key).filter _
      rw [own, single s hs s' hs' ts ts'] at nodup
      simp at nodup

/-- The two candidate slots of one key: a foreign entry under its fingerprint, then its own. -/
private def foreignFirst : List (BitVec 32) :=
  writeSlot smallParams (writeSlot smallParams (emptyStore smallParams).cells (0, 0)
    ((referenceTable smallParams).slotContent 2 [9, 1, 0])) (2, 0)
      ((referenceTable smallParams).slotContent 2 [3, 5, 96])

private theorem smallWords : WordFingerprints (referenceTable smallParams) where
  key _ := lt_of_lt_of_le ((placementLaws smallParams).fp_range _).2 (by decide)
  slot _ := lt_of_lt_of_le (Nat.mod_lt _ (Nat.two_pow_pos smallParams.fingerprintBits)) (by decide)

theorem selection_agrees_foreignFirst :
    selectMasked (referenceTable smallParams) smallCodec (smallKey 3 1 0 0)
      (candidateCells (referenceTable smallParams) foreignFirst (smallKey 3 1 0 0)) =
        some (.found 5) := by
  have length : foreignFirst.length = smallParams.totalCells := by
    have first := writeSlot_length (p := smallParams) (s := (0, 0)) (by decide)
      (emptyStore smallParams).cells_length
      ((referenceTable smallParams).pack_length 2 ((referenceTable smallParams).valueCells [9, 1, 0]))
    exact writeSlot_length (by decide) first ((referenceTable smallParams).pack_length _ _)
  obtain ⟨outcome, selected, found, -⟩ := selection_agrees (referenceTable smallParams) smallCodec
    (smallKey 3 1 0 0) (placementLaws smallParams) smallWords (by decide) length (by decide)
  rw [selected, (found 5).mpr (by decide)]

end RisePir.Client.Selection
