import RisePir.Lib.Digits
import RisePir.Lib.Splice
import RisePir.Proto.Types

set_option autoImplicit false
set_option relaxedAutoImplicit false

/-! The segmented cuckoo table as this repository sees it. The table's code is a
dependency: its operations are a parameter, and what the repository relies on is
stated as laws about them. -/

namespace RisePir.Upstream.Cuckoo

open RisePir.Lib.Digits
open RisePir.Lib.Splice
open RisePir.Proto.Types

/-- `CuckooParams`. The bounds are those of `Geometry`'s constraints and of the
`u16` cell offsets. -/
structure CuckooParams where
  arity : Nat
  numBuckets : Nat
  bucketSize : Nat
  fingerprintBits : Nat
  valueBits : Nat
  plaintextBits : Nat
  arity_range : 2 ≤ arity ∧ arity ≤ 4
  segments_even : arity ∣ numBuckets
  numBuckets_range : 0 < numBuckets ∧ numBuckets < 2 ^ 32
  bucketSize_pos : 0 < bucketSize
  fieldBits_pos : 0 < fingerprintBits ∧ 0 < valueBits
  plaintextBits_range : 1 ≤ plaintextBits ∧ plaintextBits ≤ 31
  rowWidth_fits : bucketSize *
    ((fingerprintBits + valueBits + (plaintextBits - 1)) / plaintextBits) ≤ 2 ^ 16
  deriving DecidableEq

namespace CuckooParams

variable (p : CuckooParams)

def segmentSize : Nat := p.numBuckets / p.arity

/-- `ceil((fingerprint_bits + value_bits) / plaintext_bits)`. -/
def cellsPerSlot : Nat :=
  (p.fingerprintBits + p.valueBits + (p.plaintextBits - 1)) / p.plaintextBits

def rowWidth : Nat := p.bucketSize * p.cellsPerSlot

/-- Cells of one segment. -/
def segCells : Nat := p.segmentSize * p.rowWidth

/-- Cells of the whole flat array. -/
def totalCells : Nat := p.numBuckets * p.rowWidth

def valueSizeInBytes : Nat := (p.valueBits + 7) / 8

/-- The first cell of `slot_cell_range(bucket, slot)`. -/
def slotStart (bucket slot : Nat) : Nat := (bucket * p.bucketSize + slot) * p.cellsPerSlot

/-- The slots that exist. -/
def IsSlot (s : Nat × Nat) : Prop := s.1 < p.numBuckets ∧ s.2 < p.bucketSize

instance (s : Nat × Nat) : Decidable (p.IsSlot s) := inferInstanceAs (Decidable (_ ∧ _))

theorem arity_mul_segmentSize : p.arity * p.segmentSize = p.numBuckets :=
  Nat.mul_div_cancel' p.segments_even

theorem segmentSize_pos : 0 < p.segmentSize := by
  have h := p.arity_mul_segmentSize
  have hpos := p.numBuckets_range.1
  rcases Nat.eq_zero_or_pos p.segmentSize with h0 | h0
  · rw [h0, Nat.mul_zero] at h
    omega
  · exact h0

theorem cellsPerSlot_pos : 0 < p.cellsPerSlot := by
  have hf := p.fieldBits_pos
  have hp := p.plaintextBits_range
  exact Nat.div_pos (by omega) (by omega)

theorem rowWidth_pos : 0 < p.rowWidth := Nat.mul_pos p.bucketSize_pos p.cellsPerSlot_pos

theorem arity_mul_segCells : p.arity * p.segCells = p.totalCells := by
  rw [segCells, totalCells, ← p.arity_mul_segmentSize, Nat.mul_assoc]

/-- A cell `(segment, row, offset)` of the flat array. -/
def cellIndex (segment row offset : Nat) : Nat :=
  segment * p.segCells + (row * p.rowWidth + offset)

theorem row_offset_lt {row offset : Nat} (hr : row < p.segmentSize) (ho : offset < p.rowWidth) :
    row * p.rowWidth + offset < p.segCells := by
  calc row * p.rowWidth + offset < row * p.rowWidth + p.rowWidth := by omega
    _ = (row + 1) * p.rowWidth := by ring
    _ ≤ p.segCells := Nat.mul_le_mul_right _ hr

theorem cellIndex_lt {segment row offset : Nat} (hs : segment < p.arity)
    (hr : row < p.segmentSize) (ho : offset < p.rowWidth) :
    p.cellIndex segment row offset < p.totalCells := by
  have inside := p.row_offset_lt hr ho
  calc p.cellIndex segment row offset < segment * p.segCells + p.segCells := by
        rw [cellIndex]
        omega
    _ = (segment + 1) * p.segCells := by ring
    _ ≤ p.arity * p.segCells := Nat.mul_le_mul_right _ hs
    _ = p.totalCells := p.arity_mul_segCells

/-- A slot's cells stand in its bucket's row of the bucket's segment. -/
theorem slotStart_add (bucket slot c : Nat) : p.slotStart bucket slot + c =
    p.cellIndex (bucket / p.segmentSize) (bucket % p.segmentSize) (slot * p.cellsPerSlot + c) := by
  have hb : bucket = bucket / p.segmentSize * p.segmentSize + bucket % p.segmentSize :=
    (Nat.div_add_mod' bucket p.segmentSize).symm
  calc p.slotStart bucket slot + c = bucket * p.rowWidth + (slot * p.cellsPerSlot + c) := by
        rw [slotStart, rowWidth]
        ring
    _ = (bucket / p.segmentSize * p.segmentSize + bucket % p.segmentSize) * p.rowWidth +
          (slot * p.cellsPerSlot + c) := by rw [← hb]
    _ = p.cellIndex (bucket / p.segmentSize) (bucket % p.segmentSize)
          (slot * p.cellsPerSlot + c) := by
        rw [cellIndex, segCells]
        ring

theorem slot_offset_lt {slot c : Nat} (hs : slot < p.bucketSize) (hc : c < p.cellsPerSlot) :
    slot * p.cellsPerSlot + c < p.rowWidth := by
  calc slot * p.cellsPerSlot + c < slot * p.cellsPerSlot + p.cellsPerSlot := by omega
    _ = (slot + 1) * p.cellsPerSlot := by ring
    _ ≤ p.rowWidth := Nat.mul_le_mul_right _ hs

theorem segment_lt {bucket : Nat} (h : bucket < p.numBuckets) :
    bucket / p.segmentSize < p.arity := by
  rw [Nat.div_lt_iff_lt_mul p.segmentSize_pos, p.arity_mul_segmentSize]
  exact h

theorem slotStart_le {bucket slot : Nat} (h : p.IsSlot (bucket, slot)) :
    p.slotStart bucket slot + p.cellsPerSlot ≤ p.totalCells := by
  have hlast := p.slotStart_add bucket slot (p.cellsPerSlot - 1)
  have hpos := p.cellsPerSlot_pos
  have hlt := p.cellIndex_lt (p.segment_lt h.1) (Nat.mod_lt bucket p.segmentSize_pos)
    (p.slot_offset_lt h.2 (show p.cellsPerSlot - 1 < p.cellsPerSlot by omega))
  rw [← hlast] at hlt
  omega

/-- Distinct slots have disjoint windows. -/
theorem slotStart_disjoint {s s' : Nat × Nat} (h : p.IsSlot s) (h' : p.IsSlot s') (hne : s ≠ s') :
    p.slotStart s'.1 s'.2 + p.cellsPerSlot ≤ p.slotStart s.1 s.2 ∨
      p.slotStart s.1 s.2 + p.cellsPerSlot ≤ p.slotStart s'.1 s'.2 := by
  have index : s.1 * p.bucketSize + s.2 ≠ s'.1 * p.bucketSize + s'.2 := by
    intro heq
    have hdiv : ∀ t : Nat × Nat, t.2 < p.bucketSize → (t.1 * p.bucketSize + t.2) / p.bucketSize = t.1 := by
      intro t ht
      rw [Nat.mul_comm, Nat.mul_add_div p.bucketSize_pos, Nat.div_eq_of_lt ht, Nat.add_zero]
    have h1 : s.1 = s'.1 := by rw [← hdiv s h.2, heq, hdiv s' h'.2]
    refine hne (Prod.ext h1 ?_)
    rw [h1] at heq
    omega
  unfold slotStart
  rcases Nat.lt_or_gt_of_ne index with hlt | hgt
  · right
    calc _ = (s.1 * p.bucketSize + s.2 + 1) * p.cellsPerSlot := by ring
      _ ≤ _ := Nat.mul_le_mul_right _ hlt
  · left
    calc _ = (s'.1 * p.bucketSize + s'.2 + 1) * p.cellsPerSlot := by ring
      _ ≤ _ := Nat.mul_le_mul_right _ hgt

end CuckooParams

/-- One logged slot write, with the slot's old and new contents. -/
structure SlotMutation where
  bucket : Nat
  slot : Nat
  oldFingerprint : Nat
  oldValueCells : List (BitVec 32)
  newFingerprint : Nat
  newValueCells : List (BitVec 32)
  deriving DecidableEq, Repr

inductive CuckooError
  | tableFull
  | notFound
  | invalidParams (msg : String)
  deriving DecidableEq, Repr

/-- How the table packs a slot: `cells_per_slot` cells of `plaintext_bits` bits, which
read back as the fingerprint and the value bytes they were packed from. -/
structure SlotPacking (p : CuckooParams) where
  packSlotCells : Nat → List (BitVec 32) → List (BitVec 32)
  unpackSlotCells : List (BitVec 32) → Nat × List UInt8
  /-- The value cells a slot mutation records for value bytes. -/
  valueCells : List UInt8 → List (BitVec 32)
  pack_length : ∀ fingerprint vcells, (packSlotCells fingerprint vcells).length = p.cellsPerSlot
  pack_lt : ∀ fingerprint vcells, ∀ cell ∈ packSlotCells fingerprint vcells,
    cell.toNat < 2 ^ p.plaintextBits
  unpack_length : ∀ cells : List (BitVec 32), (unpackSlotCells cells).2.length = p.valueSizeInBytes
  unpack_pack : ∀ fingerprint bytes, fingerprint < 2 ^ p.fingerprintBits →
    bytes.length = p.valueSizeInBytes → leNat bytes < 2 ^ p.valueBits →
    unpackSlotCells (packSlotCells fingerprint (valueCells bytes)) = (fingerprint, bytes)

/-- `slot_cell_range` of the cells. -/
def slotCells (p : CuckooParams) (cells : List (BitVec 32)) (s : Nat × Nat) : List (BitVec 32) :=
  slice cells (p.slotStart s.1 s.2) p.cellsPerSlot

/-- The table's observable state: its flat cells, its item count and its mutation log.
Only the table writes the cells, so every slot holds a packed content. -/
@[ext] structure CuckooKVStore {p : CuckooParams} (K : SlotPacking p) where
  cells : List (BitVec 32)
  numItems : Nat
  mutationLog : List SlotMutation
  cells_length : cells.length = p.totalCells
  packed : ∀ s, p.IsSlot s → ∃ fingerprint vcells,
    slotCells p cells s = K.packSlotCells fingerprint vcells

/-- `drain_mutations`: the buffered log, and the store without it. -/
def CuckooKVStore.drainMutations {p : CuckooParams} {K : SlotPacking p} (store : CuckooKVStore K) :
    List SlotMutation × CuckooKVStore K :=
  (store.mutationLog, { store with mutationLog := [] })

/-- The upstream operations. `insert` draws slots and victims from `Rng`; an
operation that fails has rolled its own writes back, so it returns no store. -/
structure SegmentedCuckoo (p : CuckooParams) extends SlotPacking p where
  Rng : Type
  candidateBuckets : AddressHash → Nat × List Nat
  insert : Rng → CuckooKVStore toSlotPacking → AddressHash → List UInt8 →
    Rng × Except CuckooError (CuckooKVStore toSlotPacking)
  update : CuckooKVStore toSlotPacking → AddressHash → List UInt8 →
    Except CuckooError (CuckooKVStore toSlotPacking)
  delete : CuckooKVStore toSlotPacking → AddressHash →
    Except CuckooError (CuckooKVStore toSlotPacking)
  fromCells : List (BitVec 32) → (numItems : Nat) → Except CuckooError (CuckooKVStore toSlotPacking)

namespace SegmentedCuckoo

variable {p : CuckooParams} (C : SegmentedCuckoo p)

abbrev Store : Type := CuckooKVStore C.toSlotPacking

/-- The fingerprint of a key. -/
def fp (key : AddressHash) : Nat := (C.candidateBuckets key).1

/-- The first `arity` candidate buckets of a key. -/
def buckets (key : AddressHash) : List Nat := (C.candidateBuckets key).2.take p.arity

/-- Every candidate slot in probe order: buckets in order, slots ascending. -/
def probe (key : AddressHash) : List (Nat × Nat) :=
  (C.buckets key).flatMap fun bucket => (List.range p.bucketSize).map fun slot => (bucket, slot)

/-- Fingerprint and value bytes of a slot. -/
def slotAt (cells : List (BitVec 32)) (s : Nat × Nat) : Nat × List UInt8 :=
  C.unpackSlotCells (slotCells p cells s)

/-- The cells of a slot that holds value bytes under a fingerprint. -/
def slotContent (fingerprint : Nat) (bytes : List UInt8) : List (BitVec 32) :=
  C.packSlotCells fingerprint (C.valueCells bytes)

/-- The first candidate slot, in probe order, whose fingerprint is the key's. -/
def firstMatch (cells : List (BitVec 32)) (key : AddressHash) : Option (Nat × Nat) :=
  (C.probe key).find? fun s => (C.slotAt cells s).1 = C.fp key

/-- The cells before and after a mutation's write. -/
def oldContent (m : SlotMutation) : List (BitVec 32) :=
  C.packSlotCells m.oldFingerprint m.oldValueCells

def newContent (m : SlotMutation) : List (BitVec 32) :=
  C.packSlotCells m.newFingerprint m.newValueCells

/-- `muts` lists, in order, every slot write that turns the first cells into the
last, each with the slot's true old and new contents. -/
inductive Replays : List (BitVec 32) → List SlotMutation → List (BitVec 32) → Prop
  | nil (cells : List (BitVec 32)) : Replays cells [] cells
  | cons {cells after : List (BitVec 32)} {m : SlotMutation} {muts : List SlotMutation}
      (slot : p.IsSlot (m.bucket, m.slot))
      (old : slotCells p cells (m.bucket, m.slot) = C.oldContent m)
      (rest : Replays (splice cells (p.slotStart m.bucket m.slot) (C.newContent m)) muts after) :
      Replays cells (m :: muts) after

/-- A store operation that appended exactly its own writes to the log. -/
def Logged (store store' : C.Store) : Prop :=
  ∃ muts, store'.mutationLog = store.mutationLog ++ muts ∧ C.Replays store.cells muts store'.cells

/-- The log laws: the mutation log lists every slot write with its true old and new
contents. -/
structure LogLaws : Prop where
  insert_logged : ∀ rng store key bytes rng' store',
    C.insert rng store key bytes = (rng', .ok store') → C.Logged store store'
  update_logged : ∀ store key bytes store',
    C.update store key bytes = .ok store' → C.Logged store store'
  delete_logged : ∀ store key store', C.delete store key = .ok store' → C.Logged store store'

/-- What a successful `insert` does: the new entry goes into one empty candidate
slot of the key, every occupied slot's cells go unchanged to a slot that is a
candidate for every key the old slot was, and nothing else is occupied. `source`
names, for each other slot, the slot its content came from. -/
structure Inserted (cells cells' : List (BitVec 32)) (key : AddressHash) (bytes : List UInt8)
    (target : Nat × Nat) (source : Nat × Nat → Option (Nat × Nat)) : Prop where
  target_probe : target ∈ C.probe key
  target_content : slotCells p cells' target = C.slotContent (C.fp key) bytes
  vacant : ∀ s, p.IsSlot s → s ≠ target → source s = none → (C.slotAt cells' s).1 = 0
  moved : ∀ s s₀, p.IsSlot s → s ≠ target → source s = some s₀ →
    p.IsSlot s₀ ∧ (C.slotAt cells s₀).1 ≠ 0 ∧
      slotCells p cells' s = slotCells p cells s₀ ∧
      ∀ other, C.fp other = (C.slotAt cells s₀).1 → s₀.1 ∈ C.buckets other →
        s.1 ∈ C.buckets other
  kept : ∀ s₀, p.IsSlot s₀ → (C.slotAt cells s₀).1 ≠ 0 →
    ∃! s, p.IsSlot s ∧ s ≠ target ∧ source s = some s₀

/-- The placement laws: candidate `j` lies in segment `j`; fingerprint 0 is the empty
slot's; `update` and `delete` act on the first fingerprint match in probe order; `insert`
writes only empty slots and relocates entries unchanged within their candidates. -/
structure PlacementLaws : Prop where
  buckets_length : ∀ key, (C.buckets key).length = p.arity
  bucket_segment : ∀ key j, j < p.arity → (C.buckets key).getD j 0 / p.segmentSize = j
  fp_range : ∀ key, 0 < C.fp key ∧ C.fp key < 2 ^ p.fingerprintBits
  update_first : ∀ store key bytes s, C.firstMatch store.cells key = some s →
    ∃ store', C.update store key bytes = .ok store' ∧
      store'.cells = splice store.cells (p.slotStart s.1 s.2) (C.slotContent (C.fp key) bytes)
  delete_first : ∀ store key s, C.firstMatch store.cells key = some s →
    ∃ store' content, C.delete store key = .ok store' ∧ content.length = p.cellsPerSlot ∧
      store'.cells = splice store.cells (p.slotStart s.1 s.2) content ∧
      (C.unpackSlotCells content).1 = 0
  insert_empty : ∀ rng store key bytes rng' store',
    C.insert rng store key bytes = (rng', .ok store') →
    ∃ target source, C.Inserted store.cells store'.cells key bytes target source

/-- The laws of a running table. -/
structure Lawful : Prop extends LogLaws C, PlacementLaws C

end SegmentedCuckoo

end RisePir.Upstream.Cuckoo
