import RisePir.Upstream.Slots

set_option autoImplicit false
set_option relaxedAutoImplicit false

/-! The simplest table that meets the table's laws, for every geometry: a slot is one
number, its fingerprint lowest, and `insert` tries a random number of candidate slots from
a random one on, without kicks. It shows the laws satisfiable and runs the examples. -/

namespace RisePir.Upstream.ReferenceTable

open RisePir.Lib.Digits
open RisePir.Lib.Splice
open RisePir.Proto.Types
open RisePir.Upstream.Cuckoo
open RisePir.Upstream.Slots

section Packing

variable (p : CuckooParams)

/-- The number that cells spell, lowest cell first. -/
def slotNumber (cells : List (BitVec 32)) : Nat :=
  Nat.ofDigits (2 ^ p.plaintextBits) (cells.map BitVec.toNat)

def packNumber (x : Nat) : List (BitVec 32) :=
  (digits (2 ^ p.plaintextBits) p.cellsPerSlot x).map (BitVec.ofNat 32)

theorem packNumber_length (x : Nat) : (packNumber p x).length = p.cellsPerSlot := by
  simp [packNumber]

private theorem cell_ofNat {d : Nat} (h : d < 2 ^ p.plaintextBits) :
    (BitVec.ofNat 32 d).toNat = d := by
  have hpow : 2 ^ p.plaintextBits ≤ 2 ^ 31 :=
    Nat.pow_le_pow_right (by omega) p.plaintextBits_range.2
  rw [BitVec.toNat_ofNat, Nat.mod_eq_of_lt (by omega)]

theorem packNumber_lt (x : Nat) : ∀ cell ∈ packNumber p x, cell.toNat < 2 ^ p.plaintextBits := by
  intro cell hcell
  obtain ⟨d, hd, rfl⟩ := List.mem_map.mp hcell
  have hlt := digits_lt (Nat.two_pow_pos _) hd
  rwa [cell_ofNat p hlt]

theorem slotNumber_packNumber (x : Nat) :
    slotNumber p (packNumber p x) = x % (2 ^ p.plaintextBits) ^ p.cellsPerSlot := by
  have cells : ((packNumber p x).map BitVec.toNat) =
      digits (2 ^ p.plaintextBits) p.cellsPerSlot x := by
    rw [packNumber, List.map_map]
    conv_rhs => rw [← List.map_id (digits _ _ x)]
    exact List.map_congr_left fun d hd => cell_ofNat p (digits_lt (Nat.two_pow_pos _) hd)
  rw [slotNumber, cells, ofDigits_digits]

theorem packNumber_slotNumber {cells : List (BitVec 32)} (length : cells.length = p.cellsPerSlot)
    (small : ∀ cell ∈ cells, cell.toNat < 2 ^ p.plaintextBits) :
    packNumber p (slotNumber p cells) = cells := by
  have bound : ∀ d ∈ cells.map BitVec.toNat, d < 2 ^ p.plaintextBits := by
    intro d hd
    obtain ⟨cell, hcell, rfl⟩ := List.mem_map.mp hd
    exact small cell hcell
  have back := digits_ofDigits bound
  rw [List.length_map, length] at back
  rw [packNumber, slotNumber, back, List.map_map]
  conv_rhs => rw [← List.map_id cells]
  exact List.map_congr_left fun cell _ => BitVec.ofNat_toNat 32 cell |>.trans (by simp)

/-- A slot holds a fingerprint and a value of the geometry's widths. -/
theorem slotNumber_fits {fingerprint value : Nat} (hfp : fingerprint < 2 ^ p.fingerprintBits)
    (hvalue : value < 2 ^ p.valueBits) : fingerprint + 2 ^ p.fingerprintBits * value <
      (2 ^ p.plaintextBits) ^ p.cellsPerSlot := by
  have hceil : p.fingerprintBits + p.valueBits ≤ p.plaintextBits * p.cellsPerSlot := by
    have hpb := p.plaintextBits_range
    have hdiv := Nat.lt_mul_div_succ (p.fingerprintBits + p.valueBits + (p.plaintextBits - 1))
      (show 0 < p.plaintextBits by omega)
    rw [Nat.mul_add, Nat.mul_one] at hdiv
    rw [CuckooParams.cellsPerSlot]
    omega
  calc _ < 2 ^ (p.fingerprintBits + p.valueBits) := pack_lt hfp hvalue
    _ ≤ 2 ^ (p.plaintextBits * p.cellsPerSlot) := Nat.pow_le_pow_right (by omega) hceil
    _ = _ := pow_mul 2 _ _

/-- A slot is the number `fingerprint + 2 ^ fingerprint_bits * value`. -/
def packing : SlotPacking p where
  packSlotCells fingerprint vcells := packNumber p
    (fingerprint % 2 ^ p.fingerprintBits + 2 ^ p.fingerprintBits * slotNumber p vcells)
  unpackSlotCells cells := (slotNumber p cells % 2 ^ p.fingerprintBits,
    leBytes p.valueSizeInBytes (slotNumber p cells / 2 ^ p.fingerprintBits))
  valueCells bytes := packNumber p (leNat bytes)
  pack_length _ _ := packNumber_length p _
  pack_lt _ _ := packNumber_lt p _
  unpack_length _ := leBytes_length _ _
  unpack_pack fingerprint bytes hfp hlen hvalue := by
    have fits := slotNumber_fits p hfp hvalue
    have hvalue' : leNat bytes < (2 ^ p.plaintextBits) ^ p.cellsPerSlot := by
      have hpos := Nat.two_pow_pos p.fingerprintBits
      have := Nat.le_mul_of_pos_left (leNat bytes) hpos
      omega
    rw [slotNumber_packNumber, slotNumber_packNumber, Nat.mod_eq_of_lt hvalue',
      Nat.mod_eq_of_lt hfp, Nat.mod_eq_of_lt fits, Nat.add_mul_mod_self_left,
      Nat.mod_eq_of_lt hfp, Nat.add_mul_div_left _ _ (Nat.two_pow_pos _), Nat.div_eq_of_lt hfp,
      Nat.zero_add, ← hlen, leBytes_leNat]

/-- The value cells that the log records for a slot's old content. -/
def recordedCells (cells : List (BitVec 32)) : List (BitVec 32) :=
  packNumber p (slotNumber p cells / 2 ^ p.fingerprintBits)

/-- What the log records of a slot's cells packs to them again. -/
theorem pack_recordedCells {content : List (BitVec 32)} (length : content.length = p.cellsPerSlot)
    (small : ∀ cell ∈ content, cell.toNat < 2 ^ p.plaintextBits) :
    (packing p).packSlotCells ((packing p).unpackSlotCells content).1 (recordedCells p content) =
      content := by
  have whole := packNumber_slotNumber p length small
  have hlt : slotNumber p content < (2 ^ p.plaintextBits) ^ p.cellsPerSlot := by
    rw [← whole, slotNumber_packNumber]
    exact Nat.mod_lt _ (Nat.pow_pos (Nat.two_pow_pos _))
  have hdiv : slotNumber p content / 2 ^ p.fingerprintBits <
      (2 ^ p.plaintextBits) ^ p.cellsPerSlot := lt_of_le_of_lt (Nat.div_le_self _ _) hlt
  change packNumber p (slotNumber p content % 2 ^ p.fingerprintBits % 2 ^ p.fingerprintBits +
    2 ^ p.fingerprintBits * slotNumber p (packNumber p _)) = content
  rw [Nat.mod_mod, slotNumber_packNumber, Nat.mod_eq_of_lt hdiv, Nat.mod_add_div]
  exact whole

end Packing

variable {p : CuckooParams}

/-- The fingerprint is taken from the key's second byte, the row of segment `j` from
byte `j + 2`. -/
def candidateBuckets (p : CuckooParams) (key : AddressHash) : Nat × List Nat :=
  (1 + key.toNat / 2 ^ 8 % (2 ^ p.fingerprintBits - 1),
    (List.range p.arity).map fun j =>
      j * p.segmentSize + key.toNat / 2 ^ (16 + 8 * j) % p.segmentSize)

/-- The candidate slots in probe order. -/
def candidates (p : CuckooParams) (key : AddressHash) : List (Nat × Nat) :=
  ((candidateBuckets p key).2.take p.arity).flatMap fun bucket =>
    (List.range p.bucketSize).map fun slot => (bucket, slot)

def fingerprintAt (p : CuckooParams) (cells : List (BitVec 32)) (s : Nat × Nat) : Nat :=
  ((packing p).unpackSlotCells (slotCells p cells s)).1

/-- One logged slot write. -/
def write (store : CuckooKVStore (packing p)) (s : Nat × Nat) (slot : p.IsSlot s)
    (fingerprint : Nat) (vcells : List (BitVec 32)) (numItems : Nat) :
    CuckooKVStore (packing p) where
  cells := writeSlot p store.cells s ((packing p).packSlotCells fingerprint vcells)
  numItems := numItems
  mutationLog := store.mutationLog ++ [⟨s.1, s.2, fingerprintAt p store.cells s,
    recordedCells p (slotCells p store.cells s), fingerprint, vcells⟩]
  cells_length := writeSlot_length slot store.cells_length ((packing p).pack_length _ _)
  packed s' slot' := by
    rw [slotCells_writeSlot slot store.cells_length ((packing p).pack_length _ _) slot']
    split
    · exact ⟨fingerprint, vcells, rfl⟩
    · exact store.packed s' slot'

/-- Write into the slot that a scan found, or fail. -/
def writeFound (store : CuckooKVStore (packing p)) (found : Option (Nat × Nat))
    (fingerprint : Nat) (vcells : List (BitVec 32)) (numItems : Nat) (failure : CuckooError) :
    Except CuckooError (CuckooKVStore (packing p)) :=
  match found with
  | none => .error failure
  | some s =>
      if slot : p.IsSlot s then .ok (write store s slot fingerprint vcells numItems)
      else .error failure

/-- The first candidate slot that holds the key's fingerprint. -/
def findOwn (p : CuckooParams) (cells : List (BitVec 32)) (key : AddressHash) : Option (Nat × Nat) :=
  (candidates p key).find? fun s => fingerprintAt p cells s = (candidateBuckets p key).1

/-- The table over cells below the plaintext modulus. -/
def tableOf (cells : List (BitVec 32)) (numItems : Nat) (length : cells.length = p.totalCells)
    (small : ∀ cell ∈ cells, cell.toNat < 2 ^ p.plaintextBits) : CuckooKVStore (packing p) where
  cells := cells
  numItems := numItems
  mutationLog := []
  cells_length := length
  packed _ slot := ⟨_, _, (pack_recordedCells p (slotCells_length slot length) fun cell hcell =>
    small cell (List.mem_of_mem_drop (List.mem_of_mem_take hcell))).symm⟩

/-- The random choices of an `insert`: where it starts and how many slots it tries. -/
structure Draw where
  rotation : Nat
  attempts : Nat
  deriving DecidableEq, Repr

def referenceTable (p : CuckooParams) : SegmentedCuckoo p where
  toSlotPacking := packing p
  Rng := Draw
  candidateBuckets := candidateBuckets p
  insert rng store key bytes := (rng, writeFound store
    ((((candidates p key).rotate rng.rotation).take rng.attempts).find? fun s =>
      fingerprintAt p store.cells s = 0)
    (candidateBuckets p key).1 ((packing p).valueCells bytes) (store.numItems + 1) .tableFull)
  update store key bytes := writeFound store (findOwn p store.cells key) (candidateBuckets p key).1
    ((packing p).valueCells bytes) store.numItems .notFound
  delete store key := writeFound store (findOwn p store.cells key) 0 [] (store.numItems - 1) .notFound
  fromCells cells numItems :=
    if h : cells.length = p.totalCells ∧ ∀ cell ∈ cells, cell.toNat < 2 ^ p.plaintextBits then
      .ok (tableOf cells numItems h.1 h.2)
    else .error (.invalidParams "cells")

theorem slotCells_zeros {s : Nat × Nat} (slot : p.IsSlot s) :
    slotCells p (List.replicate p.totalCells 0) s = packNumber p 0 := by
  have zeros : ∀ n : Nat, (digits (2 ^ p.plaintextBits) n 0).map (BitVec.ofNat 32) =
      List.replicate n 0#32 := by
    intro n
    induction n with
    | zero => rfl
    | succ n ih =>
        rw [digits, List.map_cons, List.replicate_succ, Nat.zero_div, ih, Nat.zero_mod]
  have hle := p.slotStart_le slot
  rw [packNumber, zeros, slotCells, slice, List.drop_replicate, List.take_replicate]
  congr 1
  omega

private theorem pack_vacant : (packing p).packSlotCells 0 [] = packNumber p 0 := by
  have number : 0 % 2 ^ p.fingerprintBits + 2 ^ p.fingerprintBits * slotNumber p [] = 0 := by
    simp [slotNumber]
  change packNumber p _ = _
  rw [number]

theorem unpack_vacant : ((packing p).unpackSlotCells (packNumber p 0)).1 = 0 := by
  change slotNumber p (packNumber p 0) % _ = 0
  rw [slotNumber_packNumber, Nat.zero_mod, Nat.zero_mod]

/-- The table without entries: every cell is zero. -/
def emptyStore (p : CuckooParams) : (referenceTable p).Store where
  cells := List.replicate p.totalCells 0
  numItems := 0
  mutationLog := []
  cells_length := List.length_replicate
  packed _ slot := ⟨0, [], (slotCells_zeros slot).trans pack_vacant.symm⟩

theorem emptyStore_vacant {s : Nat × Nat} (slot : p.IsSlot s) :
    ((referenceTable p).slotAt (emptyStore p).cells s).1 = 0 := by
  have read : slotCells p (emptyStore p).cells s = packNumber p 0 := slotCells_zeros slot
  rw [SegmentedCuckoo.slotAt, read]
  exact unpack_vacant

section Laws

theorem write_logged (store : (referenceTable p).Store) (s : Nat × Nat) (slot : p.IsSlot s)
    (fingerprint : Nat) (vcells : List (BitVec 32)) (numItems : Nat) :
    (referenceTable p).Logged store (write store s slot fingerprint vcells numItems) := by
  refine ⟨_, rfl, .cons slot ?_ (.nil _)⟩
  obtain ⟨fp₀, v₀, hpack⟩ := store.packed s slot
  change slotCells p store.cells s = (packing p).packSlotCells fp₀ v₀ at hpack
  refine (pack_recordedCells p (slotCells_length slot store.cells_length) ?_).symm
  rw [hpack]
  exact (packing p).pack_lt fp₀ v₀

theorem writeFound_ok {store store' : CuckooKVStore (packing p)} {found : Option (Nat × Nat)}
    {fingerprint numItems : Nat} {vcells : List (BitVec 32)} {failure : CuckooError}
    (h : writeFound store found fingerprint vcells numItems failure = .ok store') :
    ∃ s slot, found = some s ∧ store' = write store s slot fingerprint vcells numItems := by
  cases found with
  | none => cases h
  | some s =>
      rw [writeFound] at h
      split at h
      · rename_i slot
        exact ⟨s, slot, rfl, (Except.ok.inj h).symm⟩
      · cases h

theorem logLaws (p : CuckooParams) : (referenceTable p).LogLaws where
  insert_logged rng store key bytes rng' store' h := by
    obtain ⟨-, h⟩ := Prod.mk.inj h
    obtain ⟨s, slot, -, rfl⟩ := writeFound_ok h
    exact write_logged store s slot _ _ _
  update_logged store key bytes store' h := by
    obtain ⟨s, slot, -, rfl⟩ := writeFound_ok h
    exact write_logged store s slot _ _ _
  delete_logged store key store' h := by
    obtain ⟨s, slot, -, rfl⟩ := writeFound_ok h
    exact write_logged store s slot _ _ _

private theorem buckets_eq (key : AddressHash) :
    (referenceTable p).buckets key = (candidateBuckets p key).2 := by
  have length : (candidateBuckets p key).2.length = p.arity := by simp [candidateBuckets]
  change (candidateBuckets p key).2.take p.arity = _
  rw [List.take_of_length_le (by omega)]

private theorem candidate_isSlot {key : AddressHash} {s : Nat × Nat} (h : s ∈ candidates p key) :
    p.IsSlot s := by
  have hprobe : s ∈ (referenceTable p).probe key := h
  obtain ⟨hb, hslot⟩ := mem_probe.mp hprobe
  rw [buckets_eq] at hb
  obtain ⟨j, hj, heq⟩ := List.mem_map.mp hb
  have hj := List.mem_range.mp hj
  refine ⟨?_, hslot⟩
  have hmod := Nat.mod_lt (key.toNat / 2 ^ (16 + 8 * j)) p.segmentSize_pos
  calc s.1 < j * p.segmentSize + p.segmentSize := by omega
    _ = (j + 1) * p.segmentSize := by ring
    _ ≤ p.arity * p.segmentSize := Nat.mul_le_mul_right _ hj
    _ = p.numBuckets := p.arity_mul_segmentSize

/-- A first candidate that is vacant takes the entry of an `insert` that tries one slot. -/
theorem insert_first {store : (referenceTable p).Store} {key : AddressHash} {s : Nat × Nat}
    {rest : List (Nat × Nat)} (first : candidates p key = s :: rest) (slot : p.IsSlot s)
    (vacant : fingerprintAt p store.cells s = 0) (bytes : List UInt8) :
    (referenceTable p).insert (Draw.mk 0 1) store key bytes =
      (Draw.mk 0 1, .ok (write store s slot (candidateBuckets p key).1 ((packing p).valueCells bytes)
        (store.numItems + 1))) := by
  have found : (((candidates p key).rotate 0).take 1).find?
      (fun s => fingerprintAt p store.cells s = 0) = some s := by
    rw [List.rotate_zero, first, List.take_succ_cons, List.take_zero, List.find?_cons_of_pos]
    exact decide_eq_true vacant
  change (Draw.mk 0 1, writeFound store _ _ _ _ _) = _
  rw [found]
  exact congrArg (Prod.mk (Draw.mk 0 1)) (dif_pos slot)

private theorem writeFound_candidate {store : CuckooKVStore (packing p)} {s : Nat × Nat}
    {key : AddressHash} (h : s ∈ candidates p key) (fingerprint numItems : Nat)
    (vcells : List (BitVec 32)) (failure : CuckooError) :
    writeFound store (some s) fingerprint vcells numItems failure =
      .ok (write store s (candidate_isSlot h) fingerprint vcells numItems) := by
  rw [writeFound, dif_pos (candidate_isSlot h)]

/-- Inserting into an empty candidate moves nothing. -/
private theorem write_inserted (store : (referenceTable p).Store) (key : AddressHash)
    (bytes : List UInt8) (target : Nat × Nat) (slot : p.IsSlot target)
    (hprobe : target ∈ (referenceTable p).probe key)
    (hempty : ((referenceTable p).slotAt store.cells target).1 = 0) (numItems : Nat) :
    (referenceTable p).Inserted store.cells
      (write store target slot (candidateBuckets p key).1 ((packing p).valueCells bytes)
        numItems).cells key bytes target
      fun s => if ((referenceTable p).slotAt store.cells s).1 = 0 then none else some s := by
  have read : ∀ s, p.IsSlot s → slotCells p (write store target slot (candidateBuckets p key).1
      ((packing p).valueCells bytes) numItems).cells s = if s = target then
        (referenceTable p).slotContent ((referenceTable p).fp key) bytes
        else slotCells p store.cells s :=
    fun s hs => slotCells_writeSlot slot store.cells_length ((packing p).pack_length _ _) hs
  refine ⟨hprobe, ?_, ?_, ?_, ?_⟩
  · rw [read target slot, if_pos rfl]
  · intro s hs hne hsource
    rw [SegmentedCuckoo.slotAt, read s hs, if_neg hne]
    split at hsource
    · assumption
    · cases hsource
  · intro s s₀ hs hne hsource
    split at hsource
    · cases hsource
    · rename_i hocc
      cases hsource
      exact ⟨hs, hocc, by rw [read s hs, if_neg hne], fun _ _ h => h⟩
  · intro s₀ hs₀ hocc
    refine ⟨s₀, ⟨hs₀, ?_, if_neg hocc⟩, ?_⟩
    · rintro rfl
      exact hocc hempty
    · rintro s ⟨-, -, hsource⟩
      split at hsource
      · cases hsource
      · exact Option.some.inj hsource

theorem placementLaws (p : CuckooParams) : (referenceTable p).PlacementLaws where
  buckets_length key := by simp [buckets_eq, candidateBuckets]
  bucket_segment key j hj := by
    have hmod := Nat.mod_lt (key.toNat / 2 ^ (16 + 8 * j)) p.segmentSize_pos
    have read : (candidateBuckets p key).2.getD j 0 =
        j * p.segmentSize + key.toNat / 2 ^ (16 + 8 * j) % p.segmentSize := by
      simp [candidateBuckets, hj]
    rw [buckets_eq, read, Nat.mul_comm, Nat.mul_add_div p.segmentSize_pos, Nat.div_eq_of_lt hmod,
      Nat.add_zero]
  fp_range key := by
    have hpow : 2 ^ 1 ≤ 2 ^ p.fingerprintBits :=
      Nat.pow_le_pow_right (by omega) p.fieldBits_pos.1
    have hmod := Nat.mod_lt (key.toNat / 2 ^ 8) (show 0 < 2 ^ p.fingerprintBits - 1 by omega)
    change 0 < 1 + _ ∧ 1 + _ < _
    omega
  update_first store key bytes s h := by
    have hmem : s ∈ candidates p key := (firstMatch_mem h).1
    have hfind : findOwn p store.cells key = some s := h
    refine ⟨write store s (candidate_isSlot hmem) _ _ store.numItems, ?_, rfl⟩
    change writeFound store (findOwn p store.cells key) _ _ _ _ = _
    rw [hfind]
    exact writeFound_candidate hmem _ _ _ _
  delete_first store key s h := by
    have hmem : s ∈ candidates p key := (firstMatch_mem h).1
    have hfind : findOwn p store.cells key = some s := h
    refine ⟨write store s (candidate_isSlot hmem) 0 [] (store.numItems - 1), (packing p).packSlotCells 0 [], ?_,
      (packing p).pack_length _ _, rfl, ?_⟩
    · change writeFound store (findOwn p store.cells key) _ _ _ _ = _
      rw [hfind]
      exact writeFound_candidate hmem _ _ _ _
    · rw [pack_vacant]
      exact unpack_vacant
  insert_empty rng store key bytes rng' store' h := by
    obtain ⟨-, h⟩ := Prod.mk.inj h
    obtain ⟨s, slot, hfound, rfl⟩ := writeFound_ok h
    have hempty : ((referenceTable p).slotAt store.cells s).1 = 0 := by
      have := List.find?_some hfound
      exact of_decide_eq_true this
    have hmem : s ∈ (referenceTable p).probe key :=
      List.mem_rotate.mp (List.mem_of_mem_take (List.mem_of_find?_eq_some hfound))
    exact ⟨s, _, write_inserted store key bytes s slot hmem hempty _⟩

theorem lawful (p : CuckooParams) : (referenceTable p).Lawful :=
  { logLaws p, placementLaws p with }

end Laws

end RisePir.Upstream.ReferenceTable
