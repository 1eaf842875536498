import RisePir.Upstream.Cuckoo

set_option autoImplicit false
set_option relaxedAutoImplicit false

/-! What a slot write does to the slots and to the single cells, and the candidate
slots of a key. -/

namespace RisePir.Upstream.Slots

open RisePir.Lib.Splice
open RisePir.Proto.Types
open RisePir.Upstream.Cuckoo

variable {p : CuckooParams} {C : SegmentedCuckoo p}

/-- Overwrite one slot of the flat cells. -/
def writeSlot (p : CuckooParams) (cells : List (BitVec 32)) (s : Nat × Nat)
    (content : List (BitVec 32)) : List (BitVec 32) := splice cells (p.slotStart s.1 s.2) content

theorem writeSlot_length {cells content : List (BitVec 32)} {s : Nat × Nat} (hs : p.IsSlot s)
    (hcells : cells.length = p.totalCells) (hcontent : content.length = p.cellsPerSlot) :
    (writeSlot p cells s content).length = p.totalCells := by
  have := p.slotStart_le hs
  rw [writeSlot, length_splice (by rw [hcontent, hcells]; exact this), hcells]

theorem slotCells_length {cells : List (BitVec 32)} {s : Nat × Nat} (hs : p.IsSlot s)
    (hcells : cells.length = p.totalCells) : (slotCells p cells s).length = p.cellsPerSlot :=
  length_slice (by rw [hcells]; exact p.slotStart_le hs)

theorem slotCells_writeSlot {cells content : List (BitVec 32)} {s : Nat × Nat} (hs : p.IsSlot s)
    (hcells : cells.length = p.totalCells) (hcontent : content.length = p.cellsPerSlot)
    {s' : Nat × Nat} (hs' : p.IsSlot s') :
    slotCells p (writeSlot p cells s content) s' =
      if s' = s then content else slotCells p cells s' := by
  have bound := p.slotStart_le hs
  have bound' := p.slotStart_le hs'
  by_cases h : s' = s
  · subst h
    rw [if_pos rfl]
    have same : slice (splice cells (p.slotStart s'.1 s'.2) content) (p.slotStart s'.1 s'.2)
        content.length = content := slice_splice_same (by rw [hcontent, hcells]; exact bound)
    rw [hcontent] at same
    exact same
  · rw [if_neg h]
    refine slice_splice_disjoint (by rw [hcontent, hcells]; exact bound)
      (by rw [hcells]; exact bound') ?_
    rw [hcontent]
    exact p.slotStart_disjoint hs hs' (fun heq => h heq.symm)

/-- Writing a slot's own cells back changes nothing. -/
theorem writeSlot_self {cells : List (BitVec 32)} {s : Nat × Nat} (hs : p.IsSlot s)
    (hcells : cells.length = p.totalCells) : writeSlot p cells s (slotCells p cells s) = cells :=
  splice_slice (by rw [hcells]; exact p.slotStart_le hs)

/-- Every cell lies in a slot. -/
theorem exists_slot {i : Nat} (hi : i < p.totalCells) :
    ∃ s c, p.IsSlot s ∧ c < p.cellsPerSlot ∧ p.slotStart s.1 s.2 + c = i := by
  have hcps := p.cellsPerSlot_pos
  have hbs := p.bucketSize_pos
  refine ⟨(i / p.cellsPerSlot / p.bucketSize, i / p.cellsPerSlot % p.bucketSize),
    i % p.cellsPerSlot, ⟨?_, Nat.mod_lt _ hbs⟩, Nat.mod_lt _ hcps, ?_⟩
  · have htotal : p.totalCells = p.numBuckets * p.bucketSize * p.cellsPerSlot := by
      rw [CuckooParams.totalCells, CuckooParams.rowWidth, Nat.mul_assoc]
    rw [Nat.div_lt_iff_lt_mul hbs, Nat.div_lt_iff_lt_mul hcps, ← htotal]
    exact hi
  · rw [CuckooParams.slotStart, Nat.div_add_mod', Nat.div_add_mod']

/-- Every cell of a table is below the plaintext modulus. -/
theorem cell_lt {K : SlotPacking p} (store : CuckooKVStore K) {i : Nat} (hi : i < p.totalCells) :
    (store.cells.getD i 0).toNat < 2 ^ p.plaintextBits := by
  obtain ⟨s, c, hs, hc, rfl⟩ := exists_slot hi
  obtain ⟨fingerprint, vcells, hpack⟩ := store.packed s hs
  have read := getD_slice store.cells (p.slotStart s.1 s.2) p.cellsPerSlot c 0
  have packed : slice store.cells (p.slotStart s.1 s.2) p.cellsPerSlot =
      K.packSlotCells fingerprint vcells := hpack
  have hlen : c < (K.packSlotCells fingerprint vcells).length := by
    rw [K.pack_length]
    exact hc
  rw [if_pos hc, packed, List.getD_eq_getElem _ _ hlen] at read
  rw [← read]
  exact K.pack_lt _ _ _ (List.getElem_mem hlen)

theorem replays_append {cells mid after : List (BitVec 32)} {muts muts' : List SlotMutation}
    (h : C.Replays cells muts mid) (h' : C.Replays mid muts' after) :
    C.Replays cells (muts ++ muts') after := by
  induction h with
  | nil cells => exact h'
  | cons slot old rest ih => exact .cons slot old (ih h')

theorem Logged.refl (store : C.Store) : C.Logged store store :=
  ⟨[], (List.append_nil _).symm, .nil _⟩

theorem Logged.trans {s₁ s₂ s₃ : C.Store} (h₁ : C.Logged s₁ s₂) (h₂ : C.Logged s₂ s₃) :
    C.Logged s₁ s₃ := by
  obtain ⟨m₁, l₁, r₁⟩ := h₁
  obtain ⟨m₂, l₂, r₂⟩ := h₂
  exact ⟨m₁ ++ m₂, by rw [l₂, l₁, List.append_assoc], replays_append r₁ r₂⟩

section Probe

theorem mem_probe {key : AddressHash} {s : Nat × Nat} :
    s ∈ C.probe key ↔ s.1 ∈ C.buckets key ∧ s.2 < p.bucketSize := by
  simp only [SegmentedCuckoo.probe, List.mem_flatMap, List.mem_map, List.mem_range]
  constructor
  · rintro ⟨b, hb, slot, hslot, rfl⟩
    exact ⟨hb, hslot⟩
  · rintro ⟨hb, hslot⟩
    exact ⟨s.1, hb, s.2, hslot, rfl⟩

theorem bucket_lt (laws : C.PlacementLaws) {key : AddressHash} {bucket : Nat}
    (h : bucket ∈ C.buckets key) : bucket < p.numBuckets := by
  obtain ⟨j, hj, rfl⟩ := List.getElem_of_mem h
  have hj' : j < p.arity := by rwa [laws.buckets_length] at hj
  have hseg := laws.bucket_segment key j hj'
  rw [List.getD_eq_getElem _ _ hj] at hseg
  have hlt : (C.buckets key)[j] / p.segmentSize < p.arity := by omega
  rwa [Nat.div_lt_iff_lt_mul p.segmentSize_pos, p.arity_mul_segmentSize] at hlt

theorem isSlot_of_mem_probe (laws : C.PlacementLaws) {key : AddressHash} {s : Nat × Nat}
    (h : s ∈ C.probe key) : p.IsSlot s := by
  obtain ⟨hb, hs⟩ := mem_probe.mp h
  exact ⟨bucket_lt laws hb, hs⟩

/-- Candidate buckets lie in different segments, so no slot is probed twice. -/
theorem buckets_nodup (laws : C.PlacementLaws) (key : AddressHash) : (C.buckets key).Nodup := by
  rw [List.nodup_iff_injective_get]
  intro i j hij
  have hi : i.val < p.arity := lt_of_lt_of_eq i.isLt (laws.buckets_length key)
  have hj : j.val < p.arity := lt_of_lt_of_eq j.isLt (laws.buckets_length key)
  have hsegi := laws.bucket_segment key i.val hi
  have hsegj := laws.bucket_segment key j.val hj
  rw [List.getD_eq_getElem _ _ i.isLt] at hsegi
  rw [List.getD_eq_getElem _ _ j.isLt] at hsegj
  simp only [List.get_eq_getElem] at hij
  rw [hij] at hsegi
  exact Fin.ext (hsegi.symm.trans hsegj)

theorem probe_nodup (laws : C.PlacementLaws) (key : AddressHash) : (C.probe key).Nodup := by
  have hb := buckets_nodup laws key
  rw [SegmentedCuckoo.probe, List.nodup_flatMap]
  refine ⟨fun b _ => List.nodup_range.map fun x y h => (Prod.mk.inj h).2, ?_⟩
  refine hb.imp fun {a b} hab s hs hs' => ?_
  obtain ⟨_, _, rfl⟩ := List.mem_map.mp hs
  obtain ⟨_, _, heq⟩ := List.mem_map.mp hs'
  exact hab (Prod.mk.inj heq).1.symm

theorem firstMatch_mem {cells : List (BitVec 32)} {key : AddressHash} {s : Nat × Nat}
    (h : C.firstMatch cells key = some s) : s ∈ C.probe key ∧ (C.slotAt cells s).1 = C.fp key := by
  have hfound := List.find?_some h
  exact ⟨List.mem_of_find?_eq_some h, by simpa using hfound⟩

end Probe

end RisePir.Upstream.Slots
