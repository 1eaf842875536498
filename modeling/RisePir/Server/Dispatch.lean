import RisePir.Server.Effect
import RisePir.Server.Small

set_option autoImplicit false
set_option relaxedAutoImplicit false

/-! Where a verified change lands: on the own slot, on nothing, or in a fresh slot that
leaves every other entry as it was but for its place. -/

namespace RisePir.Server.Dispatch

open RisePir.Proto.Types
open RisePir.Proto.Value
open RisePir.Upstream.Cuckoo
open RisePir.Upstream.Slots
open RisePir.Upstream.ReferenceTable
open RisePir.Server.Verified
open RisePir.Server.Core
open RisePir.Server.Effect
open RisePir.Server.Small

variable {p : CuckooParams} (C : SegmentedCuckoo p)

/-- The slot holds an entry. -/
def Occupied (cells : List (BitVec 32)) (s : Nat × Nat) : Prop :=
  p.IsSlot s ∧ (C.slotAt cells s).1 ≠ 0

/-- Away from `target` the occupied slots of `cells'` are those of `cells` in other places:
`move` carries each entry, cells unchanged, to a slot every key of the entry probes. -/
structure Relocated (cells cells' : List (BitVec 32)) (target : Nat × Nat)
    (move : Nat × Nat → Nat × Nat) : Prop where
  apart : ∀ s, Occupied C cells s → p.IsSlot (move s) ∧ move s ≠ target
  content : ∀ s, Occupied C cells s → slotCells p cells' (move s) = slotCells p cells s
  candidate : ∀ s, Occupied C cells s → ∀ other, C.fp other = (C.slotAt cells s).1 →
    s.1 ∈ C.buckets other → (move s).1 ∈ C.buckets other
  injective : ∀ s s', Occupied C cells s → Occupied C cells s' → move s = move s' → s = s'
  onto : ∀ s', s' ≠ target → Occupied C cells' s' → ∃ s, Occupied C cells s ∧ move s = s'

variable {C}

/-- What `insert` does to the slots is a relocation of the other entries. -/
theorem relocated_of_inserted {cells cells' : List (BitVec 32)} {key : AddressHash}
    {bytes : List UInt8} {target : Nat × Nat} {source : Nat × Nat → Option (Nat × Nat)}
    (inserted : C.Inserted cells cells' key bytes target source) :
    ∃ move, Relocated C cells cells' target move := by
  classical
  have place : ∀ s, ∃ s', Occupied C cells s →
      p.IsSlot s' ∧ s' ≠ target ∧ source s' = some s := by
    intro s
    by_cases occupied : Occupied C cells s
    · obtain ⟨s', found, -⟩ := inserted.kept s occupied.1 occupied.2
      exact ⟨s', fun _ => found⟩
    · exact ⟨s, fun h => absurd h occupied⟩
  choose move placed using place
  have moved := fun s (h : Occupied C cells s) =>
    inserted.moved (move s) s (placed s h).1 (placed s h).2.1 (placed s h).2.2
  refine ⟨move, ?_, ?_, ?_, ?_, ?_⟩
  · intro s h
    exact ⟨(placed s h).1, (placed s h).2.1⟩
  · intro s h
    exact (moved s h).2.2.1
  · intro s h
    exact (moved s h).2.2.2
  · intro s s' h h' same
    have from_s := (placed s h).2.2
    rw [same, (placed s' h').2.2] at from_s
    exact (Option.some.inj from_s).symm
  · intro s' apart occupied
    cases from_s : source s' with
    | none => exact absurd (inserted.vacant s' occupied.1 apart from_s) occupied.2
    | some s =>
        obtain ⟨slot, nonzero, -, -⟩ := inserted.moved s' s occupied.1 apart from_s
        have h : Occupied C cells s := ⟨slot, nonzero⟩
        obtain ⟨_, -, unique⟩ := inserted.kept s slot nonzero
        refine ⟨s, h, ?_⟩
        rw [unique (move s) (placed s h), unique s' ⟨occupied.1, apart, from_s⟩]

/-- An entry that another key reads is still there for that key, byte for byte. -/
theorem Relocated.ownSlots {codec : ValueCodec} {cells cells' : List (BitVec 32)}
    {target : Nat × Nat} {move : Nat × Nat → Nat × Nat} (h : Relocated C cells cells' target move)
    (laws : C.PlacementLaws) {other : AddressHash} {s : Nat × Nat}
    (own : s ∈ ownSlots C codec cells other) :
    move s ∈ Verified.ownSlots C codec cells' other ∧
      C.slotAt cells' (move s) = C.slotAt cells s := by
  obtain ⟨probed, tagged⟩ := mem_ownSlots.mp own
  obtain ⟨fingerprint, tag⟩ := tagMatch_iff.mp tagged
  have occupied : Occupied C cells s := by
    refine ⟨isSlot_of_mem_probe laws probed, ?_⟩
    rw [fingerprint]
    have positive := (laws.fp_range other).1
    omega
  have same : C.slotAt cells' (move s) = C.slotAt cells s := by
    rw [SegmentedCuckoo.slotAt, h.content s occupied]
    rfl
  have bucket := h.candidate s occupied other fingerprint.symm (mem_probe.mp probed).1
  refine ⟨mem_ownSlots.mpr ⟨mem_probe.mpr ⟨bucket, (h.apart s occupied).1.2⟩, ?_⟩, same⟩
  rw [tagMatch_iff, same]
  exact ⟨fingerprint, tag⟩

section Arms

variable {codec : ValueCodec} {t : Table C} {key : AddressHash} {balance : Balance}

/-- The own slot: the first fingerprint match and the only slot under fingerprint and tag. -/
def OwnSlot (C : SegmentedCuckoo p) (codec : ValueCodec) (cells : List (BitVec 32))
    (key : AddressHash) (s : Nat × Nat) : Prop :=
  C.firstMatch cells key = some s ∧ s ∈ C.probe key ∧ tagMatch C codec cells key s = true ∧
    ∀ s' ∈ C.probe key, tagMatch C codec cells key s' = true → s' = s

theorem locate_own_slot {cells : List (BitVec 32)} {b : Balance} (laws : C.PlacementLaws)
    (located : locate C codec cells key = .own b) :
    ∃ s, OwnSlot C codec cells key s ∧ codec.decode key (C.slotAt cells s).2 = .found b := by
  obtain ⟨s, own, first, decoded⟩ := locate_own laws located
  have hmem : s ∈ ownSlots C codec cells key := by simp [own]
  obtain ⟨probed, tagged⟩ := mem_ownSlots.mp hmem
  refine ⟨s, ⟨first, probed, tagged, ?_⟩, decoded⟩
  intro s' probed' tagged'
  have hmem' : s' ∈ ownSlots C codec cells key := mem_ownSlots.mpr ⟨probed', tagged'⟩
  rw [own] at hmem'
  exact List.mem_singleton.mp hmem'

theorem applyChange_delete {b : Balance} (laws : C.PlacementLaws) {s : Nat × Nat}
    (located : locate C codec t.store.cells key = .own b)
    (first : C.firstMatch t.store.cells key = some s) :
    ∃ t' content, applyChange codec t key 0 = (t', .ok .delete) ∧
      content.length = p.cellsPerSlot ∧ (C.unpackSlotCells content).1 = 0 ∧
      t'.store.cells = writeSlot p t.store.cells s content := by
  obtain ⟨store', content, deleted, length, cells, vacant⟩ := laws.delete_first t.store key s first
  refine ⟨{ t with store := store' }, content, ?_, length, vacant, cells⟩
  rw [applyChange]
  rw [if_pos rfl, located]
  dsimp only
  rw [deleted]

theorem applyChange_update {b : Balance} (laws : C.PlacementLaws) {s : Nat × Nat}
    {bytes : List UInt8} (located : locate C codec t.store.cells key = .own b)
    (first : C.firstMatch t.store.cells key = some s) (nonzero : balance ≠ 0)
    (encoded : codec.encode key balance = .ok bytes) :
    ∃ t', applyChange codec t key balance = (t', .ok .update) ∧
      t'.store.cells = writeSlot p t.store.cells s (C.slotContent (C.fp key) bytes) := by
  obtain ⟨store', updated, cells⟩ := laws.update_first t.store key bytes s first
  refine ⟨{ t with store := store' }, ?_, cells⟩
  rw [applyChange]
  rw [if_neg nonzero, encoded]
  dsimp only
  rw [located]
  dsimp only
  rw [updated]

/-- The verdicts that make a write ambiguous. -/
def Ambiguous : Located → Prop
  | .shadowed | .duplicateTag | .corrupt => True
  | .own _ | .absent _ => False

theorem applyChange_ambiguous
    (ambiguous : Ambiguous (locate C codec t.store.cells key)) :
    ∃ e, applyChange codec t key balance = (t, .error e) := by
  rw [applyChange]
  by_cases zero : balance = 0
  · rw [if_pos zero]
    cases located : locate C codec t.store.cells key with
    | own b =>
        rw [located] at ambiguous
        exact ambiguous.elim
    | absent n =>
        rw [located] at ambiguous
        exact ambiguous.elim
    | shadowed => exact ⟨_, rfl⟩
    | duplicateTag => exact ⟨_, rfl⟩
    | corrupt => exact ⟨_, rfl⟩
  · rw [if_neg zero]
    cases encoded : codec.encode key balance with
    | error e => exact ⟨_, rfl⟩
    | ok bytes =>
        cases located : locate C codec t.store.cells key with
        | own b =>
            rw [located] at ambiguous
            exact ambiguous.elim
        | absent n =>
            rw [located] at ambiguous
            exact ambiguous.elim
        | shadowed => exact ⟨_, rfl⟩
        | duplicateTag => exact ⟨_, rfl⟩
        | corrupt => exact ⟨_, rfl⟩

theorem applyChange_too_large (large : codec.fitsBalanceBits balance = false) :
    ∃ e, applyChange codec t key balance = (t, .error e) := by
  have nonzero : balance ≠ 0 := by
    rintro rfl
    have fits : codec.fitsBalanceBits 0 = true := by simp [ValueCodec.fitsBalanceBits]
    rw [fits] at large
    cases large
  have refused : ∃ e, codec.encode key balance = .error e := by
    rw [ValueCodec.encode]
    cases codec.checkWidths with
    | error e => exact ⟨e, rfl⟩
    | ok _ =>
        refine ⟨.balanceOverflow, ?_⟩
        dsimp only
        rw [if_neg (by simp [large])]
  obtain ⟨e, refused⟩ := refused
  rw [applyChange]
  rw [if_neg nonzero, refused]
  exact ⟨_, rfl⟩

end Arms

/-- The dispatch of one change. On `Own` the update or delete rewrites exactly the unique
own slot; on `Absent` a zero writes nothing and anything else goes to a fresh slot, the
other entries at most moved; every other verdict, and a balance past `balance_bits`, is an
error that writes no cell. -/
theorem change_hits_own_slot (laws : C.PlacementLaws) {codec : ValueCodec}
    (bits : codec.valueBits = p.valueBits) (t : Table C) (key : AddressHash) (balance : Balance) :
    (∀ b, locate C codec t.store.cells key = .own b →
      ∃ s, OwnSlot C codec t.store.cells key s ∧
        (balance = 0 → ∃ t' content, applyChange codec t key balance = (t', .ok .delete) ∧
          content.length = p.cellsPerSlot ∧ (C.unpackSlotCells content).1 = 0 ∧
          t'.store.cells = writeSlot p t.store.cells s content) ∧
        ∀ bytes, balance ≠ 0 → codec.encode key balance = .ok bytes →
          ∃ t', applyChange codec t key balance = (t', .ok .update) ∧
            t'.store.cells = writeSlot p t.store.cells s (C.slotContent (C.fp key) bytes)) ∧
    (∀ n, locate C codec t.store.cells key = .absent n →
      (balance = 0 → applyChange codec t key balance = (t, .ok .noopDelete)) ∧
      (balance ≠ 0 → ∀ t' kind, applyChange codec t key balance = (t', .ok kind) →
        ∃ bytes target move, codec.encode key balance = .ok bytes ∧ target ∈ C.probe key ∧
          C.slotAt t'.store.cells target = (C.fp key, bytes) ∧
          Relocated C t.store.cells t'.store.cells target move ∧
          ∀ other, ∀ s ∈ ownSlots C codec t.store.cells other,
            move s ∈ ownSlots C codec t'.store.cells other ∧
              C.slotAt t'.store.cells (move s) = C.slotAt t.store.cells s)) ∧
    (Ambiguous (locate C codec t.store.cells key) ∨
        codec.fitsBalanceBits balance = false →
      ∃ e, applyChange codec t key balance = (t, .error e)) ∧
    ∀ t' e, applyChange codec t key balance = (t', .error e) →
      t'.store.cells = t.store.cells := by
  refine ⟨?_, ?_, ?_, ?_⟩
  · intro b located
    obtain ⟨s, own, -⟩ := locate_own_slot laws located
    refine ⟨s, own, ?_, ?_⟩
    · rintro rfl
      exact applyChange_delete laws located own.1
    · intro bytes nonzero encoded
      exact applyChange_update laws located own.1 nonzero encoded
  · intro n located
    refine ⟨?_, ?_⟩
    · rintro rfl
      rw [applyChange]
      rw [if_pos rfl, located]
    · intro nonzero t' kind step
      have absent := locate_absent_iff laws located
      cases applyChange_effect laws bits step with
      | noop _ zero _ => exact absurd zero nonzero
      | delete s content own zero vacant rewritten => exact absurd zero nonzero
      | update s bytes own _ encoded rewritten =>
          rw [absent] at own
          cases own
      | insert target source bytes _ _ encoded inserted entry =>
          obtain ⟨move, relocated⟩ := relocated_of_inserted inserted
          refine ⟨bytes, target, move, encoded, inserted.target_probe, entry, relocated, ?_⟩
          intro other s own
          exact relocated.ownSlots laws own
  · rintro (ambiguous | large)
    · exact applyChange_ambiguous ambiguous
    · exact applyChange_too_large large
  · intro t' e step
    rw [applyChange_error step]

private def stored : AddressHash := smallKey 3 1 0 0

/-- A table that holds one key, with balance 5. -/
private def oneKey : Table (referenceTable smallParams) :=
  (applyChange smallCodec (Table.mk (draw 0) (emptyStore smallParams)) stored 5).1

/-- The key's own slot is rewritten for the new balance 9, and for a zero it is emptied; a key that
is not held is not removed. -/
theorem change_hits_own_slot_stored :
    (∃ s bytes t', OwnSlot (referenceTable smallParams) smallCodec oneKey.store.cells stored s ∧
      smallCodec.encode stored 9 = .ok bytes ∧
      applyChange smallCodec oneKey stored 9 = (t', .ok .update) ∧
      t'.store.cells = writeSlot smallParams oneKey.store.cells s
        ((referenceTable smallParams).slotContent ((referenceTable smallParams).fp stored) bytes)) ∧
    (∃ s t' content, OwnSlot (referenceTable smallParams) smallCodec oneKey.store.cells stored s ∧
      applyChange smallCodec oneKey stored 0 = (t', .ok .delete) ∧
      ((referenceTable smallParams).unpackSlotCells content).1 = 0 ∧
      t'.store.cells = writeSlot smallParams oneKey.store.cells s content) ∧
    applyChange smallCodec oneKey (smallKey 7 2 0 0) 0 = (oneKey, .ok .noopDelete) := by
  have located : locate (referenceTable smallParams) smallCodec oneKey.store.cells stored = .own 5 := by
    decide +kernel
  have missing : locate (referenceTable smallParams) smallCodec oneKey.store.cells
      (smallKey 7 2 0 0) = .absent 0 := by decide +kernel
  have dispatch := @change_hits_own_slot smallParams (referenceTable smallParams)
    (placementLaws smallParams) smallCodec rfl oneKey
  obtain ⟨own, -, -, -⟩ := dispatch stored 0
  obtain ⟨s, held, deleted, -⟩ := own 5 located
  obtain ⟨t', content, removes, -, vacant, cells⟩ := deleted rfl
  obtain ⟨own', -, -, -⟩ := dispatch stored 9
  obtain ⟨s', held', -, updated⟩ := own' 5 located
  have encoded : (smallCodec.encode stored 9).isOk = true := by decide +kernel
  obtain ⟨bytes, encodes⟩ : ∃ bytes, smallCodec.encode stored 9 = .ok bytes := by
    cases h : smallCodec.encode stored 9 with
    | error e =>
        rw [h] at encoded
        cases encoded
    | ok bytes => exact ⟨bytes, rfl⟩
  obtain ⟨t'', updates, cells'⟩ := updated bytes (by decide) encodes
  obtain ⟨-, absent, -, -⟩ := dispatch (smallKey 7 2 0 0) 0
  exact ⟨⟨s', bytes, t'', held', encodes, updates, cells'⟩,
    ⟨s, t', content, held, removes, vacant, cells⟩, (absent 0 missing).1 rfl⟩

end RisePir.Server.Dispatch
