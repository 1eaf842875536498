import RisePir.Server.Core

set_option autoImplicit false
set_option relaxedAutoImplicit false

/-! What one change and one credit can do to the slots, and how far a block gets before an
entry is refused. -/

namespace RisePir.Server.Effect

open RisePir.Lib.Splice
open RisePir.Proto.Types
open RisePir.Proto.Value
open RisePir.Proto.Value.ValueCodec
open RisePir.Upstream.Cuckoo
open RisePir.Upstream.Pir
open RisePir.Upstream.Slots
open RisePir.Server.Verified
open RisePir.Server.Core

variable {p : CuckooParams} {C : SegmentedCuckoo p} {B : PirBackend} {codec : ValueCodec}

section Slots

variable {cells cells' : List (BitVec 32)}

/-- Reading a slot after one slot's contents changed. -/
theorem slotAt_splice {content : List (BitVec 32)} {s t : Nat × Nat} (hs : p.IsSlot s)
    (hcells : cells.length = p.totalCells) (hcontent : content.length = p.cellsPerSlot)
    (ht : p.IsSlot t) : C.slotAt (splice cells (p.slotStart s.1 s.2) content) t =
      if t = s then C.unpackSlotCells content else C.slotAt cells t := by
  have read := slotCells_writeSlot hs hcells hcontent ht
  rw [SegmentedCuckoo.slotAt, ← writeSlot, read]
  split <;> rfl

/-- The bytes of an encoded balance are read back from the slot they were packed into. -/
theorem unpack_slotContent (laws : C.PlacementLaws) (bits : codec.valueBits = p.valueBits)
    {addr : AddressHash} {balance : Balance} {bytes : List UInt8}
    (henc : codec.encode addr balance = .ok bytes) :
    C.unpackSlotCells (C.slotContent (C.fp addr) bytes) = (C.fp addr, bytes) := by
  refine C.unpack_pack _ _ (laws.fp_range addr).2 ?_ ?_
  · rw [length_encode henc, ValueCodec.numBytes, bits, CuckooParams.valueSizeInBytes]
  · rw [← bits]
    exact leNat_encode_lt henc

/-- `cells'` is `cells` but for the contents of slot `s`. -/
structure Rewritten (C : SegmentedCuckoo p) (cells cells' : List (BitVec 32))
    (s : Nat × Nat) (content : Nat × List UInt8) : Prop where
  self : C.slotAt cells' s = content
  other : ∀ t, p.IsSlot t → t ≠ s → C.slotAt cells' t = C.slotAt cells t

theorem rewritten_splice (hcells : cells.length = p.totalCells) {s : Nat × Nat}
    (hs : p.IsSlot s) {content : List (BitVec 32)} (hcontent : content.length = p.cellsPerSlot) :
    Rewritten C cells (splice cells (p.slotStart s.1 s.2) content) s (C.unpackSlotCells content) where
  self := (slotAt_splice hs hcells hcontent hs).trans (if_pos rfl)
  other _ ht hne := (slotAt_splice hs hcells hcontent ht).trans (if_neg hne)

/-- What a successful change of `addr` to `balance` does to the slots. -/
inductive ChangeEffect (C : SegmentedCuckoo p) (codec : ValueCodec) (cells cells' : List (BitVec 32))
    (addr : AddressHash) (balance : Balance) : Prop
  | noop (absent : ownSlots C codec cells addr = []) (zero : balance = 0) (same : cells' = cells)
  | delete (s : Nat × Nat) (content : Nat × List UInt8) (own : ownSlots C codec cells addr = [s])
      (zero : balance = 0) (vacant : content.1 = 0) (rewritten : Rewritten C cells cells' s content)
  | update (s : Nat × Nat) (bytes : List UInt8) (own : ownSlots C codec cells addr = [s])
      (nonzero : balance ≠ 0) (encoded : codec.encode addr balance = .ok bytes)
      (rewritten : Rewritten C cells cells' s (C.fp addr, bytes))
  | insert (target : Nat × Nat) (source : Nat × Nat → Option (Nat × Nat)) (bytes : List UInt8)
      (absent : ownSlots C codec cells addr = []) (nonzero : balance ≠ 0)
      (encoded : codec.encode addr balance = .ok bytes)
      (inserted : C.Inserted cells cells' addr bytes target source)
      (entry : C.slotAt cells' target = (C.fp addr, bytes))

end Slots

section Steps

variable {t t' : Table C} {addr : AddressHash} {balance : Balance}

private theorem own_isSlot (laws : C.PlacementLaws) {cells : List (BitVec 32)} {s : Nat × Nat}
    (h : ownSlots C codec cells addr = [s]) : p.IsSlot s := by
  have hmem : s ∈ ownSlots C codec cells addr := by simp [h]
  exact isSlot_of_mem_probe laws (mem_ownSlots.mp hmem).1

/-- A change that succeeds is a no-op, a delete, an update or an insert of its own entry. -/
theorem applyChange_effect (laws : C.PlacementLaws) (bits : codec.valueBits = p.valueBits)
    {kind : ChangeKind} (step : applyChange codec t addr balance = (t', .ok kind)) :
    ChangeEffect C codec t.store.cells t'.store.cells addr balance := by
  unfold applyChange at step
  dsimp only at step
  split at step
  · rename_i hzero
    split at step
    · rename_i b hloc
      obtain ⟨s, hown, hfirst, -⟩ := locate_own laws hloc
      obtain ⟨store', content, hdel, hlen, hcells, hvacant⟩ := laws.delete_first _ _ _ hfirst
      rw [hdel] at step
      simp only [Prod.mk.injEq] at step
      rw [← step.1]
      dsimp only
      rw [hcells]
      exact .delete s _ hown hzero hvacant
        (rewritten_splice t.store.cells_length (own_isSlot laws hown) hlen)
    · rename_i n hloc
      simp only [Prod.mk.injEq] at step
      rw [← step.1]
      exact .noop (locate_absent_iff laws hloc) hzero rfl
    all_goals cases step
  · rename_i hne
    split at step
    · cases step
    · rename_i bytes henc
      split at step
      · rename_i b hloc
        obtain ⟨s, hown, hfirst, -⟩ := locate_own laws hloc
        obtain ⟨store', hupd, hcells⟩ := laws.update_first _ _ bytes _ hfirst
        rw [hupd] at step
        simp only [Prod.mk.injEq] at step
        rw [← step.1]
        dsimp only
        rw [hcells]
        have rewritten := rewritten_splice (C := C) t.store.cells_length (own_isSlot laws hown)
          (C.pack_length (C.fp addr) (C.valueCells bytes))
        exact .update s bytes hown hne henc
          ⟨rewritten.self.trans (unpack_slotContent laws bits henc), rewritten.other⟩
      · rename_i n hloc
        unfold insertEntry at step
        split at step
        · rename_i rng store' hins
          obtain ⟨target, source, inserted⟩ := laws.insert_empty _ _ _ _ _ _ hins
          simp only [Prod.mk.injEq] at step
          rw [← step.1]
          refine .insert target source bytes (locate_absent_iff laws hloc) hne henc inserted ?_
          rw [SegmentedCuckoo.slotAt, inserted.target_content]
          exact unpack_slotContent laws bits henc
        all_goals cases step
      all_goals cases step

/-- A change that fails leaves the store as it was. -/
theorem applyChange_error {e : ServerError}
    (step : applyChange codec t addr balance = (t', .error e)) : t'.store = t.store := by
  unfold applyChange insertEntry at step
  dsimp only at step
  split at step <;> split at step <;> try (split at step)
  all_goals try (split at step)
  all_goals first
    | (cases step; rfl)
    | cases step

/-- A credit that succeeds is a change to the sum with the balance read. -/
theorem applyCredit_ok {amount : Balance} {kind : ChangeKind}
    (step : applyCredit codec t addr amount = (t', .ok kind)) :
    ∃ prior, Verified.get C codec t.store.cells addr = .ok prior ∧
      prior.getD 0 + amount < 2 ^ 128 ∧
      applyChange codec t addr (prior.getD 0 + amount) = (t', .ok kind) := by
  unfold applyCredit at step
  split at step
  · cases step
  · cases step
  · rename_i prior hget
    dsimp only at step
    split at step
    · exact ⟨prior, hget, ‹_›, step⟩
    · cases step

theorem applyCredit_error {amount : Balance} {e : ServerError}
    (step : applyCredit codec t addr amount = (t', .error e)) : t'.store = t.store := by
  unfold applyCredit at step
  split at step
  · cases step
    rfl
  · cases step
    rfl
  · dsimp only at step
    split at step
    · exact applyChange_error step
    · cases step
      rfl

end Steps

section Progress

/-- The entries that one loop wrote before the first refused one. -/
def writtenBefore
    (step : Table C → AddressHash → Balance → Table C × Except ServerError ChangeKind) :
    Table C → List (AddressHash × Balance) → List (AddressHash × Balance)
  | _, [] => []
  | t, (addr, balance) :: rest =>
      match step t addr balance with
      | (_, .error _) => []
      | (t', .ok _) => (addr, balance) :: writtenBefore step t' rest

/-- The changes a block writes before an entry is refused. -/
def writtenChanges (codec : ValueCodec) (t : Table C) (update : BlockUpdate) :
    List (AddressHash × Balance) := writtenBefore (applyChange codec) t update.changes

/-- The credits a block writes before an entry is refused; none when a change is. -/
def writtenCredits (codec : ValueCodec) (t : Table C) (update : BlockUpdate) :
    List (AddressHash × Balance) :=
  match applyEach (applyChange codec) t update.changes with
  | (_, .error _) => []
  | (t', .ok _) => writtenBefore (applyCredit codec) t' update.credits

variable {step : Table C → AddressHash → Balance → Table C × Except ServerError ChangeKind}

theorem writtenBefore_of_ok {t t' : Table C} {entries : List (AddressHash × Balance)}
    {kinds : List ChangeKind} (h : applyEach step t entries = (t', .ok kinds)) :
    writtenBefore step t entries = entries := by
  induction entries generalizing t t' kinds with
  | nil => rfl
  | cons entry rest ih =>
      obtain ⟨addr, balance⟩ := entry
      rw [applyEach] at h
      rw [writtenBefore]
      cases hstep : step t addr balance with
      | mk t₁ r =>
          rw [hstep] at h
          cases r with
          | error e => cases h
          | ok kind =>
              dsimp only at h ⊢
              cases hrest : applyEach step t₁ rest with
              | mk t₂ r' =>
                  rw [hrest] at h
                  cases r' with
                  | error e => cases h
                  | ok kinds' => rw [ih hrest]

theorem writtenBefore_prefix (t : Table C) (entries : List (AddressHash × Balance)) :
    writtenBefore step t entries <+: entries := by
  induction entries generalizing t with
  | nil => exact List.nil_prefix
  | cons entry rest ih =>
      obtain ⟨addr, balance⟩ := entry
      rw [writtenBefore]
      split
      · exact List.nil_prefix
      · exact List.cons_prefix_cons.mpr ⟨rfl, ih _⟩

/-- An invariant of the store, indexed by what has been written, that every successful step
carries on and every failing step keeps, holds at the end of the loop. -/
theorem applyEach_invariant {σ : Type} {f : σ → AddressHash × Balance → σ}
    {P : C.Store → σ → Prop} {entries : List (AddressHash × Balance)}
    (ok : ∀ entry ∈ entries, ∀ t t' st kind, P t.store st →
      step t entry.1 entry.2 = (t', .ok kind) → P t'.store (f st entry))
    (error : ∀ t t' addr balance e, step t addr balance = (t', .error e) → t'.store = t.store)
    (t : Table C) (st : σ) (start : P t.store st) :
    P (applyEach step t entries).1.store ((writtenBefore step t entries).foldl f st) := by
  induction entries generalizing t st with
  | nil => exact start
  | cons entry rest ih =>
      obtain ⟨addr, balance⟩ := entry
      rw [applyEach, writtenBefore]
      cases hstep : step t addr balance with
      | mk t' r =>
          cases r with
          | error e =>
              dsimp only
              rw [List.foldl_nil, error t t' addr balance e hstep]
              exact start
          | ok kind =>
              dsimp only
              rw [List.foldl_cons]
              have tail := ih (fun entry h => ok entry (List.mem_cons_of_mem _ h)) t' _
                (ok (addr, balance) (by simp) t t' st kind start hstep)
              cases hrest : applyEach step t' rest with
              | mk t'' r' =>
                  rw [hrest] at tail
                  cases r' <;> exact tail

/-- The same for a whole block: its changes, then its credits. -/
theorem applyEntries_invariant {σ : Type} {f g : σ → AddressHash × Balance → σ}
    {P : C.Store → σ → Prop} {update : BlockUpdate}
    (change : ∀ entry ∈ update.changes, ∀ t t' st kind, P t.store st →
      applyChange codec t entry.1 entry.2 = (t', .ok kind) → P t'.store (f st entry))
    (credit : ∀ entry ∈ update.credits, ∀ t t' st kind, P t.store st →
      applyCredit codec t entry.1 entry.2 = (t', .ok kind) → P t'.store (g st entry))
    (t : Table C) (st : σ) (start : P t.store st) :
    P (applyEntries codec t update).1.store ((writtenCredits codec t update).foldl g
      ((writtenChanges codec t update).foldl f st)) := by
  have changed := applyEach_invariant change (fun _ _ _ _ _ => applyChange_error) t st start
  unfold applyEntries writtenCredits
  cases hc : applyEach (applyChange codec) t update.changes with
  | mk t₁ r =>
      rw [hc] at changed
      cases r with
      | error e => exact changed
      | ok kinds =>
          have credited := applyEach_invariant credit (fun _ _ _ _ _ => applyCredit_error) t₁ _ changed
          dsimp only
          cases hd : applyEach (applyCredit codec) t₁ update.credits with
          | mk t₂ r' =>
              rw [hd] at credited
              cases r' <;> exact credited

/-- A block that succeeds wrote all of its entries. -/
theorem written_of_ok {t t' : Table C} {update : BlockUpdate} {kinds : List ChangeKind}
    (h : applyEntries codec t update = (t', .ok kinds)) :
    writtenChanges codec t update = update.changes ∧
      writtenCredits codec t update = update.credits := by
  unfold applyEntries at h
  unfold writtenChanges writtenCredits
  cases hc : applyEach (applyChange codec) t update.changes with
  | mk t₁ r =>
      rw [hc] at h
      cases r with
      | error e => cases h
      | ok kinds₁ =>
          dsimp only at h ⊢
          refine ⟨writtenBefore_of_ok hc, ?_⟩
          cases hd : applyEach (applyCredit codec) t₁ update.credits with
          | mk t₂ r' =>
              rw [hd] at h
              cases r' with
              | error e => cases h
              | ok kinds₂ => exact writtenBefore_of_ok hd

end Progress

end RisePir.Server.Effect
