import Mathlib.Data.Set.Insert
import RisePir.Server.Refinement
import RisePir.Server.Small

set_option autoImplicit false
set_option relaxedAutoImplicit false

/-! The store over whole blocks: its balances are the map under the block's changes, then
its credits. -/

namespace RisePir.Server.Ledger

open RisePir.Lib.KeyedAmounts
open RisePir.Lib.Sparse
open RisePir.Proto.Types
open RisePir.Proto.Value
open RisePir.Upstream.Cuckoo
open RisePir.Upstream.Pir
open RisePir.Upstream.ReferenceTable
open RisePir.Server.Core
open RisePir.Server.Effect
open RisePir.Server.Refinement
open RisePir.Server.Small

variable {p : CuckooParams} {C : SegmentedCuckoo p} {B : PirBackend} {codec : ValueCodec}

/-- The reference map after a block: its changes in order, then its credits in order. -/
def ledgerBlock (m : Balances) (update : BlockUpdate) : Balances :=
  credits (writes m update.changes) update.credits

/-- The live keys and the keys a block names. -/
def InPlay (m : Balances) (update : BlockUpdate) : Set AddressHash :=
  {k | m k ≠ none ∨ k ∈ named update.changes ∨ k ∈ named update.credits}

/-- A block makes no key live that it does not name. -/
theorem ledgerBlock_live {m : Balances} {update : BlockUpdate} {k : AddressHash}
    (h : ledgerBlock m update k ≠ none) : k ∈ InPlay m update := by
  by_cases hcredit : k ∈ named update.credits
  · exact .inr (.inr hcredit)
  · by_cases hchange : k ∈ named update.changes
    · exact .inr (.inl hchange)
    · rw [ledgerBlock, credits_of_notMem hcredit, writes_of_notMem hchange] at h
      exact .inl h

/-- What a block makes of one key's amount. -/
theorem amount_ledgerBlock (m : Balances) (update : BlockUpdate) (k : AddressHash) :
    amount (ledgerBlock m update) k =
      (lastWrite update.changes k).getD (amount m k) + total update.credits k := by
  rw [ledgerBlock, amount_credits, amount_writes]

/-- No two keys of the set compete for a slot. -/
def Separated (C : SegmentedCuckoo p) (codec : ValueCodec) (keys : Set AddressHash) : Prop :=
  ∀ k ∈ keys, ∀ k' ∈ keys, k ≠ k' → ¬ Conflict C codec k k'

theorem Separated.mono {keys keys' : Set AddressHash} (h : Separated C codec keys')
    (sub : keys ⊆ keys') : Separated C codec keys :=
  fun k hk k' hk' => h k (sub hk) k' (sub hk')

/-- Keys among a list are checked pair by pair. -/
theorem separated_of_list {keys : Set AddressHash} {l : List AddressHash}
    (sub : ∀ k ∈ keys, k ∈ l) (h : l.Pairwise fun k k' => ¬ Conflict C codec k k') :
    Separated C codec keys := by
  have symm : Std.Symm fun k k' => ¬ Conflict C codec k k' := ⟨fun _ _ h h' => h h'.symm⟩
  exact fun k hk k' hk' hne => h.forall (sub k hk) (sub k' hk') hne

theorem Separated.clear {keys : Set AddressHash} (h : Separated C codec keys) {m : Balances}
    (live : ∀ k, m k ≠ none → k ∈ keys) {k : AddressHash} (hk : k ∈ keys) : Clear C codec m k :=
  fun k' hk' hne => h k' (live k' hk') k hk hne

/-- The cells stand for a map whose live keys are among `keys`. -/
def RepresentsWithin (C : SegmentedCuckoo p) (codec : ValueCodec) (keys : Set AddressHash)
    (store : C.Store) (m : Balances) : Prop :=
  Represents C codec store.cells m ∧ ∀ k, m k ≠ none → k ∈ keys

section Blocks

variable {keys : Set AddressHash} {t t' : Table C} {m : Balances} {update : BlockUpdate}

private theorem live_write {entry : AddressHash × Balance}
    (live : ∀ k, m k ≠ none → k ∈ keys) (hk : entry.1 ∈ keys) :
    ∀ k, write m entry k ≠ none → k ∈ keys := by
  intro k hlive
  rw [write_apply] at hlive
  split at hlive
  · rename_i heq
    rw [heq]
    exact hk
  · exact live k hlive

private theorem change_within (laws : C.PlacementLaws) (bits : codec.valueBits = p.valueBits)
    (separated : Separated C codec keys) {e : AddressHash × Balance} (hk : e.1 ∈ keys)
    {kind : ChangeKind} (h : RepresentsWithin C codec keys t.store m)
    (step : applyChange codec t e.1 e.2 = (t', .ok kind)) :
    RepresentsWithin C codec keys t'.store (write m e) :=
  ⟨h.1.change laws (separated.clear h.2 hk) (applyChange_effect laws bits step),
    live_write h.2 hk⟩

private theorem credit_within (laws : C.PlacementLaws) (bits : codec.valueBits = p.valueBits)
    (separated : Separated C codec keys) {e : AddressHash × Balance} (hk : e.1 ∈ keys)
    {kind : ChangeKind} (h : RepresentsWithin C codec keys t.store m)
    (step : applyCredit codec t e.1 e.2 = (t', .ok kind)) :
    RepresentsWithin C codec keys t'.store (credit m e) := by
  obtain ⟨prior, hget, -, hchange⟩ := applyCredit_ok step
  have read := h.1.get_eq laws (separated.clear h.2 hk)
  rw [hget] at read
  cases Except.ok.inj read
  exact change_within (e := (e.1, amount m e.1 + e.2)) laws bits separated hk h
    hchange

/-- However far a block gets, the store stands for the map under what was written. -/
theorem applyEntries_represents (laws : C.PlacementLaws) (bits : codec.valueBits = p.valueBits)
    (h : Represents C codec t.store.cells m) (separated : Separated C codec (InPlay m update)) :
    Represents C codec (applyEntries codec t update).1.store.cells
      (credits (writes m (writtenChanges codec t update)) (writtenCredits codec t update)) := by
  have start : RepresentsWithin C codec (InPlay m update) t.store m := ⟨h, fun _ hk => .inl hk⟩
  exact (applyEntries_invariant (P := RepresentsWithin C codec (InPlay m update))
    (fun entry he _ _ _ _ hst step => change_within laws bits separated
      (.inr (.inl (List.mem_map_of_mem he))) hst step)
    (fun entry he _ _ _ _ hst step => credit_within laws bits separated
      (.inr (.inr (List.mem_map_of_mem he))) hst step) t m start).1

variable {rng : C.Rng} {s s' : RisePirServer C B}

/-- A successful block's balances are the reference map's. -/
theorem apply_represents (laws : C.PlacementLaws)
    (h : Represents C s.valueCodec s.store.cells m)
    (separated : Separated C s.valueCodec (InPlay m update)) {out : BlockDelta × BlockApplyReport}
    (step : s.applyBlockReporting rng update = (s', .ok out)) :
    s'.valueCodec = s.valueCodec ∧
      Represents C s.valueCodec s'.store.cells (ledgerBlock m update) := by
  unfold RisePirServer.applyBlockReporting at step
  split at step
  · cases step
  · have partially := applyEntries_represents (t := ⟨rng, s.store⟩) laws s.value_bits h separated
    cases he : applyEntries s.valueCodec ⟨rng, s.store⟩ update with
    | mk t r =>
        rw [he] at step partially
        cases r with
        | error e => cases step
        | ok kinds =>
            obtain ⟨hchanges, hcredits⟩ := written_of_ok he
            rw [hchanges, hcredits] at partially
            obtain ⟨hs, -⟩ := Prod.mk.inj step
            rw [← hs]
            exact ⟨rfl, partially⟩

/-- A block that fails midway leaves the map under what it had written. -/
theorem apply_error_represents (laws : C.PlacementLaws)
    (h : Represents C s.valueCodec s.store.cells m)
    (separated : Separated C s.valueCodec (InPlay m update)) {e : ServerError}
    (ascends : s.block < update.block)
    (step : s.applyBlockReporting rng update = (s', .error e)) :
    s'.valueCodec = s.valueCodec ∧ s'.block = s.block ∧
      Represents C s.valueCodec s'.store.cells
        (credits (writes m (writtenChanges s.valueCodec ⟨rng, s.store⟩ update))
          (writtenCredits s.valueCodec ⟨rng, s.store⟩ update)) := by
  unfold RisePirServer.applyBlockReporting at step
  rw [if_neg (by omega)] at step
  have partially := applyEntries_represents (t := ⟨rng, s.store⟩) laws s.value_bits h separated
  cases he : applyEntries s.valueCodec ⟨rng, s.store⟩ update with
  | mk t r =>
      rw [he] at step partially
      cases r with
      | ok kinds => cases step
      | error e' =>
          obtain ⟨hs, -⟩ := Prod.mk.inj step
          rw [← hs]
          exact ⟨rfl, rfl, partially⟩

/-- A clear key's verified balance is the map's. -/
theorem balanceOf_eq (laws : C.PlacementLaws) (h : Represents C s.valueCodec s.store.cells m)
    {k : AddressHash} (clear : Clear C s.valueCodec m k) : s.balanceOf k = .ok (m k) := by
  rw [RisePirServer.balanceOf, h.get_eq laws clear]

end Blocks

/-- Successful blocks from a store that stands for `m₀`, none of which brings two competing
keys into play. -/
inductive LedgerRun (C : SegmentedCuckoo p) (B : PirBackend) :
    RisePirServer C B → Balances → RisePirServer C B → Balances → Prop
  | refl (s : RisePirServer C B) (m : Balances) : LedgerRun C B s m s m
  | step {rng : C.Rng} {s₀ s s' : RisePirServer C B} {m₀ m : Balances} {update : BlockUpdate}
      {out : BlockDelta × BlockApplyReport} (run : LedgerRun C B s₀ m₀ s m)
      (separated : Separated C s.valueCodec (InPlay m update))
      (applied : s.applyBlockReporting rng update = (s', .ok out)) :
      LedgerRun C B s₀ m₀ s' (ledgerBlock m update)

theorem LedgerRun.represents (laws : C.PlacementLaws) {s₀ s : RisePirServer C B}
    {m₀ m : Balances} (run : LedgerRun C B s₀ m₀ s m)
    (start : Represents C s₀.valueCodec s₀.store.cells m₀) :
    Represents C s.valueCodec s.store.cells m := by
  induction run with
  | refl s m => exact start
  | step run separated applied ih =>
      obtain ⟨hcodec, represents⟩ := apply_represents laws (ih start) separated applied
      rw [hcodec]
      exact represents

/-- The store refines the map: after any run of successful blocks, a further successful one
changes the verified balances exactly as the reference map, and a key it does not name
reads what it read before. -/
theorem store_refines_ledger (laws : C.PlacementLaws) {s₀ s s' : RisePirServer C B}
    {m₀ m : Balances} (start : Represents C s₀.valueCodec s₀.store.cells m₀)
    (run : LedgerRun C B s₀ m₀ s m) {rng : C.Rng} {update : BlockUpdate}
    {out : BlockDelta × BlockApplyReport}
    (applied : s.applyBlockReporting rng update = (s', .ok out)) (k : AddressHash)
    (separated : Separated C s.valueCodec (insert k (InPlay m update))) :
    s.balanceOf k = .ok (m k) ∧ s'.balanceOf k = .ok (ledgerBlock m update k) ∧
      (k ∉ named update.changes → k ∉ named update.credits → s'.balanceOf k = s.balanceOf k) := by
  have before := run.represents laws start
  obtain ⟨hcodec, after⟩ := apply_represents laws before
    (separated.mono (Set.subset_insert k _)) applied
  have hk : k ∈ insert k (InPlay m update) := Set.mem_insert k _
  have live : ∀ k', m k' ≠ none → k' ∈ insert k (InPlay m update) :=
    fun k' hk' => Set.mem_insert_of_mem k (.inl hk')
  have live' : ∀ k', ledgerBlock m update k' ≠ none → k' ∈ insert k (InPlay m update) :=
    fun k' hk' => Set.mem_insert_of_mem k (ledgerBlock_live hk')
  have first := balanceOf_eq laws before (separated.clear live hk)
  have second : s'.balanceOf k = .ok (ledgerBlock m update k) :=
    balanceOf_eq laws (hcodec ▸ after) (hcodec ▸ separated.clear live' hk)
  refine ⟨first, second, fun hchange hcredit => ?_⟩
  rw [second, first, ledgerBlock, credits_of_notMem hcredit, writes_of_notMem hchange]

private theorem emptyStore_unoccupied (s : Nat × Nat) :
    ¬ Occupied (referenceTable smallParams) (emptyStore smallParams).cells s := by
  intro h
  exact h.2 (emptyStore_vacant h.1)

/-- The small server at genesis stands for the empty map. -/
theorem smallServer_represents (genesisBlock : Nat) :
    Represents (referenceTable smallParams) (smallServer genesisBlock).valueCodec
      (smallServer genesisBlock).store.cells fun _ => none := by
  rw [smallServer_cells]
  exact represents_empty emptyStore_unoccupied

private def firstEntry : BlockUpdate := ⟨1, [(smallKey 3 1 0 0, 5)], []⟩

private def changeAndCredit : BlockUpdate :=
  ⟨2, [(smallKey 4 2 0 1, 7)], [(smallKey 3 1 0 0, 2), (smallKey 4 2 0 1, 1)]⟩

private theorem firstEntry_inPlay {k : AddressHash} (h : k ∈ InPlay (fun _ => none) firstEntry) :
    k ∈ [smallKey 3 1 0 0, smallKey 4 2 0 1] := by
  rcases h with h | h | h
  · exact absurd rfl h
  · exact List.mem_of_mem_take (i := 1) h
  · cases h

private theorem changeAndCredit_inPlay {k : AddressHash}
    (h : k ∈ InPlay (ledgerBlock (fun _ => none) firstEntry) changeAndCredit) :
    k ∈ [smallKey 3 1 0 0, smallKey 4 2 0 1] := by
  rcases h with h | h | h
  · exact firstEntry_inPlay (ledgerBlock_live h)
  · exact List.mem_cons_of_mem _ h
  · exact h

private theorem smallKeys_separated {keys : Set AddressHash}
    (h : ∀ k ∈ keys, k ∈ [smallKey 3 1 0 0, smallKey 4 2 0 1]) :
    Separated (referenceTable smallParams) smallCodec keys :=
  separated_of_list h (by decide)

/-- One key is inserted, then credited beside another key's insert and credit. -/
theorem store_refines_ledger_changeAndCredit :
    (((smallServer 0).after (draw 0) firstEntry).after (draw 0) changeAndCredit).balanceOf
      (smallKey 3 1 0 0) = .ok (some 7) := by
  obtain ⟨_, _, first⟩ := SmallServer.applied
    (show (smallServer 0).succeeds (draw 0) firstEntry = true by decide)
  obtain ⟨_, _, second⟩ := SmallServer.applied
    (show ((smallServer 0).after (draw 0) firstEntry).succeeds (draw 0) changeAndCredit = true by
      decide)
  have run := LedgerRun.step (.refl (smallServer 0) fun _ => none)
    (smallKeys_separated fun _ => firstEntry_inPlay) first
  refine (store_refines_ledger (placementLaws smallParams) (smallServer_represents 0) run second
    (smallKey 3 1 0 0) (smallKeys_separated fun k hk => ?_)).2.1
  rcases hk with rfl | hk
  · exact List.mem_cons_self
  · exact changeAndCredit_inPlay hk

/-- A key other than `smallKey 3 1 0 0` that no scan tells from it. -/
private def colliding : AddressHash := smallKey 3 1 0 0 + 15 * 2 ^ 64

private def zeroForColliding : BlockUpdate := ⟨2, [(colliding, 0)], []⟩

set_option maxRecDepth 4000 in
/-- With one live key no two live keys compete. A zero change then names an absent key that
collides with it: the live key is not named, yet its entry is deleted. -/
theorem zero_change_deletes_collider :
    (∀ k, ledgerBlock (fun _ => none) firstEntry k ≠ none → k = smallKey 3 1 0 0) ∧
      (smallServer 0).succeeds (draw 0) firstEntry = true ∧
      ((smallServer 0).after (draw 0) firstEntry).succeeds (draw 0) zeroForColliding = true ∧
      ledgerBlock (fun _ => none) firstEntry colliding = none ∧
      ((smallServer 0).after (draw 0) firstEntry).balanceOf (smallKey 3 1 0 0) = .ok (some 5) ∧
      ledgerBlock (ledgerBlock (fun _ => none) firstEntry) zeroForColliding (smallKey 3 1 0 0) =
        some 5 ∧
      (((smallServer 0).after (draw 0) firstEntry).after (draw 0) zeroForColliding).balanceOf
        (smallKey 3 1 0 0) = .ok none := by
  refine ⟨fun k hk => ?_, by decide, by decide, by decide, by decide, by decide, by decide⟩
  rcases ledgerBlock_live hk with h | h | h
  · exact absurd rfl h
  · exact List.mem_singleton.mp h
  · cases h

end RisePir.Server.Ledger
