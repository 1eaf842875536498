import RisePir.Server.Fold
import RisePir.Server.Verified
import RisePir.Upstream.Pir

set_option autoImplicit false
set_option relaxedAutoImplicit false

/-! The batched server: one epoch and one delta bundle per block. -/

namespace RisePir.Server.Core

open RisePir.Lib.Splice
open RisePir.Proto.Types
open RisePir.Proto.Value
open RisePir.Upstream.Cuckoo
open RisePir.Upstream.Pir
open RisePir.Upstream.Slots
open RisePir.Server.Fold
open RisePir.Server.Verified

inductive ServerError
  | encode (err : ValueError)
  | tableFull
  | nonMonotonicBlock (current attempted : Nat)
  | malformedQuery (expected got : Nat)
  | fingerprintAmbiguity (shadowed : Bool)
  | corruptStoredValue
  | store (msg : String)
  deriving DecidableEq, Repr

/-- What one call to `apply_change` did to the store. -/
inductive ChangeKind
  | insert
  | update
  | delete
  | noopDelete
  deriving DecidableEq, Repr

/-- The counts of a block's apply; the three wall-clock durations are left out. -/
structure BlockApplyReport where
  inserts : Nat
  updates : Nat
  deletes : Nat
  noopDeletes : Nat
  changes : Nat
  credits : Nat
  touchedCells : Nat
  deriving DecidableEq, Repr

/-- One segment's entry of the parallel vectors `backend_params`, `material`, `hints`. -/
structure SegmentState (B : PirBackend) where
  params : SimpleServerParams
  material : B.Material
  hint : Hint

/-- `RisePirServer`. Between calls its mutation log is empty, and its codec's width is
the width the geometry was sized for. -/
structure RisePirServer {p : CuckooParams} (C : SegmentedCuckoo p) (B : PirBackend) where
  store : C.Store
  segments : List (SegmentState B)
  block : Nat
  valueCodec : ValueCodec
  log_empty : store.mutationLog = []
  segments_length : segments.length = p.arity
  value_bits : valueCodec.valueBits = p.valueBits

variable {p : CuckooParams} {C : SegmentedCuckoo p} {B : PirBackend}

/-- Segment `j`'s cells: `cells[j * seg_cells .. (j + 1) * seg_cells]`. -/
def segmentCells (p : CuckooParams) (cells : List (BitVec 32)) (j : Nat) : List (BitVec 32) :=
  slice cells (j * p.segCells) p.segCells

namespace RisePirServer

/-- `RisePirServer::new`: one `server_setup` per segment, then the log is drained. -/
def new (store : C.Store) (config : B.Config) (coins : Nat → B.Coins)
    (valueCodec : ValueCodec) (genesisBlock : Nat)
    (value_bits : valueCodec.valueBits = p.valueBits) : RisePirServer C B where
  store := store.drainMutations.2
  segments := (List.range p.arity).map fun j =>
    let out := B.serverSetup config (coins j) (segmentCells p store.cells j) p.segmentSize
      p.rowWidth p.plaintextBits
    ⟨out.1, out.2.1, out.2.2⟩
  block := genesisBlock
  valueCodec := valueCodec
  log_empty := rfl
  segments_length := by simp
  value_bits := value_bits

end RisePirServer

/-- The store under the writes of one block, with the table's random source. -/
structure Table (C : SegmentedCuckoo p) where
  rng : C.Rng
  store : C.Store

/-- The `{e:?}` of a `CuckooError`. -/
def debugError : CuckooError → String
  | .tableFull => "TableFull"
  | .notFound => "NotFound"
  | .invalidParams msg => "InvalidParams(" ++ msg.quote ++ ")"

/-- The insert arm of `apply_change`. -/
def insertEntry (t : Table C) (addr : AddressHash) (encoded : List UInt8) :
    Table C × Except ServerError ChangeKind :=
  match C.insert t.rng t.store addr encoded with
  | (rng, .ok store) => (⟨rng, store⟩, .ok .insert)
  | (rng, .error .tableFull) => (⟨rng, t.store⟩, .error .tableFull)
  | (rng, .error (.invalidParams msg)) => (⟨rng, t.store⟩, .error (.store msg))
  | (rng, .error .notFound) => (⟨rng, t.store⟩, .error (.store
      "CuckooKVStore::insert returned NotFound, which its documented contract says cannot happen"))

/-- Apply one `(address, absolute balance)` mutation through the verified dispatch. -/
def applyChange (codec : ValueCodec) (t : Table C) (addr : AddressHash) (balance : Balance) :
    Table C × Except ServerError ChangeKind :=
  let located := locate C codec t.store.cells addr
  if balance = 0 then
    match located with
    | .own _ =>
        match C.delete t.store addr with
        | .ok store => ({ t with store }, .ok .delete)
        | .error e =>
            (t, .error (.store ("delete failed after verified locate said Own: " ++ debugError e)))
    | .absent _ => (t, .ok .noopDelete)
    | .shadowed => (t, .error (.fingerprintAmbiguity true))
    | .duplicateTag => (t, .error (.fingerprintAmbiguity false))
    | .corrupt => (t, .error .corruptStoredValue)
  else
    match codec.encode addr balance with
    | .error e => (t, .error (.encode e))
    | .ok encoded =>
        match located with
        | .own _ =>
            match C.update t.store addr encoded with
            | .ok store => ({ t with store }, .ok .update)
            | .error e =>
                (t, .error (.store
                  ("update failed after verified locate said Own: " ++ debugError e)))
        | .absent _ => insertEntry t addr encoded
        | .shadowed => (t, .error (.fingerprintAmbiguity true))
        | .duplicateTag => (t, .error (.fingerprintAmbiguity false))
        | .corrupt => (t, .error .corruptStoredValue)

/-- One withdrawal credit: the verified prior balance, the checked sum, the write. -/
def applyCredit (codec : ValueCodec) (t : Table C) (addr : AddressHash) (amount : Balance) :
    Table C × Except ServerError ChangeKind :=
  match Verified.get C codec t.store.cells addr with
  | .error .corrupt => (t, .error .corruptStoredValue)
  | .error _ => (t, .error (.fingerprintAmbiguity false))
  | .ok prior =>
      let credited := prior.getD 0 + amount
      if credited < 2 ^ 128 then applyChange codec t addr credited
      else (t, .error (.encode .balanceOverflow))

/-- One loop of `apply_block_reporting`: the entries in order, up to the first failure. -/
def applyEach (step : Table C → AddressHash → Balance → Table C × Except ServerError ChangeKind) :
    Table C → List (AddressHash × Balance) → Table C × Except ServerError (List ChangeKind)
  | t, [] => (t, .ok [])
  | t, (addr, balance) :: rest =>
      match step t addr balance with
      | (t', .error e) => (t', .error e)
      | (t', .ok kind) =>
          match applyEach step t' rest with
          | (t'', .error e) => (t'', .error e)
          | (t'', .ok kinds) => (t'', .ok (kind :: kinds))

/-- Both loops: every change, then every credit. -/
def applyEntries (codec : ValueCodec) (t : Table C) (update : BlockUpdate) :
    Table C × Except ServerError (List ChangeKind) :=
  match applyEach (applyChange codec) t update.changes with
  | (t', .error e) => (t', .error e)
  | (t', .ok kinds) =>
      match applyEach (applyCredit codec) t' update.credits with
      | (t'', .error e) => (t'', .error e)
      | (t'', .ok kinds') => (t'', .ok (kinds ++ kinds'))

/-- One segment's hint patch; an empty delta leaves the segment alone. -/
def patchSegment (seg : SegmentState B) (deltas : SegmentRowDeltas) : SegmentState B :=
  if deltas.isEmpty then seg
  else { seg with hint := B.serverPatchHint seg.params seg.material seg.hint deltas }

def patchSegments (segments : List (SegmentState B)) (rowDeltas : List SegmentRowDeltas) :
    List (SegmentState B) := List.zipWith patchSegment segments rowDeltas

/-- The number of `(row, offset)` entries across every segment. -/
def touchedCells (rowDeltas : List SegmentRowDeltas) : Nat :=
  (rowDeltas.map fun seg => (seg.map fun row => row.2.length).sum).sum

def reportOf (kinds : List ChangeKind) (update : BlockUpdate) (rowDeltas : List SegmentRowDeltas) :
    BlockApplyReport where
  inserts := kinds.count .insert
  updates := kinds.count .update
  deletes := kinds.count .delete
  noopDeletes := kinds.count .noopDelete
  changes := update.changes.length
  credits := update.credits.length
  touchedCells := touchedCells rowDeltas

namespace RisePirServer

/-- `reject_block`: what reached the store before the failure stays there, and the
buffered mutations are discarded. -/
def rejectBlock (s : RisePirServer C B) (store : C.Store) : RisePirServer C B :=
  { s with store := store.drainMutations.2, log_empty := rfl }

/-- The success path: one drain, one fold, one patch per touched segment. -/
def commitBlock (s : RisePirServer C B) (store : C.Store)
    (block : Nat) : RisePirServer C B × BlockDelta :=
  let rowDeltas := foldMutationsIntoRowDeltas C store.drainMutations.1
  ({ s with
      store := store.drainMutations.2
      segments := patchSegments s.segments rowDeltas
      block := block
      log_empty := rfl
      segments_length := by
        rw [patchSegments, List.length_zipWith, fold_length, s.segments_length, Nat.min_self] },
    ⟨block, rowDeltas⟩)

/-- `apply_block_reporting`, with the server it leaves behind in either case. -/
def applyBlockReporting (rng : C.Rng) (s : RisePirServer C B) (update : BlockUpdate) :
    RisePirServer C B × Except ServerError (BlockDelta × BlockApplyReport) :=
  if update.block ≤ s.block then (s, .error (.nonMonotonicBlock s.block update.block))
  else
    match applyEntries s.valueCodec ⟨rng, s.store⟩ update with
    | (t, .error e) => (s.rejectBlock t.store, .error e)
    | (t, .ok kinds) =>
        let out := commitBlock s t.store update.block
        (out.1, .ok (out.2, reportOf kinds update out.2.perSegment))

/-- Verified read of the balance stored for `addr`. -/
def balanceOf (s : RisePirServer C B) (addr : AddressHash) :
    Except ServerError (Option Balance) :=
  match Verified.get C s.valueCodec s.store.cells addr with
  | .ok balance => .ok balance
  | .error .corrupt => .error .corruptStoredValue
  | .error _ => .error (.fingerprintAmbiguity false)

/-- Answer a per-segment query bundle at the current head. -/
def answer (s : RisePirServer C B) (queries : List Query) :
    Except ServerError (List Response × Nat) :=
  if queries.length ≠ p.arity then .error (.malformedQuery p.arity queries.length)
  else
    .ok ((s.segments.zip queries).mapIdx fun j entry =>
      B.serverAnswer entry.1.params (segmentCells p s.store.cells j) p.segmentSize p.rowWidth
        entry.2, s.block)

end RisePirServer

/-- `SetupBundle`: what a client bootstraps from. -/
structure SetupBundle where
  params : CuckooParams
  backendParams : List SimpleServerParams
  hints : List Hint
  block : Nat
  deriving DecidableEq

/-- `RisePirServer::setup`. -/
def RisePirServer.setup (s : RisePirServer C B) : SetupBundle where
  params := p
  backendParams := s.segments.map SegmentState.params
  hints := s.segments.map SegmentState.hint
  block := s.block

/-- A block that fails changes at most the store. -/
theorem RisePirServer.apply_error_keeps {rng : C.Rng} {s s' : RisePirServer C B}
    {update : BlockUpdate} {e : ServerError} (h : s.applyBlockReporting rng update = (s', .error e)) :
    s'.segments = s.segments ∧ s'.block = s.block ∧ s'.valueCodec = s.valueCodec := by
  unfold applyBlockReporting at h
  split at h
  · cases h
    exact ⟨rfl, rfl, rfl⟩
  · cases he : applyEntries s.valueCodec ⟨rng, s.store⟩ update with
    | mk t r =>
        rw [he] at h
        cases r with
        | ok kinds => cases h
        | error e' =>
            cases h
            exact ⟨rfl, rfl, rfl⟩

section Logging

variable {codec : ValueCodec}

private theorem insertEntry_logged (laws : C.LogLaws) (t : Table C) (addr : AddressHash)
    (encoded : List UInt8) : C.Logged t.store (insertEntry t addr encoded).1.store := by
  unfold insertEntry
  split
  · rename_i rng store h
    exact laws.insert_logged _ _ _ _ _ _ h
  · exact Logged.refl _
  · exact Logged.refl _
  · exact Logged.refl _

/-- Whatever its outcome, a change leaves exactly its own slot writes in the log. -/
theorem applyChange_logged (laws : C.LogLaws) (t : Table C) (addr : AddressHash)
    (balance : Balance) : C.Logged t.store (applyChange codec t addr balance).1.store := by
  unfold applyChange
  dsimp only
  split
  · split
    · split
      · rename_i store h
        exact laws.delete_logged _ _ _ h
      · exact Logged.refl _
    all_goals exact Logged.refl _
  · split
    · exact Logged.refl _
    · split
      · split
        · rename_i store h
          exact laws.update_logged _ _ _ _ h
        · exact Logged.refl _
      · exact insertEntry_logged laws t addr _
      all_goals exact Logged.refl _

theorem applyCredit_logged (laws : C.LogLaws) (t : Table C) (addr : AddressHash)
    (amount : Balance) : C.Logged t.store (applyCredit codec t addr amount).1.store := by
  unfold applyCredit
  split
  · exact Logged.refl _
  · exact Logged.refl _
  · dsimp only
    split
    · exact applyChange_logged laws t addr _
    · exact Logged.refl _

theorem applyEach_logged
    {step : Table C → AddressHash → Balance → Table C × Except ServerError ChangeKind}
    (logged : ∀ t addr balance, C.Logged t.store (step t addr balance).1.store) (t : Table C)
    (entries : List (AddressHash × Balance)) :
    C.Logged t.store (applyEach step t entries).1.store := by
  induction entries generalizing t with
  | nil => exact Logged.refl _
  | cons entry rest ih =>
      obtain ⟨addr, balance⟩ := entry
      have head := logged t addr balance
      rw [applyEach]
      cases hstep : step t addr balance with
      | mk t' r =>
          rw [hstep] at head
          cases r with
          | error e => exact head
          | ok kind =>
              have tail := ih t'
              dsimp only
              cases hrest : applyEach step t' rest with
              | mk t'' r' =>
                  rw [hrest] at tail
                  cases r' with
                  | error e => exact Logged.trans head tail
                  | ok kinds => exact Logged.trans head tail

theorem applyEntries_logged (laws : C.LogLaws) (t : Table C) (update : BlockUpdate) :
    C.Logged t.store (applyEntries codec t update).1.store := by
  have changes : C.Logged t.store (applyEach (applyChange codec) t update.changes).1.store :=
    applyEach_logged (applyChange_logged laws) t update.changes
  unfold applyEntries
  cases hc : applyEach (applyChange codec) t update.changes with
  | mk t' r =>
      rw [hc] at changes
      cases r with
      | error e => exact changes
      | ok kinds =>
          have credits : C.Logged t'.store (applyEach (applyCredit codec) t' update.credits).1.store :=
            applyEach_logged (applyCredit_logged laws) t' update.credits
          dsimp only
          cases hd : applyEach (applyCredit codec) t' update.credits with
          | mk t'' r' =>
              rw [hd] at credits
              cases r' with
              | error e => exact Logged.trans changes credits
              | ok kinds' => exact Logged.trans changes credits

end Logging

/-- A successful apply ran every entry and committed the store they left, whose log is
exactly the block's writes. -/
theorem RisePirServer.apply_ok_cases (laws : C.LogLaws) {rng : C.Rng} {s s' : RisePirServer C B}
    {update : BlockUpdate} {delta : BlockDelta} {report : BlockApplyReport}
    (h : applyBlockReporting rng s update = (s', .ok (delta, report))) :
    s.block < update.block ∧ ∃ t kinds,
      applyEntries s.valueCodec ⟨rng, s.store⟩ update = (t, .ok kinds) ∧
      (s', delta) = commitBlock s t.store update.block ∧
      C.Replays s.store.cells t.store.mutationLog t.store.cells := by
  unfold applyBlockReporting at h
  split at h
  · cases h
  · rename_i hblock
    refine ⟨by omega, ?_⟩
    have logged : C.Logged s.store (applyEntries s.valueCodec ⟨rng, s.store⟩ update).1.store :=
      applyEntries_logged laws ⟨rng, s.store⟩ update
    cases he : applyEntries s.valueCodec ⟨rng, s.store⟩ update with
    | mk t r =>
        rw [he] at h logged
        cases r with
        | error e => cases h
        | ok kinds =>
            obtain ⟨muts, hlog, hreplays⟩ := logged
            have hmuts : t.store.mutationLog = muts := by
              rw [hlog, s.log_empty, List.nil_append]
            refine ⟨t, kinds, rfl, ?_, hmuts ▸ hreplays⟩
            simp only [Prod.mk.injEq, Except.ok.injEq] at h
            obtain ⟨hs, hd, -⟩ := h
            rw [← hs, ← hd]

end RisePir.Server.Core
