import RisePir.Client.Rewind
import RisePir.Server.Core

set_option autoImplicit false
set_option relaxedAutoImplicit false

/-! The client: a pinned hint, the rolling delta, and lookups rewound to the pinned block.
`none` stands for a panic of the source throughout. -/

namespace RisePir.Client.Core

open RisePir.Lib.Splice
open RisePir.Proto.Types
open RisePir.Proto.Value
open RisePir.Upstream.Cuckoo
open RisePir.Upstream.Pir
open RisePir.Client.Delta
open RisePir.Client.Rewind
open RisePir.Server.Core

/-- `RisePirClient`; its `params` are the geometry of `C`. -/
structure RisePirClient {p : CuckooParams} (C : SegmentedCuckoo p) (B : PirBackend) where
  states : List B.ClientState
  pinnedBlock : Nat
  delta : PendingDelta
  valueCodec : ValueCodec

/-- `QueryCtx`: what the client keeps of a query. -/
structure QueryCtx where
  queries : List Query
  rows : List Nat
  deriving DecidableEq, Repr

variable {p : CuckooParams} {C : SegmentedCuckoo p} {B : PirBackend}

/-- The rows `indices[j] % segment_size` of a key's candidate buckets. -/
def candidateRows (C : SegmentedCuckoo p) (key : AddressHash) : List Nat :=
  (C.buckets key).map (· % p.segmentSize)

/-- Step 4: the row's delta is added cell by cell. -/
def correctCells (p : CuckooParams) (segment row : Nat) :
    List (BitVec 32) → List (Nat × Int) → Except ClientError (List (BitVec 32))
  | cells, [] => .ok cells
  | cells, (offset, cellDelta) :: rest =>
      match cells[offset]? with
      | none => .error (.cellOutOfRange segment row offset)
      | some cell =>
          let corrected := (cell.toNat : Int) + cellDelta
          if corrected < 0 ∨ 2 ^ p.plaintextBits ≤ corrected then
            .error (.cellOutOfRange segment row offset)
          else correctCells p segment row (cells.set offset (BitVec.ofInt 32 corrected)) rest

/-- The accumulator and the mask of step 5. -/
structure Select where
  acc : List UInt8
  foundMask : Bool
  deriving DecidableEq, Repr

/-- `*a |= mask8 & *v` over the common length. -/
def orMasked (mask : Bool) (acc bytes : List UInt8) : List UInt8 :=
  List.zipWith (fun a v => a ||| if mask then v else 0) acc bytes ++ acc.drop bytes.length

/-- One slot of the scan, under the joint fingerprint and key-tag mask. -/
def selectSlot (C : SegmentedCuckoo p) (codec : ValueCodec) (key : AddressHash) (sel : Select)
    (slot : Nat × List UInt8) : Select :=
  let mask := slot.1 = C.fp key && codec.extractKeyTag slot.2 = codec.keyTag key
  ⟨orMasked mask sel.acc slot.2, sel.foundMask || mask⟩

/-- Step 5 over one row of cells. -/
def scanRow (C : SegmentedCuckoo p) (codec : ValueCodec) (key : AddressHash)
    (cells : List (BitVec 32)) (sel : Select) : Option Select :=
  if p.rowWidth ≤ cells.length then
    some (((List.range p.bucketSize).map fun s =>
      C.unpackSlotCells (slice cells (s * p.cellsPerSlot) p.cellsPerSlot)).foldl
        (selectSlot C codec key) sel)
  else none

/-- What `finish` reads of one segment. -/
structure SegmentLookup (B : PirBackend) where
  segment : Nat
  state : B.ClientState
  query : Query
  response : Response
  row : Nat

/-- Steps 2 to 5 for one segment. -/
def finishSegment (kind : ResponseRewind) (client : RisePirClient C B) (key : AddressHash)
    (look : SegmentLookup B) (sel : Select) : Option (Except ClientError Select) :=
  match kind.rewindResponse (B.stateParams look.state) look.query look.response
      (client.delta.segment look.segment) with
  | none => none
  | some rewound =>
      match correctCells p look.segment look.row (B.clientDecode look.state rewound)
          (client.delta.row look.segment look.row) with
      | .error err => some (.error err)
      | .ok cells => (scanRow C client.valueCodec key cells sel).map .ok

def finishSegments (kind : ResponseRewind) (client : RisePirClient C B) (key : AddressHash) :
    List (SegmentLookup B) → Select → Option (Except ClientError Select)
  | [], sel => some (.ok sel)
  | look :: rest, sel =>
      match finishSegment kind client key look sel with
      | none => none
      | some (.error err) => some (.error err)
      | some (.ok sel') => finishSegments kind client key rest sel'

namespace RisePirClient

/-- `from_setup`: one client state per segment, pinned at the bundle's block. -/
def fromSetup (C : SegmentedCuckoo p) (B : PirBackend) (bundle : SetupBundle)
    (valueCodec : ValueCodec) : RisePirClient C B where
  states := List.zipWith B.clientSetup bundle.backendParams bundle.hints
  pinnedBlock := bundle.block
  delta := .new p.arity bundle.block
  valueCodec := valueCodec

def ingestDelta (client : RisePirClient C B) (d : BlockDelta) :
    RisePirClient C B × Except ClientError Unit :=
  let out := client.delta.ingest d
  ({ client with delta := out.1 }, out.2)

/-- One segment's share of `collect_garbage`. -/
def patchState (client : RisePirClient C B) (j : Nat) (state : B.ClientState) : B.ClientState :=
  let rowDeltas := client.delta.asRowDeltas j
  if rowDeltas.isEmpty then state else B.clientPatchState state rowDeltas

def collectGarbage (client : RisePirClient C B) (upto : Nat) :
    RisePirClient C B × Except ClientError Unit :=
  if upto ≠ client.delta.head then
    (client, .error (.gcTargetMismatch client.delta.head upto))
  else if upto = client.pinnedBlock then (client, .ok ())
  else
    ({ client with
        states := client.states.mapIdx client.patchState
        pinnedBlock := upto
        delta := .new client.states.length upto }, .ok ())

/-- `build_query`: a query per segment for the key's candidate row. -/
def buildQuery (coins : Nat → B.Coins) (client : RisePirClient C B) (key : AddressHash) :
    RisePirClient C B × List Query × QueryCtx :=
  let rows := candidateRows C key
  let outs := (client.states.zip rows).mapIdx fun j entry =>
    B.clientQuery (coins j) entry.1 entry.2
  let queries := outs.map Prod.snd
  ({ client with states := outs.map Prod.fst }, queries, ⟨queries, rows⟩)

/-- The per-segment inputs that `finish` walks in lockstep. -/
def lookups (client : RisePirClient C B) (ctx : QueryCtx) (resp : List Response) :
    List (SegmentLookup B) :=
  (client.states.zip (ctx.queries.zip (resp.zip ctx.rows))).mapIdx fun j entry =>
    ⟨j, entry.1, entry.2.1, entry.2.2.1, entry.2.2.2⟩

/-- `finish`. -/
def finish (kind : ResponseRewind) (client : RisePirClient C B) (key : AddressHash)
    (ctx : QueryCtx) (resp : List Response) (atBlock : Nat) :
    Option (Except ClientError Lookup) :=
  if resp.length ≠ p.arity ∨ ctx.queries.length ≠ p.arity ∨ ctx.rows.length ≠ p.arity then
    some (.error (.malformedResponse p.arity resp.length))
  else if atBlock ≠ client.delta.head then
    some (.error (.responseBlockMismatch client.delta.head atBlock))
  else if ctx.rows ≠ candidateRows C key then some (.error .keyContextMismatch)
  else
    match finishSegments kind client key (client.lookups ctx resp)
        ⟨List.replicate p.valueSizeInBytes 0, false⟩ with
    | none => none
    | some (.error err) => some (.error err)
    | some (.ok sel) =>
        if sel.foundMask then some (.ok (client.valueCodec.decode key sel.acc))
        else some (.ok .notFound)

end RisePirClient

end RisePir.Client.Core
