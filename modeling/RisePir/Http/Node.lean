import RisePir.Http.Wire
import RisePir.Proto.Codec
import RisePir.Server.DeltaRing

set_option autoImplicit false
set_option relaxedAutoImplicit false

/-! The node: the server with its retained deltas, behind the four endpoints a client
synchronises through. Metrics, `/recent` and the health lines only read this state and are
left out. -/

namespace RisePir.Http.Node

open RisePir.Proto.Types
open RisePir.Proto.Codec
open RisePir.Upstream.Cuckoo
open RisePir.Upstream.Pir
open RisePir.Server.Core
open RisePir.Server.DeltaRing
open RisePir.Http.Wire
open Std (ExtTreeMap)

/-- A refused request: the status, its text and its metric class, or a `400` with the
server's own error. -/
inductive Refusal
  | classed (status : Nat) (msg metricClass : String)
  | badRequest (err : ServerError)
  deriving DecidableEq, Repr

variable {p : CuckooParams} {C : SegmentedCuckoo p} {B : PirBackend}

/-- `NodeState` with its `Inner`. -/
structure NodeState (C : SegmentedCuckoo p) (B : PirBackend) where
  server : RisePirServer C B
  ring : Ring
  perBlock : ExtTreeMap Nat BlockDelta
  epoch : String
  complete : Bool
  setupCache : Option SetupBundle
  setupGeneration : Nat

/-- The index without what is older than the ring. -/
def evict (ring : Ring) (perBlock : ExtTreeMap Nat BlockDelta) : ExtTreeMap Nat BlockDelta :=
  match ring.oldest with
  | some oldest => perBlock.filter fun block _ => decide (oldest ≤ block)
  | none => perBlock

namespace NodeState

def new (keccak256 : List UInt8 → List UInt8) (server : RisePirServer C B) (ring : Ring)
    (complete : Bool) : NodeState C B where
  server := server
  ring := ring
  perBlock := ∅
  epoch := lineageEpoch keccak256 server.setup.backendParams
  complete := complete
  setupCache := none
  setupGeneration := 0

/-- `NodeState::apply_block_reporting`. On an error the ring and the index are as before,
and the server is whatever its own apply left. -/
def applyBlockReporting (rng : C.Rng) (node : NodeState C B) (update : BlockUpdate) :
    NodeState C B × Except ServerError (BlockDelta × BlockApplyReport) :=
  match node.server.applyBlockReporting rng update with
  | (server, .error e) => ({ node with server }, .error e)
  | (server, .ok (delta, report)) =>
      ({ node with
          server
          ring := node.ring.push delta
          perBlock := evict (node.ring.push delta) (node.perBlock.insert delta.block delta) },
        .ok (delta, report))

/-- The pushes and inserts of `seed_history`. -/
def seed (node : NodeState C B) (deltas : List BlockDelta) : NodeState C B :=
  deltas.foldl (fun n delta =>
    { n with ring := n.ring.push delta, perBlock := n.perBlock.insert delta.block delta }) node

/-- `seed_history`: the replayed tail, then one eviction. -/
def seedHistory (node : NodeState C B) (deltas : List BlockDelta) : NodeState C B :=
  { node.seed deltas with perBlock := evict (node.seed deltas).ring (node.seed deltas).perBlock }

/-- An eighth of the ring. -/
def freshWindow (node : NodeState C B) : Nat := node.ring.capacity / 8

/-- Encode the current bundle and cache it. -/
def regenerate (node : NodeState C B) : NodeState C B × SetupBundle :=
  ({ node with
      setupCache := some node.server.setup
      setupGeneration := node.setupGeneration + 1 }, node.server.setup)

/-- `setup_bytes`: the cached bundle while it is fresh, a new one otherwise. -/
def setupBytes (node : NodeState C B) : NodeState C B × SetupBundle :=
  match node.setupCache with
  | some cached =>
      if node.server.block - cached.block ≤ node.freshWindow then (node, cached)
      else node.regenerate
  | none => node.regenerate

/-- `epoch_gate`: `none` when the presented epoch is this deployment's. -/
def epochGate (node : NodeState C B) (presented : Option String) : Option Refusal :=
  match presented with
  | some epoch =>
      if epoch = node.epoch then none
      else some (.classed 409 ("epoch mismatch: this server was re-bootstrapped onto a different " ++
        "hint lineage since your /setup; a full resync via /setup is required") "EpochMismatch")
  | none => some (.classed 409 ("missing epoch: this endpoint requires the ?epoch= lineage token " ++
      "from /setup (x-risepir-epoch); a full resync via /setup is required") "EpochMissing")

/-- `POST /answer`, from the decoded queries on. -/
def answer (node : NodeState C B) (presented : Option String) (queries : List Query) :
    Except Refusal (List Response × Nat) :=
  match node.epochGate presented with
  | some refusal => .error refusal
  | none =>
      match node.server.answer queries with
      | .error e => .error (.badRequest e)
      | .ok out => .ok out

/-- `GET /delta/{block}`. -/
def deltaByBlock (node : NodeState C B) (block : Nat) (presented : Option String) :
    Except Refusal (List UInt8) :=
  if presented ≠ some node.epoch then
    .error (.classed 404 ("no delta at that (epoch, block); re-derive URLs from a fresh " ++
      "/setup's x-risepir-epoch") "EpochMismatch")
  else
    match node.perBlock[block]? with
    | none => .error (.classed 404 "no delta retained for that block" "NotRetained")
    | some delta => .ok (encodeBlockDelta delta)

/-- `GET /sync`, from the parsed range on. -/
def sync (node : NodeState C B) (presented : Option String) (query : Option (Nat × Nat)) :
    Except Refusal (List UInt8) :=
  match node.epochGate presented with
  | some refusal => .error refusal
  | none =>
      match query with
      | none => .error (.classed 400 "expected query params ?from=<u64>&to=<u64>" "BadQuery")
      | some (fromBlock, toBlock) =>
          match node.ring.range fromBlock toBlock with
          | some delta => .ok (encodeBlockDelta delta)
          | none => .error (.classed 409 ("requested range is outside the retained delta window; " ++
              "a full resync via /setup is required") "OutOfWindow")

/-- `GET /setup`: the body, and what its `ETag` `setup-<epoch>-<block>` names. -/
def setup (node : NodeState C B) : NodeState C B × List UInt8 × String × Nat :=
  let out := node.setupBytes
  (out.1, encodeSetup out.2, node.epoch, out.2.block)

end NodeState

end RisePir.Http.Node
