import Mathlib.Data.List.Destutter
import RisePir.Feed.Rpc
import RisePir.Rpc.HardRefresh

set_option autoImplicit false
set_option relaxedAutoImplicit false

/-! The follow loop and its reconciliation. One event of the loop is a poll of the finalized head,
a fetch with everything that one fetched block leads to, or corrections that the hard refresh
queues. What the checkpoints publish and log is left out; a halt keeps its cause. -/

namespace RisePir.Rpc.Mainnet

open RisePir.Proto.Types
open RisePir.Upstream.Cuckoo
open RisePir.Upstream.Pir
open RisePir.Server.Core
open RisePir.Http.Node
open RisePir.Feed.Rpc
open RisePir.Rpc.HardRefresh

def RECENT_DEPTH_BLOCKS : Nat := 64

def DEFERRED_RESERVOIR_CAP : Nat := 256

def RESERVOIR_DRAIN_PER_CHECKPOINT : Nat := 2

/-- `balance_at(addr, block)` of the independent provider, by the number of the request in the
checkpoint's sample loop and in its reservoir drain; `none` is a failed fetch. -/
structure ConfirmSource where
  sampled : Nat → Address → Nat → Option Balance
  drained : Nat → Address → Nat → Option Balance

inductive SampleResult
  | matched
  | fetchFailed
  deriving DecidableEq, Repr

inductive CheckpointOutcome
  | empty
  | success (checked : Nat)
  | dark (attempted : Nat)
  | deferred (lag : Nat)
  deriving DecidableEq, Repr

def classifyCheckpoint (candidates : Nat) (results : List SampleResult) (lag : Nat) :
    CheckpointOutcome :=
  if RECENT_DEPTH_BLOCKS < lag then .deferred lag
  else if candidates = 0 then .empty
  else if 0 < results.count .matched then .success (results.count .matched)
  else .dark results.length

/-- The addresses of deferred checkpoints, oldest first. -/
structure DeferredReservoir where
  addrs : List Address
  deriving DecidableEq, Repr

namespace DeferredReservoir

def insertMany : DeferredReservoir → List Address → DeferredReservoir
  | r, [] => r
  | r, addr :: rest =>
      if DEFERRED_RESERVOIR_CAP ≤ r.addrs.length then r
      else if addr ∈ r.addrs then r.insertMany rest
      else insertMany ⟨r.addrs ++ [addr]⟩ rest

def popFrontUpTo (r : DeferredReservoir) (n : Nat) : List Address × DeferredReservoir :=
  (r.addrs.take n, ⟨r.addrs.drop n⟩)

def requeue (r : DeferredReservoir) (addr : Address) : DeferredReservoir :=
  if r.addrs.length < DEFERRED_RESERVOIR_CAP then ⟨r.addrs ++ [addr]⟩ else r

end DeferredReservoir

/-- The loop of `sample_reference`, after some successes among some attempts. -/
def sampleFrom (fetch : Nat → Address → Nat → Option Balance) (block samples budget : Nat) :
    Nat → Nat → List Address → List (Option Balance)
  | _, _, [] => []
  | succeeded, attempted, addr :: rest =>
      if samples ≤ succeeded ∨ budget ≤ attempted then []
      else
        let outcome := fetch attempted addr block
        outcome :: sampleFrom fetch block samples budget
          (if outcome.isSome then succeeded + 1 else succeeded) (attempted + 1) rest

def sampleReference (fetch : Nat → Address → Nat → Option Balance) (block : Nat)
    (candidates : List Address) (samples budget : Nat) : List (Option Balance) :=
  sampleFrom fetch block samples budget 0 0 candidates

/-- What the `CRITICAL` line of a halted comparison says. -/
inductive HaltCause
  | readFailed (e : ServerError)
  | mismatch (n : Nat) (addr : Address) (ours reference : Balance)
  deriving DecidableEq, Repr

inductive CompareOutcome
  | matched
  | halted (cause : HaltCause)
  deriving DecidableEq, Repr

inductive ReconcileOutcome
  | continued
  | halted (cause : HaltCause)
  deriving DecidableEq, Repr

variable {p : CuckooParams} {C : SegmentedCuckoo p} {B : PirBackend}
variable (keccak256 : Address → AddressHash)

section Reconcile

variable (node : NodeState C B) (n : Nat)

/-- The store's balance, an absent key counting as zero, against the provider's. -/
def compareOne (addr : Address) (reference : Balance) : CompareOutcome :=
  match node.server.balanceOf (keccak256 addr) with
  | .error e => .halted (.readFailed e)
  | .ok v => if v.getD 0 ≠ reference then .halted (.mismatch n addr (v.getD 0) reference) else .matched

/-- The comparisons of the answered samples, up to the first that halts. -/
def compareSamples : List (Address × Option Balance) → Except HaltCause (List SampleResult)
  | [] => .ok []
  | (addr, outcome) :: rest =>
      match outcome with
      | none => (compareSamples rest).map (SampleResult.fetchFailed :: ·)
      | some reference =>
          match compareOne keccak256 node n addr reference with
          | .halted cause => .error cause
          | .matched => (compareSamples rest).map (SampleResult.matched :: ·)

/-- The drain loop over what was popped; a failed fetch puts the address back. -/
def drainFrom (fetch : Nat → Address → Nat → Option Balance) :
    Nat → List Address → DeferredReservoir → DeferredReservoir × ReconcileOutcome
  | _, [], reservoir => (reservoir, .continued)
  | i, addr :: rest, reservoir =>
      match fetch i addr n with
      | none => drainFrom fetch (i + 1) rest (reservoir.requeue addr)
      | some reference =>
          match compareOne keccak256 node n addr reference with
          | .halted cause => (reservoir, .halted cause)
          | .matched => drainFrom fetch (i + 1) rest reservoir

/-- The accounts that a checkpoint may sample; credited ones only in complete mode. -/
def candidatesOf (changed credited : List (Address × Balance)) (complete : Bool) : List Address :=
  (changed.map Prod.fst ++ if complete then credited.map Prod.fst else []).destutter (· ≠ ·)

def reconcile (confirm : ConfirmSource) (lag : Nat) (changed credited : List (Address × Balance))
    (complete : Bool) (samples : Nat) (reservoir : DeferredReservoir) :
    DeferredReservoir × ReconcileOutcome :=
  let candidates := candidatesOf changed credited complete
  match classifyCheckpoint candidates.length [] lag with
  | .deferred _ => (reservoir.insertMany candidates, .continued)
  | _ =>
      let outcomes := sampleReference confirm.sampled n candidates samples (samples * 2)
      match compareSamples keccak256 node n (candidates.zip outcomes) with
      | .error cause => (reservoir, .halted cause)
      | .ok _ =>
          let (popped, kept) := reservoir.popFrontUpTo RESERVOIR_DRAIN_PER_CHECKPOINT
          drainFrom keccak256 node n confirm.drained 0 popped kept

end Reconcile

/-- What the loop reads of its configuration. -/
structure FollowConfig where
  complete : Bool
  reconcileEvery : Nat
  reconcileSamples : Nat
  deriving DecidableEq, Repr

/-- Why the task has returned. -/
inductive Stop
  | mislabelled (found n : Nat)
  | creditRead (e : ServerError)
  | staleRead (e : ServerError)
  | applyFailed (n : Nat) (e : ServerError)
  | reconciled (cause : HaltCause)
  deriving DecidableEq, Repr

/-- The loop's variables with the node that it writes. -/
structure FollowLoop (C : SegmentedCuckoo p) (B : PirBackend) where
  node : NodeState C B
  finalized : Nat
  last : Nat
  corrections : List Correction
  reservoir : DeferredReservoir
  stopped : Option Stop

/-- A credit of partial mode is kept when its account is changed in the block or stored. -/
def keepTracked (node : NodeState C B) (changes : List (AddressHash × Balance)) :
    List (AddressHash × Balance) → Except ServerError (List (AddressHash × Balance))
  | [] => .ok []
  | credit :: rest =>
      let tracked : Except ServerError Bool :=
        if credit.1 ∈ changes.map Prod.fst then .ok true
        else match node.server.balanceOf credit.1 with
          | .ok v => .ok v.isSome
          | .error e => .error e
      match tracked with
      | .error e => .error e
      | .ok kept =>
          match keepTracked node changes rest with
          | .error e => .error e
          | .ok credits => .ok (if kept then credit :: credits else credits)

/-- The credit filter of partial mode. -/
def filterCredits (complete : Bool) (node : NodeState C B) (update : BlockUpdate) :
    Except ServerError BlockUpdate :=
  if complete then .ok update
  else (keepTracked node update.changes update.credits).map fun credits => { update with credits }

namespace FollowLoop

def start (node : NodeState C B) (startAt : Nat) : FollowLoop C B :=
  ⟨node, 0, startAt, [], ⟨[]⟩, none⟩

def stop (l : FollowLoop C B) (why : Stop) : FollowLoop C B := { l with stopped := some why }

/-- From the corrections on: the drained ones that still stand, then the block. -/
def applyCorrected (rng : C.Rng) (l : FollowLoop C B) (update : BlockUpdate) :
    FollowLoop C B × Option BlockDelta :=
  let drained := l.corrections.take MAX_CORRECTIONS_PER_BLOCK
  let l := { l with corrections := l.corrections.drop MAX_CORRECTIONS_PER_BLOCK }
  match filterStaleCorrections l.node drained with
  | .error e => (l.stop (.staleRead e), none)
  | .ok valid =>
      let update := { update with changes := prependCorrections valid update.changes }
      match l.node.applyBlockReporting rng update with
      | (node, .error e) => ({ l with node }.stop (.applyFailed (l.last + 1) e), none)
      | (node, .ok (delta, _)) => ({ l with node, last := l.last + 1 }, some delta)

/-- From a fetched block up to `last = n`; the delta is the one the journal is handed. -/
def applyFetched (cfg : FollowConfig) (rng : C.Rng) (l : FollowLoop C B) (update : BlockUpdate) :
    FollowLoop C B × Option BlockDelta :=
  if update.block ≠ l.last + 1 then (l.stop (.mislabelled update.block (l.last + 1)), none)
  else
    match filterCredits cfg.complete l.node update with
    | .error e => (l.stop (.creditRead e), none)
    | .ok update => l.applyCorrected rng update

/-- The checkpoint behind block `last`, where one is due. -/
def checkpoint (cfg : FollowConfig) (confirm : ConfirmSource) (l : FollowLoop C B)
    (changed credited : List (Address × Balance)) : FollowLoop C B :=
  if 0 < cfg.reconcileEvery ∧ cfg.reconcileEvery ∣ l.last then
    match reconcile keccak256 l.node l.last confirm (l.finalized - l.last) changed credited
      cfg.complete cfg.reconcileSamples l.reservoir with
    | (reservoir, .continued) => { l with reservoir }
    | (reservoir, .halted cause) => { l with reservoir }.stop (.reconciled cause)
  else l

/-- Everything a fetched block leads to. -/
def follow (cfg : FollowConfig) (confirm : ConfirmSource) (rng : C.Rng) (l : FollowLoop C B)
    (fetched : FetchedBlock) : FollowLoop C B :=
  match l.applyFetched cfg rng fetched.update with
  | (l, none) => l
  | (l, some _) => l.checkpoint keccak256 cfg confirm fetched.changed fetched.credited

end FollowLoop

/-- `none` is a poll or a fetch that failed, and is retried. -/
inductive Event (C : SegmentedCuckoo p)
  | polled (finalized : Option Nat)
  | fetched (block : Option FetchedBlock) (rng : C.Rng) (confirm : ConfirmSource)
  | queued (corrections : List Correction)

/-- The loop polls when it has caught up with the head, and fetches until then. -/
def FollowLoop.step (cfg : FollowConfig) (l : FollowLoop C B) (event : Event C) : FollowLoop C B :=
  match event with
  | .queued corrections => { l with corrections := l.corrections ++ corrections }
  | .polled (some finalized) =>
      if l.stopped.isSome ∨ l.last < l.finalized then l else { l with finalized }
  | .fetched (some block) rng confirm =>
      if l.stopped.isNone ∧ l.last < l.finalized then l.follow keccak256 cfg confirm rng block else l
  | .polled none => l
  | .fetched none _ _ => l

end RisePir.Rpc.Mainnet
