import RisePir.Rpc.Front

set_option autoImplicit false
set_option relaxedAutoImplicit false

/-! The browser client's state machine: the four steps of a lookup, which the host calls one by
one. At most one query is in flight, and nothing but `finish` releases it. -/

namespace RisePir.Wasm.BrowserSession

open RisePir.Proto.Codec
open RisePir.Proto.Types
open RisePir.Proto.Value
open RisePir.Proto.Varint
open RisePir.Upstream.Cuckoo
open RisePir.Upstream.Pir
open RisePir.Client.Core
open RisePir.Client.Delta
open RisePir.Server.Core
open RisePir.Http.Bundles
open RisePir.Http.Wire
open RisePir.Rpc.Front (addressKey displayClientError)

/-- What a lookup resolves to. -/
inductive Outcome
  | found (balance : Balance)
  | zero
  | untracked
  | decodeFailed
  deriving DecidableEq, Repr

inductive SessionError
  | badAddressLen (n : Nat)
  | queryAlreadyInFlight
  | noQueryInFlight
  | syncRequired (atBlock pendingHead : Nat)
  | noAnswer
  | wire (err : WireError)
  | codec (err : CodecError)
  | client (err : ClientError)
  deriving DecidableEq, Repr

/-- The `Display` of a `SessionError`. -/
def SessionError.display : SessionError → String
  | .badAddressLen n => s!"address must be exactly 20 bytes, got {n}"
  | .queryAlreadyInFlight => "a query is already in flight; finish it before building another " ++
      "(one in-flight query per segment)"
  | .noQueryInFlight => "no query in flight"
  | .syncRequired atBlock pendingHead =>
      s!"response was answered at block {atBlock} but the client's delta only reaches {pendingHead}; " ++
        s!"sync (from={pendingHead}, to={atBlock}) and call finish again"
  | .noAnswer => "no answer accepted for the in-flight query"
  | .wire e => "wire: " ++ e.display
  | .codec e => "delta codec: " ++ e.display
  | .client e => "client: " ++ displayClientError e

/-- `InFlight`: a query that has been built and not yet finished. -/
structure Asked where
  key : AddressHash
  ctx : QueryCtx
  answer : Option (List Response × Nat)

/-- `Session`. -/
structure Session {p : CuckooParams} (C : SegmentedCuckoo p) (B : PirBackend) where
  client : RisePirClient C B
  reshapeRowWidthPerSeg : List Nat
  arity : Nat
  plaintextBits : Nat
  complete : Bool
  epoch : String
  pendingHead : Nat
  pinnedBlock : Nat
  inFlight : Option Asked

namespace Session

variable {p : CuckooParams} {C : SegmentedCuckoo p} {B : PirBackend}

/-- `from_bundle`; the widths of `value_codec` are a parameter. -/
def fromBundle (C : SegmentedCuckoo p) (B : PirBackend) (keccak256 : List UInt8 → List UInt8)
    (valueCodec : ValueCodec) (bundle : SetupBundle) (complete : Bool) : Session C B where
  client := .fromSetup C B bundle valueCodec
  reshapeRowWidthPerSeg := bundle.backendParams.map (·.reshapeRowWidth)
  arity := bundle.params.arity
  plaintextBits := bundle.params.plaintextBits
  complete := complete
  epoch := lineageEpoch keccak256 bundle.backendParams
  pendingHead := bundle.block
  pinnedBlock := bundle.block
  inFlight := none

def ingest (s : Session C B) (deltaBytes : List UInt8) : Session C B × Except SessionError Nat :=
  match decodeBlockDelta deltaBytes s.plaintextBits s.arity with
  | .error e => (s, .error (.codec e))
  | .ok delta =>
      match s.client.ingestDelta delta with
      | (client, .error e) => ({ s with client }, .error (.client e))
      | (client, .ok ()) => ({ s with client, pendingHead := delta.block }, .ok delta.block)

def buildQuery (keccak256 : List UInt8 → List UInt8) (coins : Nat → B.Coins) (s : Session C B)
    (addr : List UInt8) : Session C B × Except SessionError (List UInt8) :=
  if s.inFlight.isSome then (s, .error .queryAlreadyInFlight)
  else if addr.length ≠ 20 then (s, .error (.badAddressLen addr.length))
  else
    let key := addressKey keccak256 addr
    let (client, queries, ctx) := s.client.buildQuery coins key
    ({ s with client, inFlight := some ⟨key, ctx, none⟩ }, .ok (encodeQueryBundle queries))

def acceptAnswer (s : Session C B) (respBytes : List UInt8) : Session C B × Except SessionError Nat :=
  match decodeResponseBundle respBytes s.reshapeRowWidthPerSeg s.arity with
  | .error e => (s, .error (.wire e))
  | .ok decoded =>
      match s.inFlight with
      | none => (s, .error .noQueryInFlight)
      | some slot => ({ s with inFlight := some { slot with answer := some decoded } }, .ok decoded.2)

/-- A lookup's outcome: absence is zero only in a complete deployment. -/
def outcomeOf (complete : Bool) : Lookup → Outcome
  | .found balance => .found balance
  | .notFound => if complete then .zero else .untracked
  | .decodeFailed => .decodeFailed

/-- `finish`; `none` is a panic of the rewinding client. -/
def finish (s : Session C B) : Option (Session C B × Except SessionError Outcome) :=
  match s.inFlight with
  | none => some (s, .error .noQueryInFlight)
  | some slot =>
      match slot.answer with
      | none => some (s, .error .noAnswer)
      | some (responses, atBlock) =>
          if atBlock ≠ s.pendingHead then some (s, .error (.syncRequired atBlock s.pendingHead))
          else
            match s.client.finish .simple slot.key slot.ctx responses atBlock with
            | none => none
            | some (.error e) => some ({ s with inFlight := none }, .error (.client e))
            | some (.ok lookup) => some ({ s with inFlight := none }, .ok (outcomeOf s.complete lookup))

end Session

end RisePir.Wasm.BrowserSession
