import RisePir.Client.Core
import RisePir.Http.Bundles

set_option autoImplicit false
set_option relaxedAutoImplicit false

/-! The native client session behind `eth_getBalance`. Every operation runs under the session
lock and reads one reply for each request it awaits, so a list of replies is what the world
does to it; where the list ends the caller has dropped the future. -/

namespace RisePir.Rpc.NativeSession

open RisePir.Proto.Types
open RisePir.Proto.Codec
open RisePir.Proto.Value
open RisePir.Upstream.Cuckoo
open RisePir.Upstream.Pir
open RisePir.Client.Core
open RisePir.Client.Delta
open RisePir.Client.Rewind
open RisePir.Server.Core
open RisePir.Http.Bundles
open RisePir.Http.Node
open RisePir.Http.Wire

/-- `risepir_http::ClientError`. -/
inductive HttpError
  | network (msg : String)
  | status (status : Nat) (body : String)
  | wire (msg : String)
  deriving DecidableEq, Repr

inductive RpcError
  | pir (err : HttpError)
  | client (err : ClientError)
  | decodeFailed
  | notInTrackedSet
  | stalled
  deriving DecidableEq, Repr

/-- Why an operation ended without a value: its future was dropped, it panicked, or it failed. -/
inductive Halt
  | cancelled
  | panicked
  | failed (err : RpcError)
  deriving DecidableEq, Repr

/-- The `Display` of a `ServerError`. -/
def displayServerError : ServerError → String
  | .encode .balanceOverflow => "balance encode failed: balance does not fit in balance_bits"
  | .encode .invalidWidth => "balance encode failed: key_tag_bits must be <= 64, " ++
      "balance_bits must be <= 128, and checksum_bits must be <= 64"
  | .tableFull => "table is full: cuckoo kicking budget exhausted"
  | .nonMonotonicBlock current attempted =>
      s!"block must be strictly increasing: server is at {current}, got {attempted}"
  | .malformedQuery expected got => s!"malformed query: expected {expected} segments, got {got}"
  | .fingerprintAmbiguity true => "fingerprint ambiguity: the key's entry is shadowed by a " ++
      "foreign fingerprint-colliding slot earlier in probe order; refusing a write that would " ++
      "corrupt the colliding account (re-bootstrap from the snapshot source)"
  | .fingerprintAmbiguity false => "fingerprint ambiguity: more than one slot matches this " ++
      "key's fingerprint AND key_tag; refusing to guess which is authoritative (re-bootstrap " ++
      "from the snapshot source)"
  | .corruptStoredValue => "stored value corrupt: a slot matching this key's fingerprint and " ++
      "key_tag failed its balance checksum; refusing to serve from a corrupt store " ++
      "(re-bootstrap from the snapshot source)"
  | .store msg => "store rejected write: " ++ msg

/-- A refusal as the client's transport reports it. -/
def statusOf : Refusal → HttpError
  | .classed status msg _ => .status status msg
  | .badRequest e => .status 400 (displayServerError e)

/-- The table of each geometry. -/
abbrev Tables : Type 1 := (p : CuckooParams) → SegmentedCuckoo p

/-- A node of any geometry. -/
structure AnyNode (T : Tables) (B : PirBackend) where
  params : CuckooParams
  node : NodeState (T params) B

/-- What becomes of one request: the future is dropped, the transport fails, or a node serves
it, with the mode header on `/setup` or without. -/
inductive Reply (T : Tables) (B : PirBackend)
  | cancelled
  | failed (err : HttpError)
  | served (n : AnyNode T B) (modeHeader : Bool)

variable {T : Tables} {B : PirBackend}

namespace Reply

/-- `GET /head`. -/
def head : Reply T B → Except Halt Nat
  | .cancelled => .error .cancelled
  | .failed e => .error (.failed (.pir e))
  | .served n _ => .ok n.node.server.block

/-- `GET /setup`, with the mode header if the node sends one. -/
def setupWithMode : Reply T B → Except Halt (SetupBundle × Option Bool)
  | .cancelled => .error .cancelled
  | .failed e => .error (.failed (.pir e))
  | .served n modeHeader =>
      .ok (n.node.setupBytes.2, if modeHeader then some n.node.complete else none)

/-- `GET /mode`. -/
def mode : Reply T B → Except Halt Bool
  | .cancelled => .error .cancelled
  | .failed e => .error (.failed (.pir e))
  | .served n _ => .ok n.node.complete

/-- `PirHttpClient::sync`: a `409` is no delta, any other status an error. -/
def sync (reply : Reply T B) (fromBlock toBlock : Nat) (epoch : String) (plaintextBits arity : Nat) :
    Except Halt (Option BlockDelta) :=
  match reply with
  | .cancelled => .error .cancelled
  | .failed (.status 409 _) => .ok none
  | .failed e => .error (.failed (.pir e))
  | .served n _ =>
      match n.node.sync (some epoch) (some (fromBlock, toBlock)) with
      | .error refusal =>
          match statusOf refusal with
          | .status 409 _ => .ok none
          | e => .error (.failed (.pir e))
      | .ok body =>
          match decodeBlockDelta body plaintextBits arity with
          | .error e => .error (.failed (.pir (.wire e.display)))
          | .ok delta => .ok (some delta)

/-- `PirHttpClient::answer`. -/
def answer (reply : Reply T B) (queries : List Query) (epoch : String)
    (reshapeRowWidthPerSeg : List Nat) (arity : Nat) : Except Halt (List Response × Nat) :=
  match reply with
  | .cancelled => .error .cancelled
  | .failed e => .error (.failed (.pir e))
  | .served n _ =>
      match answerBody n.node (some epoch) (encodeQueryBundle queries) with
      | .error refusal => .error (.failed (.pir (statusOf refusal)))
      | .ok body =>
          match decodeResponseBundle body reshapeRowWidthPerSeg arity with
          | .error e => .error (.failed (.pir (.wire e.display)))
          | .ok out => .ok out

end Reply

/-- The reply to the next request. -/
def next (replies : List (Reply T B)) : Reply T B := replies.head?.getD .cancelled

structure Session {p : CuckooParams} (C : SegmentedCuckoo p) (B : PirBackend) where
  client : RisePirClient C B
  pendingHead : Nat
  arity : Nat
  plaintextBits : Nat
  reshapeRowWidthPerSeg : List Nat
  strictNotFound : Bool
  epoch : String

/-- A session of any geometry. -/
structure AnySession (T : Tables) (B : PirBackend) where
  params : CuckooParams
  session : Session (T params) B

/-- `Session::from_bundle`. -/
def AnySession.fromBundle (T : Tables) (B : PirBackend) (keccak256 : List UInt8 → List UInt8)
    (bundle : SetupBundle) (valueCodec : ValueCodec) (complete : Bool) : AnySession T B where
  params := bundle.params
  session :=
    { client := .fromSetup (T bundle.params) B bundle valueCodec
      pendingHead := bundle.block
      arity := bundle.params.arity
      plaintextBits := bundle.params.plaintextBits
      reshapeRowWidthPerSeg := bundle.backendParams.map (·.reshapeRowWidth)
      strictNotFound := !complete
      epoch := lineageEpoch keccak256 bundle.backendParams }

section Attempt

variable {p : CuckooParams} {C : SegmentedCuckoo p}

/-- What an operation leaves: the session, the replies not yet read, and its result. -/
abbrev Ran (T : Tables) {p : CuckooParams} (C : SegmentedCuckoo p) (B : PirBackend) (α : Type) : Type :=
  Session C B × List (Reply T B) × Except Halt α

/-- `sync_to`. -/
def syncTo (s : Session C B) (target : Nat) (replies : List (Reply T B)) : Ran T C B Unit :=
  if target ≤ s.pendingHead then (s, replies, .ok ())
  else
    match (next replies).sync s.pendingHead target s.epoch s.plaintextBits s.arity with
    | .error halt => (s, replies.tail, .error halt)
    | .ok none => (s, replies.tail, .error (.failed .stalled))
    | .ok (some delta) =>
        match s.client.ingestDelta delta with
        | (client, .error e) => ({ s with client }, replies.tail, .error (.failed (.client e)))
        | (client, .ok ()) =>
            ({ s with client, pendingHead := delta.block }, replies.tail, .ok ())

/-- A lookup's outcome as a balance: absence is zero only in a complete deployment. -/
def balanceOf (strictNotFound : Bool) : Lookup → Except Halt Balance
  | .found balance => .ok balance
  | .notFound => if strictNotFound then .error (.failed .notInTrackedSet) else .ok 0
  | .decodeFailed => .error (.failed .decodeFailed)

/-- `finish`, with its errors as the session reports them. -/
def finishLookup (s : Session C B) (key : AddressHash) (ctx : QueryCtx) (responses : List Response)
    (atBlock : Nat) : Except Halt Balance :=
  match s.client.finish .simple key ctx responses atBlock with
  | none => .error .panicked
  | some (.error (.responseBlockMismatch _ _)) => .error (.failed .stalled)
  | some (.error e) => .error (.failed (.client e))
  | some (.ok lookup) => balanceOf s.strictNotFound lookup

/-- The reply to `POST /answer`; a `409` is the lineage gate, and as good as a stall. -/
def awaitAnswer (s : Session C B) (queries : List Query) (replies : List (Reply T B)) :
    Except Halt (List Response × Nat) :=
  match (next replies).answer queries s.epoch s.reshapeRowWidthPerSeg s.arity with
  | .error (.failed (.pir (.status 409 _))) => .error (.failed .stalled)
  | out => out

/-- `try_get_balance`. -/
def tryGetBalance (coins : Nat → B.Coins) (key : AddressHash) (s : Session C B)
    (replies : List (Reply T B)) : Ran T C B Balance :=
  match (next replies).head with
  | .error halt => (s, replies.tail, .error halt)
  | .ok serverHead =>
      match syncTo s serverHead replies.tail with
      | (s, replies, .error halt) => (s, replies, .error halt)
      | (s, replies, .ok ()) =>
          let (client, queries, ctx) := s.client.buildQuery coins key
          let s := { s with client }
          match awaitAnswer s queries replies with
          | .error halt => (s, replies.tail, .error halt)
          | .ok (responses, atBlock) =>
              match syncTo s atBlock replies.tail with
              | (s, replies, .error halt) => (s, replies, .error halt)
              | (s, replies, .ok ()) => (s, replies, finishLookup s key ctx responses atBlock)

end Attempt

/-- `PrivateEth`, without its transport; the clock of `last_rebootstrap` counts seconds. -/
structure PrivateEth (T : Tables) (B : PirBackend) where
  session : AnySession T B
  lastRebootstrap : Option Nat
  valueCodec : ValueCodec

/-- Seconds. -/
def REBOOTSTRAP_COOLDOWN : Nat := 300

namespace PrivateEth

/-- `from_setup`, from the setup response on. -/
def fromSetup (T : Tables) (B : PirBackend) (keccak256 : List UInt8 → List UInt8)
    (bundle : SetupBundle) (complete : Bool) (valueCodec : ValueCodec) : PrivateEth T B where
  session := .fromBundle T B keccak256 bundle valueCodec complete
  lastRebootstrap := none
  valueCodec := valueCodec

/-- `take_rebootstrap_slot` at time `now`. -/
def takeRebootstrapSlot (eth : PrivateEth T B) (now : Nat) : PrivateEth T B × Bool :=
  match eth.lastRebootstrap with
  | some prev =>
      if now - prev < REBOOTSTRAP_COOLDOWN then (eth, false)
      else ({ eth with lastRebootstrap := some now }, true)
  | none => ({ eth with lastRebootstrap := some now }, true)

/-- The completeness mode of a setup response: its header's, or `GET /mode`'s without one. -/
def modeOf (headerMode : Option Bool) (replies : List (Reply T B)) :
    List (Reply T B) × Except Halt Bool :=
  match headerMode with
  | some complete => (replies, .ok complete)
  | none => (replies.tail, (next replies).mode)

/-- `rebootstrap`: the whole session is replaced, or nothing is. -/
def rebootstrap (keccak256 : List UInt8 → List UInt8) (eth : PrivateEth T B)
    (replies : List (Reply T B)) : PrivateEth T B × List (Reply T B) × Except Halt Unit :=
  match (next replies).setupWithMode with
  | .error halt => (eth, replies.tail, .error halt)
  | .ok (bundle, headerMode) =>
      match modeOf headerMode replies.tail with
      | (replies, .error halt) => (eth, replies, .error halt)
      | (replies, .ok complete) =>
          ({ eth with session := .fromBundle T B keccak256 bundle eth.valueCodec complete }, replies,
            .ok ())

/-- One attempt on whatever session there is. -/
def attempt (coins : Nat → B.Coins) (key : AddressHash) (eth : PrivateEth T B)
    (replies : List (Reply T B)) : PrivateEth T B × List (Reply T B) × Except Halt Balance :=
  let out := tryGetBalance coins key eth.session.session replies
  ({ eth with session := ⟨eth.session.params, out.1⟩ }, out.2)

/-- `get_balance`, for the key of the address: a stalled first attempt is followed by at most
one re-bootstrap and one more attempt. -/
def getBalance (keccak256 : List UInt8 → List UInt8) (coins coins' : Nat → B.Coins) (now : Nat)
    (key : AddressHash) (eth : PrivateEth T B) (replies : List (Reply T B)) :
    PrivateEth T B × List (Reply T B) × Except Halt Balance :=
  match eth.attempt coins key replies with
  | (eth, replies, .error (.failed .stalled)) =>
      match eth.takeRebootstrapSlot now with
      | (eth, false) => (eth, replies, .error (.failed .stalled))
      | (eth, true) =>
          match eth.rebootstrap keccak256 replies with
          | (eth, replies, .error halt) => (eth, replies, .error halt)
          | (eth, replies, .ok ()) => eth.attempt coins' key replies
  | out => out

/-- `follow_once`; what it measured of the fetch is left out. -/
def followOnce (eth : PrivateEth T B) (replies : List (Reply T B)) :
    PrivateEth T B × List (Reply T B) × Except Halt Unit :=
  match (next replies).head with
  | .error halt => (eth, replies.tail, .error halt)
  | .ok head =>
      if head ≤ eth.session.session.pendingHead then (eth, replies.tail, .ok ())
      else
        let out := syncTo eth.session.session head replies.tail
        ({ eth with session := ⟨eth.session.params, out.1⟩ }, out.2)

end PrivateEth

end RisePir.Rpc.NativeSession
