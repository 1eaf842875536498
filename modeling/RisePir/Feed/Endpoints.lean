import RisePir.Feed.Trace
import RisePir.Lib.Interleaving

set_option autoImplicit false
set_option relaxedAutoImplicit false

/-! The JSON-RPC feed over its endpoints. A call asks the endpoints in order, each only once it has
reported the deployment's chain, and the calls that run at the same time share what is known of the
endpoints. -/

namespace RisePir.Feed.Endpoints

open RisePir.Lib.Interleaving
open RisePir.Proto.Types
open RisePir.Feed.Rpc (Address FetchedBlock WEI_PER_GWEI hashed)
open RisePir.Feed.Trace (Value parseHexU128 parseAddress changesFromTrace)

inductive FeedError
  | internal (msg : String)
  | rpc (method detail : String)
  | depthRefused (method detail : String)
  | parse (context detail : String)
  | chainIdMismatch (expected got : Nat)
  deriving DecidableEq, Repr

/-- The `Display` of an error. -/
instance : ToString FeedError where
  toString
    | .internal msg => s!"feed error: {msg}"
    | .rpc method detail => s!"rpc {method} failed: {detail}"
    | .depthRefused method detail => s!"rpc {method} refused (archive depth?): {detail}"
    | .parse context detail => s!"rpc {context}: malformed result: {detail}"
    | .chainIdMismatch expected got => s!"endpoint serves chain id {got}, expected {expected}"

/-- A failure of `changes_from_trace`. -/
def FeedError.ofTrace : Rpc.FeedError → FeedError
  | .parse method detail => .parse method detail

/-- What a POST comes to. -/
inductive HttpOutcome
  | transport (e : String)
  | bodyRead (e : String)
  | response (status : Nat) (bytes : List UInt8)
  deriving DecidableEq, Repr

/-- What the client's libraries make of bytes and values. -/
structure Libraries where
  /-- `serde_json::from_slice`. -/
  fromSlice : List UInt8 → Except String Value
  /-- The `Display` of a JSON value. -/
  render : Value → String
  /-- `String::from_utf8_lossy`. -/
  fromUtf8Lossy : List UInt8 → String
  /-- The `Display` of a status code. -/
  statusText : Nat → String
  /-- The `Debug` form of a string. -/
  debug : String → String

/-- `Value::as_i64`, of a number's text. -/
def asI64 : Value → Option Int
  | .number text =>
      match text.toInt? with
      | some n => if text ≠ "-0" ∧ -2 ^ 63 ≤ n ∧ n < 2 ^ 63 then some n else none
      | none => none
  | _ => none

def NEEDLES : List String :=
  ["archive", "missing trie node", "state is not available", "state unavailable", "pruned"]

def looksLikeDepthRefusal (status : Nat) (code : Option Int) (message : String) : Bool :=
  if status = 403 then true
  else if code = some (-32602) ∨ code = some (-32000) then
    NEEDLES.any fun needle => needle.toList <:+: message.toList.map Char.toLower
  else false

section Reading

variable (libs : Libraries)

/-- `extract_json_rpc_code_message`. -/
def extractJsonRpcCodeMessage (bytes : List UInt8) : Option Int × String :=
  match libs.fromSlice bytes with
  | .error _ => (none, "")
  | .ok value =>
      let obj := (value.get "error").getD value
      ((obj.get "code").bind asI64, ((obj.get "message").bind Value.asStr).getD "")

/-- The `classified_err` of a call. -/
def classifiedErr (method : String) (status : Nat) (code : Option Int) (message detail : String) :
    FeedError :=
  if looksLikeDepthRefusal status code message then .depthRefused method detail
  else .rpc method detail

/-- `call`, once the POST has come to something. -/
def readReply (method : String) : HttpOutcome → Except FeedError Value
  | .transport e => .error (.rpc method s!"transport: {e}")
  | .bodyRead e => .error (.rpc method s!"body read: {e}")
  | .response status bytes =>
      if ¬ (200 ≤ status ∧ status < 300) then
        let (code, message) := extractJsonRpcCodeMessage libs bytes
        let shown := libs.fromUtf8Lossy (bytes.take 200)
        let status_text := libs.statusText status
        .error (classifiedErr method status code message s!"HTTP {status_text}: {shown}")
      else
        match libs.fromSlice bytes with
        | .error e => .error (.rpc method s!"invalid JSON: {e}")
        | .ok envelope =>
            match envelope.get "error" with
            | some err =>
                let code := (err.get "code").bind asI64
                let message := ((err.get "message").bind Value.asStr).getD ""
                let shown := libs.render err
                .error (classifiedErr method status code message s!"JSON-RPC error: {shown}")
            | none =>
                match envelope.get "result" with
                | some result => .ok result
                | none => .error (.rpc method "response has neither result nor error")

/-- The value of `opt`, or a parse error. -/
def require {α : Type} (method detail : String) : Option α → Except FeedError α
  | some a => .ok a
  | none => .error (.parse method detail)

/-- A hex quantity of a reply. -/
def requireQuantity (method : String) (ctx : String → String) (s : String) : Except FeedError Nat :=
  match parseHexU128 libs.debug s with
  | .ok n => .ok n
  | .error e => .error (.parse method (ctx e))

/-- `verify_chain`, once the endpoint has replied. -/
def readChainId (expected : Nat) (reply : Except FeedError Value) : Except FeedError Unit := do
  let got ← reply
  let text ← require "eth_chainId" "result is not a string" got.asStr
  let got ← requireQuantity libs "eth_chainId" id text
  if 2 ^ 64 ≤ got then .error (.parse "eth_chainId" "does not fit u64")
  else if got ≠ expected then .error (.chainIdMismatch expected got)
  else .ok ()

def FINALIZED : String := "eth_getBlockByNumber(finalized)"

/-- `finalized_on`, once the endpoint has replied. -/
def readFinalized (reply : Except FeedError Value) : Except FeedError Nat := do
  let block ← reply
  let text ← require FINALIZED "missing number" ((block.get "number").bind Value.asStr)
  let num ← requireQuantity libs FINALIZED id text
  if 2 ^ 64 ≤ num then .error (.parse FINALIZED "block number does not fit u64") else .ok num

/-- One withdrawal of `credits_from_block`. -/
def creditOf (w : Value × Nat) : Except FeedError (Address × Balance) := do
  let ctx := fun what => s!"withdrawals[{w.2}]: {what}"
  let addr ← require "eth_getBlockByNumber" (ctx "bad address")
    (((w.1.get "address").bind Value.asStr).bind parseAddress)
  let text ← require "eth_getBlockByNumber" (ctx "missing amount")
    ((w.1.get "amount").bind Value.asStr)
  let gwei ← requireQuantity libs "eth_getBlockByNumber" ctx text
  if gwei * WEI_PER_GWEI < 2 ^ 128 then .ok (addr, gwei * WEI_PER_GWEI)
  else .error (.parse "eth_getBlockByNumber" (ctx "amount overflows wei"))

/-- `credits_from_block`. -/
def creditsFromBlock (block : Value) : Except FeedError (List (Address × Balance)) :=
  match block.get "withdrawals" with
  | none => .ok []
  | some withdrawals => do
      let items ← require "eth_getBlockByNumber" "withdrawals is not an array" withdrawals.asArray
      items.zipIdx.mapM (creditOf libs)

/-- The first half of `block_update_on`: the block's credits. -/
def readCredits (n : Nat) (reply : Except FeedError Value) :
    Except FeedError (List (Address × Balance)) := do
  let block ← reply
  match block with
  | .null => .error (.rpc "eth_getBlockByNumber" s!"block {n} not available on this endpoint")
  | block => creditsFromBlock libs block

/-- The second half of `block_update_on`. -/
def readUpdate (keccak256 : Address → AddressHash) (n : Nat) (credited : List (Address × Balance))
    (reply : Except FeedError Value) : Except FeedError FetchedBlock := do
  let trace ← reply
  match changesFromTrace libs.debug trace with
  | .error e => .error (.ofTrace e)
  | .ok changed =>
      .ok ⟨⟨n, hashed keccak256 changed, hashed keccak256 credited⟩, changed, credited⟩

end Reading

/-- A JSON-RPC method with its parameters. -/
structure Request where
  method : String
  params : List Value

/-- `{n:x}` behind `0x`. -/
def hexQuantity (n : Nat) : String := "0x" ++ String.ofList (Nat.toDigits 16 n)

def chainIdRequest : Request := ⟨"eth_chainId", []⟩

def finalizedRequest : Request := ⟨"eth_getBlockByNumber", [.string "finalized", .bool false]⟩

def blockRequest (n : Nat) : Request :=
  ⟨"eth_getBlockByNumber", [.string (hexQuantity n), .bool false]⟩

def traceRequest (n : Nat) : Request :=
  ⟨"debug_traceBlockByNumber", [.string (hexQuantity n),
    .object [("tracer", .string "prestateTracer"),
      ("tracerConfig", .object [("diffMode", .bool true)])]]⟩

/-- What a call asks: a POST to an endpoint, or the endpoint's `chain_verified`. -/
inductive Ask
  | post (i : Nat) (request : Request)
  | load (i : Nat)
  | store (i : Nat)

def Answer : Ask → Type
  | .post _ _ => HttpOutcome
  | .load _ => Bool
  | .store _ => Unit

abbrev Call (α : Type) := Prog Ask Answer α

def post (i : Nat) (request : Request) : Call HttpOutcome := Prog.perform (Ask.post i request)

def loadVerified (i : Nat) : Call Bool := Prog.perform (Ask.load i)

def storeVerified (i : Nat) : Call Unit := Prog.perform (Ask.store i)

section Calls

variable (libs : Libraries) (keccak256 : Address → AddressHash)

/-- `RpcClient::call` on endpoint `i`. -/
def call (i : Nat) (request : Request) : Call (Except FeedError Value) := do
  let outcome ← post i request
  return readReply libs request.method outcome

def verifyChain (i expected : Nat) : Call (Except FeedError Unit) := do
  let reply ← call libs i chainIdRequest
  return readChainId libs expected reply

def ensureChainVerified (i expected : Nat) : Call (Except FeedError Unit) := do
  let verified ← loadVerified i
  if verified then return .ok ()
  else
    let checked ← verifyChain libs i expected
    match checked with
    | .error e => return .error e
    | .ok () =>
        storeVerified i
        return .ok ()

def finalizedOn (i : Nat) : Call (Except FeedError Nat) := do
  let reply ← call libs i finalizedRequest
  return readFinalized libs reply

def blockUpdateOn (n i : Nat) : Call (Except FeedError FetchedBlock) := do
  let block ← call libs i (blockRequest n)
  match readCredits libs n block with
  | .error e => return .error e
  | .ok credited =>
      let trace ← call libs i (traceRequest n)
      return readUpdate libs keccak256 n credited trace

/-- `all_failed`. -/
def allFailed (method : String) (failures : List String) : FeedError :=
  let count := failures.length
  let reasons := " | ".intercalate failures
  .rpc method s!"all {count} endpoint(s) failed — {reasons}"

/-- The loop over the endpoints that `finalized` and `block_update` share. -/
def inOrder {α : Type} (expected : Nat) (method : String) (on : Nat → Call (Except FeedError α)) :
    List (Nat × String) → List String → Call (Except FeedError α)
  | [], failures => return .error (allFailed method failures)
  | (i, url) :: rest, failures => do
      let checked ← ensureChainVerified libs i expected
      match checked with
      | .error e => inOrder expected method on rest (failures ++ [s!"{url}: unverified ({e})"])
      | .ok () =>
          let result ← on i
          match result with
          | .ok a => return .ok a
          | .error e => inOrder expected method on rest (failures ++ [s!"{url}: {e}"])

/-- The endpoints with their positions. -/
def numbered (urls : List String) : List (Nat × String) := urls.zipIdx.map Prod.swap

/-- `RpcFeed::finalized`. -/
def finalized (urls : List String) (chainId : Nat) : Call (Except FeedError Nat) :=
  inOrder libs chainId FINALIZED (finalizedOn libs) (numbered urls) []

/-- `RpcFeed::block_update`. -/
def blockUpdate (urls : List String) (chainId n : Nat) : Call (Except FeedError FetchedBlock) :=
  inOrder libs chainId s!"block_update({n})" (blockUpdateOn libs keccak256 n) (numbered urls) []

/-- The loop of `new_multi`: what is known of each endpoint. -/
def openEach (expected : Nat) : List Nat → List Bool → Call (Except FeedError (List Bool))
  | [], verified => return .ok verified
  | i :: rest, verified => do
      let checked ← verifyChain libs i expected
      match checked with
      | .ok () => openEach expected rest (verified ++ [true])
      | .error (.chainIdMismatch expected got) => return .error (.chainIdMismatch expected got)
      | .error e =>
          if i = 0 then return .error e else openEach expected rest (verified ++ [false])

/-- `RpcFeed::new_multi`. -/
def newMulti (urls : List String) (expected : Nat) : Call (Except FeedError (List Bool)) :=
  if urls = [] then return .error (.internal "feed needs at least one endpoint URL")
  else openEach libs expected (List.range urls.length) []

end Calls

end RisePir.Feed.Endpoints
