import RisePir.Wasm.BrowserSession

set_option autoImplicit false
set_option relaxedAutoImplicit false

/-! The browser's host side: one `getBalance` drives the wasm session through its steps and
does the requests between them. The module sees block numbers as signed 64-bit integers. -/

namespace RisePir.Web.PirSession

open RisePir.Lib.Digits
open RisePir.Proto.Types
open RisePir.Proto.Value
open RisePir.Upstream.Cuckoo
open RisePir.Upstream.Pir
open RisePir.Client.Core
open RisePir.Server.Core
open RisePir.Http.Bundles
open RisePir.Http.Node
open RisePir.Lib.Text (hexBytes)
open RisePir.Rpc.NativeSession (AnyNode Tables statusOf)
open RisePir.Wasm.BrowserSession

/-- What a method throws: the named errors, anything `fetch` throws, or a trap of the module. -/
inductive Failure
  | pirError (msg : String)
  | timeout (msg : String)
  | staleSetup (msg : String)
  | thrown (msg : String)
  | trapped
  deriving DecidableEq, Repr

/-- A wasm `i64` as the host reads it. -/
def signed (n : Nat) : Int := (BitVec.ofNat 64 n).toInt

inductive Request
  | head
  | sync (fromBlock toBlock : Int) (epoch : String)
  | answer (epoch : String) (body : List UInt8)
  deriving DecidableEq, Repr

/-- Method and path. -/
def Request.display : Request → String
  | .head => "GET /head"
  | .sync fromBlock toBlock epoch => s!"GET /sync?from={fromBlock}&to={toBlock}&epoch={epoch}"
  | .answer epoch _ => s!"POST /answer?epoch={epoch}"

/-- What becomes of one request: silence, a transport failure, a status that is not a success,
a body of anybody's making, or the reply of a node. -/
inductive Reply (T : Tables) (B : PirBackend)
  | silent
  | dropped (msg : String)
  | status (code : Nat) (text : String)
  | body (bytes : List UInt8)
  | served (n : AnyNode T B)

variable {T : Tables} {B : PirBackend}

/-- `409` is a stale setup, any other refusal a `PirError`. -/
def ofStatus (request : Request) (code : Nat) (text : String) : Failure :=
  if code = 409 then .staleSetup text else .pirError s!"{request.display}: {code} {text}"

/-- The range of a `/sync` query; a negative number does not parse. -/
def syncRange (fromBlock toBlock : Int) : Option (Nat × Nat) :=
  if 0 ≤ fromBlock ∧ 0 ≤ toBlock then some (fromBlock.toNat, toBlock.toNat) else none

/-- A node's reply to a request. -/
def respond (n : AnyNode T B) : Request → Except Refusal (List UInt8)
  | .head => .ok (leBytes 8 n.node.server.block)
  | .sync fromBlock toBlock epoch => n.node.sync (some epoch) (syncRange fromBlock toBlock)
  | .answer epoch body => answerBody n.node (some epoch) body

/-- `#get` and `#post`. -/
def Reply.read (reply : Reply T B) (request : Request) : Except Failure (List UInt8) :=
  match reply with
  | .silent => .error (.timeout s!"{request.display}: no response for 45s")
  | .dropped msg => .error (.thrown msg)
  | .status code text => .error (ofStatus request code text)
  | .body bytes => .ok bytes
  | .served n =>
      match respond n request with
      | .ok bytes => .ok bytes
      | .error refusal =>
          match statusOf refusal with
          | .status code text => .error (ofStatus request code text)
          | _ => .error .trapped

/-- `readU64LE`. -/
def readU64LE (bytes : List UInt8) : Except Failure Nat :=
  if bytes.length ≠ 8 then .error (.pirError s!"expected 8 bytes, got {bytes.length}")
  else .ok (leNat bytes)

/-- The white space and line terminators that `trim` strips. -/
def isTrimmed (c : Char) : Bool :=
  c.toNat ∈ [0x9, 0xa, 0xb, 0xc, 0xd, 0x20, 0xa0, 0x1680, 0x2028, 0x2029, 0x202f, 0x205f, 0x3000, 0xfeff] ||
    (0x2000 ≤ c.toNat && c.toNat ≤ 0x200a)

/-- `parseAddress`. -/
def parseAddress (address : String) : Option (List UInt8) :=
  let s := ((address.toList.dropWhile isTrimmed).reverse.dropWhile isTrimmed).reverse
  match s with
  | '0' :: 'x' :: hex => if hex.length = 40 then hexBytes hex else none
  | _ => none

/-- `String.prototype.includes`. -/
def includes (text part : String) : Bool := decide (part.toList <:+: text.toList)

inductive Status
  | found
  | zero
  | untracked
  | decodeFailed
  deriving DecidableEq, Repr

/-- What `getBalance` returns. -/
structure Answered where
  status : Status
  balanceWei : Option Nat
  atBlock : Int
  deriving DecidableEq, Repr

def Answered.ofOutcome (atBlock : Int) : Outcome → Answered
  | .found balance => ⟨.found, some balance, atBlock⟩
  | .zero => ⟨.zero, some 0, atBlock⟩
  | .untracked => ⟨.untracked, none, atBlock⟩
  | .decodeFailed => ⟨.decodeFailed, none, atBlock⟩

/-- One call of `getBalance`: its argument, its entropy, and what becomes of each request it
may make. -/
structure BalanceCall (T : Tables) (B : PirBackend) where
  address : String
  coins : Nat → B.Coins
  head : Reply T B
  sync : Reply T B
  answer : Reply T B
  resync : Reply T B

section Steps

variable {p : CuckooParams} {C : SegmentedCuckoo p}

/-- What `#syncTo` does with the body. -/
def ingestRange (s : Session C B) (fromBlock toBlock : Int) (bytes : List UInt8) :
    Session C B × Except Failure Unit :=
  match s.ingest bytes with
  | (s, .error e) => (s, .error (.pirError s!"sync ({fromBlock}, {toBlock}]: {e.display}"))
  | (s, .ok head) =>
      if signed head < 0 then (s, .error (.pirError s!"sync ({fromBlock}, {toBlock}]: "))
      else (s, .ok ())

/-- `#syncTo`. -/
def syncTo (s : Session C B) (toBlock : Int) (reply : Reply T B) : Session C B × Except Failure Unit :=
  let fromBlock := signed s.pendingHead
  if toBlock ≤ fromBlock then (s, .ok ())
  else
    match reply.read (.sync fromBlock toBlock s.epoch) with
    | .error e => (s, .error e)
    | .ok bytes => ingestRange s fromBlock toBlock bytes

/-- The `finish` of an accepted answer, with its one retry. A trap leaves no session. -/
def finishAt (s : Session C B) (atBlock : Nat) (resync : Reply T B) :
    Option (Session C B) × Except Failure Answered :=
  match s.finish with
  | none => (none, .error .trapped)
  | some (s, .ok outcome) => (some s, .ok (.ofOutcome (signed atBlock) outcome))
  | some (s, .error why) =>
      if !includes why.display "sync" then (some s, .error (.pirError why.display))
      else
        match syncTo s (signed atBlock) resync with
        | (s, .error e) => (some s, .error e)
        | (s, .ok ()) =>
            match s.finish with
            | none => (none, .error .trapped)
            | some (s, .ok outcome) => (some s, .ok (.ofOutcome (signed atBlock) outcome))
            | some (s, .error why) => (some s, .error (.pirError why.display))

/-- From the built query on. -/
def askFor (s : Session C B) (query : List UInt8) (call : BalanceCall T B) :
    Option (Session C B) × Except Failure Answered :=
  match call.answer.read (.answer s.epoch query) with
  | .error e => (some s, .error e)
  | .ok response =>
      match s.acceptAnswer response with
      | (s, .error e) => (some s, .error (.pirError e.display))
      | (s, .ok atBlock) =>
          if signed atBlock < 0 then (some s, .error (.pirError ""))
          else finishAt s atBlock call.resync

/-- From the first sync on. -/
def lookUp (keccak256 : List UInt8 → List UInt8) (s : Session C B) (addr : List UInt8)
    (call : BalanceCall T B) : Option (Session C B) × Except Failure Answered :=
  match s.buildQuery keccak256 call.coins addr with
  | (s, .error e) => (some s, .error (.pirError e.display))
  | (s, .ok query) => askFor s query call

/-- `getBalance`. -/
def getBalance (keccak256 : List UInt8 → List UInt8) (s : Session C B) (call : BalanceCall T B) :
    Option (Session C B) × Except Failure Answered :=
  match parseAddress call.address with
  | none => (some s, .error (.pirError
      "not an Ethereum address: expected 0x followed by 40 hex characters"))
  | some addr =>
      match call.head.read .head >>= readU64LE with
      | .error e => (some s, .error e)
      | .ok head =>
          match syncTo s head call.sync with
          | (s, .error e) => (some s, .error e)
          | (s, .ok ()) => lookUp keccak256 s addr call

/-- Calls one after the other on one session; a trapped module answers none of them. -/
def run (keccak256 : List UInt8 → List UInt8) (s : Option (Session C B)) (calls : List (BalanceCall T B)) :
    Option (Session C B) :=
  calls.foldl (fun s call => s.bind fun s => (getBalance keccak256 s call).1) s

end Steps

end RisePir.Web.PirSession
