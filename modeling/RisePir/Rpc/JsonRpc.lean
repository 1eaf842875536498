import RisePir.Rpc.Front
import RisePir.Rpc.Traffic

set_option autoImplicit false
set_option relaxedAutoImplicit false

/-! The JSON-RPC endpoint: every method but four is denied or, where the operator opted in,
forwarded. Requests wait for the session lock in any order, and what leaves the process does
not tell which account a request asks for. -/

namespace RisePir.Rpc.JsonRpc

open RisePir.Proto.Types
open RisePir.Proto.Value
open RisePir.Upstream.Cuckoo
open RisePir.Upstream.Pir
open RisePir.Upstream.ReferencePir
open RisePir.Upstream.ReferenceTable
open RisePir.Server.Small
open RisePir.Server.Telescope
open RisePir.Http.Serving
open RisePir.Rpc.Front
open RisePir.Rpc.Moves
open RisePir.Rpc.NativeSession
open RisePir.Rpc.Traffic

/-- `serde_json::Value`; a number is its text, an object its distinct keys in order. -/
inductive Value
  | null
  | bool (b : Bool)
  | number (text : String)
  | string (s : String)
  | array (items : List Value)
  | object (fields : List (String × Value))

namespace Value

/-- `Value::get` with a string: `none` for any shape but an object. -/
def get (key : String) : Value → Option Value
  | .object fields => (fields.find? fun field => field.1 = key).map Prod.snd
  | _ => none

def asStr : Value → Option String
  | .string s => some s
  | _ => none

def isObject : Value → Bool
  | .object _ => true
  | _ => false

end Value

/-- What `serde` makes of a body, and of the parameters of `eth_getBalance`. -/
structure Serde where
  fromSlice : List UInt8 → Except String Value
  balanceParams : Value → Except String (String × String)

def KNOWN_METHODS : List String := ["eth_getBalance", "eth_chainId", "net_version", "eth_blockNumber"]

/-- `parse_method_and_params`. -/
def parseMethodAndParams (value : Value) : Except JsonRpcError (String × Value) :=
  if value.isObject then
    match (value.get "method").bind Value.asStr with
    | none => .error ⟨-32600, "invalid request: missing or non-string \"method\""⟩
    | some method => .ok (method, (value.get "params").getD (.array []))
  else .error ⟨-32600, "invalid request: expected a JSON object"⟩

def methodNotFound : JsonRpcError :=
  ⟨-32601, "method not found (this is a private eth_getBalance endpoint; other methods are denied " ++
    "by default — see --proxy-upstream)"⟩

/-- `format!("0x{n:x}")`. -/
def hexQuantity (n : Nat) : String := "0x" ++ String.ofList (Nat.toDigits 16 n)

/-- `envelope`: a result or an error, with the request's id. -/
def envelope (id : Value) : Except JsonRpcError Value → Value
  | .ok result => .object [("jsonrpc", .string "2.0"), ("id", id), ("result", result)]
  | .error e => .object [("jsonrpc", .string "2.0"), ("id", id),
      ("error", .object [("code", .number (toString e.code)), ("message", .string e.message)])]

/-- What the operator's upstream does with a forwarded body. -/
inductive UpstreamReply
  | unreachable (err : String)
  | cut (err : String)
  | answered (status : Nat) (contentType : Option String) (body : List UInt8)
  deriving DecidableEq, Repr

/-- A response to the caller: an envelope under status 200, or a plain one. -/
inductive Response
  | json (value : Value)
  | plain (status : Nat) (contentType : String) (body : List UInt8)

def textResponse (status : Nat) (text : String) : Response :=
  .plain status "text/plain; charset=utf-8" text.toUTF8.toList

/-- `proxy_forward`, from the upstream's reply on: never wrapped in an envelope. A body is bytes
unless the upstream says otherwise. -/
def proxyForward : UpstreamReply → Response
  | .unreachable err => textResponse 502 s!"proxy_upstream request failed: {err}"
  | .cut err => textResponse 502 s!"proxy_upstream response body read failed: {err}"
  | .answered status contentType body =>
      .plain status (contentType.getD "application/octet-stream") body

def MAX_RPC_BODY_BYTES : Nat := 1024 * 1024

/-- The configuration of an endpoint. -/
structure Endpoint where
  serde : Serde
  debug : String → String
  keccak256 : List UInt8 → List UInt8
  chainId : Nat
  proxyUpstream : Option String

/-- What leaves the process: a request to the node, a body to the upstream, a response. -/
inductive Emission
  | toNode (sent : Sent)
  | toUpstream (body : List UInt8)
  | toCaller (response : Response)

/-- A request that waits for the session lock. -/
structure Waiting where
  id : Value
  key : AddressHash

/-- A result under the request's id. -/
def reply (id : Value) (result : Except JsonRpcError Value) : List Emission :=
  [.toCaller (.json (envelope id result))]

/-- An outcome under the request's id; a request that was dropped gets no envelope. -/
def replyOutcome (id : Value) : Outcome → List Emission
  | .dropped => []
  | .error e => reply id (.error e)
  | .number balance => reply id (.ok (.string (hexQuantity balance)))

variable {T : Tables} {B : PirBackend}

/-- `eth_get_balance`, up to the session lock. -/
def ethGetBalance (ep : Endpoint) (id params : Value) (head : Reply T B) :
    List Emission × Option Waiting :=
  match ep.serde.balanceParams params with
  | .error e => (reply id (.error (.invalidParams ("eth_getBalance expects params [address, block]: " ++
      e))), none)
  | .ok (addrStr, blockStr) =>
      match parseAddress addrStr with
      | none => (reply id (.error (.invalidParams "address must be a 0x-prefixed 20-byte hex string")),
          none)
      | some addr20 =>
          match head.head with
          | .error halt => (.toNode headRequest :: replyOutcome id (.ofHalt halt), none)
          | .ok block =>
              match classifyBlockParam ep.debug blockStr block with
              | .error e => (.toNode headRequest :: reply id (.error e), none)
              | .ok () => ([.toNode headRequest], some ⟨id, addressKey ep.keccak256 addr20⟩)

/-- `eth_blockNumber`. -/
def ethBlockNumber (id : Value) (head : Reply T B) : List Emission :=
  .toNode headRequest ::
    match head.head with
    | .error halt => replyOutcome id (.ofHalt halt)
    | .ok block => reply id (.ok (.string (hexQuantity block)))

/-- `dispatch`. -/
def dispatch (ep : Endpoint) (id : Value) (method : String) (params : Value) (head : Reply T B) :
    List Emission × Option Waiting :=
  match method with
  | "eth_getBalance" => ethGetBalance ep id params head
  | "eth_chainId" => (reply id (.ok (.string (hexQuantity ep.chainId))), none)
  | "net_version" => (reply id (.ok (.string (toString ep.chainId))), none)
  | "eth_blockNumber" => (ethBlockNumber id head, none)
  | _ => (reply id (.error methodNotFound), none)

/-- `handle`; `head` and `upstream` are the replies to the head request and to the forwarded
body, where they are sent. -/
def handle (ep : Endpoint) (body : List UInt8) (head : Reply T B) (upstream : UpstreamReply) :
    List Emission × Option Waiting :=
  if MAX_RPC_BODY_BYTES < body.length then
    ([.toCaller (textResponse 413 "Failed to buffer the request body: length limit exceeded")], none)
  else
    match ep.serde.fromSlice body with
    | .error e => (reply .null (.error ⟨-32700, "parse error: " ++ e⟩), none)
    | .ok value =>
        let id := (value.get "id").getD .null
        match parseMethodAndParams value with
        | .error e => (reply id (.error e), none)
        | .ok (method, params) =>
            if method ∈ KNOWN_METHODS then dispatch ep id method params head
            else
              match ep.proxyUpstream with
              | some _ => ([.toUpstream body, .toCaller (proxyForward upstream)], none)
              | none => (reply id (.error methodNotFound), none)

/-- The endpoint between two events: its session and the requests that wait for it. -/
structure State (T : Tables) (B : PirBackend) where
  eth : PrivateEth T B
  waiting : List Waiting

/-- A body arrives, a waiting request takes the lock and runs its lookup, or it is dropped. -/
inductive Event (T : Tables) (B : PirBackend)
  | received (body : List UInt8) (head : Reply T B) (upstream : UpstreamReply)
  | locked (n : Nat) (coins coins' : Nat → B.Coins) (now : Nat) (replies : List (Reply T B))
  | dropped (n : Nat)

def step (ep : Endpoint) (s : State T B) : Event T B → State T B × List Emission
  | .received body head upstream =>
      let out := handle ep body head upstream
      ({ s with waiting := s.waiting ++ out.2.toList }, out.1)
  | .locked n coins coins' now replies =>
      match s.waiting[n]? with
      | none => (s, [])
      | some w =>
          let out := s.eth.getBalance ep.keccak256 coins coins' now w.key replies
          (⟨out.1, s.waiting.eraseIdx n⟩,
            (getBalanceSent ep.keccak256 coins coins' now w.key s.eth replies).map Emission.toNode ++
              replyOutcome w.id (.ofLookup out.2.2))
  | .dropped n => ({ s with waiting := s.waiting.eraseIdx n }, [])

/-- Everything that leaves the process over a run. -/
def emitted (ep : Endpoint) : State T B → List (Event T B) → List Emission
  | _, [] => []
  | s, event :: events => (step ep s event).2 ++ emitted ep (step ep s event).1 events

/-- What an observer outside the host sees of an emission: a request to the node but for the
contents of its body, and every byte that goes upstream. -/
def Emission.outward : Emission → Option ((Method × String × Nat) ⊕ List UInt8)
  | .toNode sent => some (.inl sent.visible)
  | .toUpstream body => some (.inr body)
  | .toCaller _ => none

section Denied

variable {ep : Endpoint}

theorem replyOutcome_outward (id : Value) (outcome : Outcome) :
    (replyOutcome id outcome).filterMap Emission.outward = [] := by
  cases outcome <;> rfl

theorem reply_upstream {id : Value} {result : Except JsonRpcError Value} {body : List UInt8} :
    .toUpstream body ∉ reply id result := by
  simp [reply]

theorem replyOutcome_upstream {id : Value} {outcome : Outcome} {body : List UInt8} :
    .toUpstream body ∉ replyOutcome id outcome := by
  cases outcome <;> simp [replyOutcome, reply]

theorem ethGetBalance_upstream {id params : Value} {head : Reply T B} {body : List UInt8} :
    .toUpstream body ∉ (ethGetBalance ep id params head).1 := by
  unfold ethGetBalance
  rcases ep.serde.balanceParams params with e | ⟨addrStr, blockStr⟩
  · exact reply_upstream
  · dsimp only
    cases parseAddress addrStr with
    | none => exact reply_upstream
    | some addr20 =>
        dsimp only
        cases head.head with
        | error halt => simp [replyOutcome_upstream]
        | ok block =>
            dsimp only
            cases classifyBlockParam ep.debug blockStr block with
            | error e => simp [reply_upstream]
            | ok u => simp

theorem dispatch_upstream {id params : Value} {method : String} {head : Reply T B}
    {body : List UInt8} : .toUpstream body ∉ (dispatch ep id method params head).1 := by
  unfold dispatch
  split
  · exact ethGetBalance_upstream
  · exact reply_upstream
  · exact reply_upstream
  · unfold ethBlockNumber
    dsimp only
    cases head.head with
    | error halt => simp [replyOutcome_upstream]
    | ok block => simp [reply_upstream]
  · exact reply_upstream

/-- A body of a method the endpoint answers itself, or of none. -/
def Own (ep : Endpoint) (body : List UInt8) : Prop :=
  ∀ value method params, ep.serde.fromSlice body = .ok value →
    parseMethodAndParams value = .ok (method, params) → method ∈ KNOWN_METHODS

/-- Only where the operator opted in, and only a body of a method it does not answer, is
forwarded, as it came. -/
theorem handle_upstream {body body' : List UInt8} {head : Reply T B} {upstream : UpstreamReply}
    (sent : .toUpstream body' ∈ (handle ep body head upstream).1) :
    body' = body ∧ ep.proxyUpstream.isSome = true ∧ ¬ Own ep body := by
  unfold handle at sent
  by_cases long : MAX_RPC_BODY_BYTES < body.length
  · rw [if_pos long] at sent
    simp at sent
  · rw [if_neg long] at sent
    cases hslice : ep.serde.fromSlice body with
    | error e =>
        rw [hslice] at sent
        exact absurd sent reply_upstream
    | ok value =>
        rw [hslice] at sent
        dsimp only at sent
        rcases hparse : parseMethodAndParams value with e | ⟨method, params⟩
        · rw [hparse] at sent
          exact absurd sent reply_upstream
        · rw [hparse] at sent
          dsimp only at sent
          by_cases known : method ∈ KNOWN_METHODS
          · rw [if_pos known] at sent
            exact absurd sent dispatch_upstream
          · rw [if_neg known] at sent
            cases hproxy : ep.proxyUpstream with
            | none =>
                rw [hproxy] at sent
                exact absurd sent reply_upstream
            | some url =>
                rw [hproxy] at sent
                simp only [List.mem_cons, Emission.toUpstream.injEq, reduceCtorEq, List.not_mem_nil,
                  or_self, or_false] at sent
                exact ⟨sent, rfl, fun own => known (own value method params hslice hparse)⟩

theorem emitted_upstream {s : State T B} {events : List (Event T B)} {body : List UInt8}
    (sent : .toUpstream body ∈ emitted ep s events) :
    ep.proxyUpstream.isSome = true ∧ ¬ Own ep body ∧
      ∃ head upstream, Event.received body head upstream ∈ events := by
  induction events generalizing s with
  | nil => cases sent
  | cons event events ih =>
      rw [emitted, List.mem_append] at sent
      rcases sent with first | rest
      · cases event with
        | received body' head upstream =>
            obtain ⟨rfl, opted, foreign⟩ := handle_upstream first
            exact ⟨opted, foreign, head, upstream, by simp⟩
        | locked n coins coins' now replies =>
            dsimp only [step] at first
            cases hwait : s.waiting[n]? with
            | none =>
                rw [hwait] at first
                cases first
            | some w =>
                rw [hwait] at first
                rcases List.mem_append.mp first with sent | replied
                · obtain ⟨r, -, heq⟩ := List.mem_map.mp sent
                  cases heq
                · exact absurd replied replyOutcome_upstream
        | dropped n => cases first
      · obtain ⟨opted, foreign, head, upstream, mem⟩ := ih rest
        exact ⟨opted, foreign, head, upstream, List.mem_cons_of_mem event mem⟩

end Denied

/-- A body that asks `eth_getBalance` for a well-formed address. -/
structure Asks (ep : Endpoint) (body : List UInt8) (id : Value) (addr20 : List UInt8)
    (block : String) : Prop where
  fits : ¬ MAX_RPC_BODY_BYTES < body.length
  parsed : ∃ value params addrStr, ep.serde.fromSlice body = .ok value ∧
    id = (value.get "id").getD .null ∧
    parseMethodAndParams value = .ok ("eth_getBalance", params) ∧
    ep.serde.balanceParams params = .ok (addrStr, block) ∧ parseAddress addrStr = some addr20

/-- One body, or two that ask for the balances of two accounts at the same block. -/
inductive SameButAddress (ep : Endpoint) : List UInt8 → List UInt8 → Prop
  | itself (body : List UInt8) : SameButAddress ep body body
  | asks {body body' addr addr' : List UInt8} {id id' : Value} {block : String}
      (asks : Asks ep body id addr block) (asks' : Asks ep body' id' addr' block) :
      SameButAddress ep body body'

/-- Two events that differ at most in the account asked for and in the secrets drawn. -/
inductive EventsAlike (ep : Endpoint) : Event T B → Event T B → Prop
  | received {body body' : List UInt8} (same : SameButAddress ep body body') (head : Reply T B)
      (upstream : UpstreamReply) :
      EventsAlike ep (.received body head upstream) (.received body' head upstream)
  | locked (n : Nat) (coins₁ coins₁' coins₂ coins₂' : Nat → B.Coins) (now : Nat)
      (replies : List (Reply T B)) :
      EventsAlike ep (.locked n coins₁ coins₁' now replies) (.locked n coins₂ coins₂' now replies)
  | dropped (n : Nat) : EventsAlike ep (.dropped n) (.dropped n)

/-- The replies to a lookup's requests come from honest nodes. -/
def Event.Honest : Event T B → Prop
  | .locked _ _ _ _ replies => HonestReplies replies
  | _ => True

structure StatesAlike (s s' : State T B) : Prop where
  eth : EthAlike s.eth s'.eth
  waiting : s.waiting.length = s'.waiting.length

section Hidden

variable {ep : Endpoint} {head : Reply T B} {upstream : UpstreamReply}

theorem dispatch_getBalance (id params : Value) :
    dispatch ep id "eth_getBalance" params head = ethGetBalance ep id params head := by
  simp [dispatch]

/-- A well-formed request is a head request, and a wait if the head suits its block. -/
theorem handle_asks {body addr : List UInt8} {id : Value} {block : String}
    (asks : Asks ep body id addr block) : handle ep body head upstream =
      match head.head with
      | .error halt => (.toNode headRequest :: replyOutcome id (.ofHalt halt), none)
      | .ok n =>
          match classifyBlockParam ep.debug block n with
          | .error e => (.toNode headRequest :: reply id (.error e), none)
          | .ok () => ([.toNode headRequest], some ⟨id, addressKey ep.keccak256 addr⟩) := by
  obtain ⟨fits, value, params, addrStr, hslice, rfl, hparse, hparams, haddr⟩ := asks
  unfold handle
  rw [if_neg fits, hslice]
  dsimp only
  rw [hparse]
  dsimp only
  rw [if_pos (by decide), dispatch_getBalance, ethGetBalance, hparams]
  dsimp only
  rw [haddr]

theorem handle_alike {body body' : List UInt8} (same : SameButAddress ep body body') :
    (handle ep body head upstream).1.filterMap Emission.outward =
        (handle ep body' head upstream).1.filterMap Emission.outward ∧
      (handle ep body head upstream).2.toList.length =
        (handle ep body' head upstream).2.toList.length := by
  cases same with
  | itself => exact ⟨rfl, rfl⟩
  | asks asks asks' =>
      rw [handle_asks asks, handle_asks asks']
      cases head.head with
      | error halt =>
          dsimp only
          rw [List.filterMap_cons, List.filterMap_cons, replyOutcome_outward, replyOutcome_outward]
          exact ⟨rfl, rfl⟩
      | ok n =>
          dsimp only
          cases classifyBlockParam ep.debug _ n with
          | error e => exact ⟨rfl, rfl⟩
          | ok u => exact ⟨rfl, rfl⟩

private theorem toNode_outward (sent : List Sent) (outcome : Outcome) (id : Value) :
    (sent.map Emission.toNode ++ replyOutcome id outcome).filterMap Emission.outward =
      (sent.map Sent.visible).map Sum.inl := by
  rw [List.filterMap_append, replyOutcome_outward, List.append_nil, List.filterMap_map]
  induction sent with
  | nil => rfl
  | cons a sent ih =>
      rw [List.filterMap_cons, List.map_cons, List.map_cons, ← ih]
      rfl

theorem step_alike (placement : ∀ p, (T p).PlacementLaws) (server : B.ServerLaws)
    (client : B.ClientLaws) {s s' : State T B} (alike : StatesAlike s s') {event event' : Event T B}
    (same : EventsAlike ep event event') (honest : event.Honest) :
    StatesAlike (step ep s event).1 (step ep s' event').1 ∧
      (step ep s event).2.filterMap Emission.outward =
        (step ep s' event').2.filterMap Emission.outward := by
  cases same with
  | received same head upstream =>
      obtain ⟨outward, count⟩ := handle_alike same
      refine ⟨⟨alike.eth, ?_⟩, outward⟩
      simp only [step, List.length_append, alike.waiting, count]
  | locked n coins₁ coins₁' coins₂ coins₂' now replies =>
      dsimp only [step]
      by_cases inside : n < s.waiting.length
      · have inside' : n < s'.waiting.length := alike.waiting ▸ inside
        rw [List.getElem?_eq_getElem inside, List.getElem?_eq_getElem inside']
        dsimp only
        obtain ⟨after, sent⟩ := getBalance_alike placement server client alike.eth honest now
        rw [toNode_outward, toNode_outward, sent]
        refine ⟨⟨after, ?_⟩, rfl⟩
        rw [List.length_eraseIdx_of_lt inside, List.length_eraseIdx_of_lt inside', alike.waiting]
      · rw [List.getElem?_eq_none (by omega), List.getElem?_eq_none (by rw [← alike.waiting]; omega)]
        exact ⟨alike, rfl⟩
  | dropped n =>
      refine ⟨⟨alike.eth, ?_⟩, rfl⟩
      simp only [step, List.length_eraseIdx, alike.waiting]

theorem emitted_alike (placement : ∀ p, (T p).PlacementLaws) (server : B.ServerLaws)
    (client : B.ClientLaws) {s s' : State T B} (alike : StatesAlike s s')
    {events events' : List (Event T B)} (same : List.Forall₂ (EventsAlike ep) events events')
    (honest : ∀ event ∈ events, event.Honest) :
    (emitted ep s events).filterMap Emission.outward =
      (emitted ep s' events').filterMap Emission.outward := by
  induction same generalizing s s' with
  | nil => rfl
  | cons first rest ih =>
      obtain ⟨after, outward⟩ := step_alike placement server client alike first (honest _ (by simp))
      rw [emitted, emitted, List.filterMap_append, List.filterMap_append, outward,
        ih after fun event mem => honest event (List.mem_cons_of_mem _ mem)]

end Hidden

/-- In every run of an endpoint, with any number of requests waiting for the session in any
order, what leaves for the node, but for the contents of the query bodies, and every byte that
goes upstream are the same whichever accounts the balance requests ask for; and nothing goes
upstream but the unchanged bodies of methods the endpoint does not answer, where the operator
opted in. -/
theorem endpoint_hides_account (placement : ∀ p, (T p).PlacementLaws) (server : B.ServerLaws)
    (client : B.ClientLaws) {ep : Endpoint} {first : AnyNode T B} (honest : Honest first)
    (complete : Bool) (codec : ValueCodec) {events events' : List (Event T B)}
    (same : List.Forall₂ (EventsAlike ep) events events')
    (replies : ∀ event ∈ events, event.Honest) :
    let s : State T B := ⟨.fromSetup T B ep.keccak256 first.node.setupBytes.2 complete codec, []⟩
    (emitted ep s events).filterMap Emission.outward =
        (emitted ep s events').filterMap Emission.outward ∧
      ∀ body, .toUpstream body ∈ emitted ep s events →
        ep.proxyUpstream.isSome = true ∧ ¬ Own ep body ∧
          ∃ head upstream, Event.received body head upstream ∈ events := by
  intro s
  have start : StatesAlike s s :=
    ⟨⟨fromBundle_alike client ep.keccak256 _ codec complete honest.rows, rfl, rfl⟩, rfl⟩
  exact ⟨emitted_alike placement server client start same replies, fun body => emitted_upstream⟩

def bytesOf (text : String) : List UInt8 := text.toList.map fun c => UInt8.ofNat c.toNat

private def otherAccount : String := "0x0000000000000000000000000000000000000002"

def textOf (method params : String) : List UInt8 :=
  bytesOf ("\x7b\"id\":7,\"method\":\"" ++ method ++ "\",\"params\":" ++ params ++ "\x7d")

def balanceText (account : String) : List UInt8 :=
  textOf "eth_getBalance" ("[\"" ++ account ++ "\",\"latest\"]")

private def gasText : List UInt8 := textOf "eth_gasPrice" "[]"

def valueOf (method : String) (params : List Value) : Value :=
  .object [("id", .number "7"), ("method", .string method), ("params", .array params)]

def balanceValue (account : String) : Value :=
  valueOf "eth_getBalance" [.string account, .string "latest"]

/-- What `serde` makes of the three texts. -/
def someTexts : Serde where
  fromSlice body :=
    if body = balanceText account then .ok (balanceValue account)
    else if body = balanceText otherAccount then .ok (balanceValue otherAccount)
    else if body = gasText then .ok (valueOf "eth_gasPrice" [])
    else .error "expected value at line 1 column 1"
  balanceParams
    | .array [.string address, .string block] => .ok (address, block)
    | _ => .error "invalid length 0, expected tuple struct GetBalanceParams with 2 elements"

/-- `keccak256` on two addresses, and on the lineage material of the small deployment. -/
private def twoDigest (bytes : List UInt8) : List UInt8 :=
  if bytes = List.replicate 19 0 ++ [2] then
    [213, 38, 136, 168, 249, 38, 200, 22, 202, 30, 7, 144, 103, 202, 186, 148, 79, 21, 142, 118, 72, 23, 184, 63,
      196, 53, 148, 55, 12, 169, 207, 98]
  else frontDigest bytes

private def optedIn : Endpoint :=
  ⟨someTexts, fun s => "\"" ++ s ++ "\"", twoDigest, 1, some "http://127.0.0.1:8545"⟩

theorem asks_account {ep : Endpoint} (texts : ep.serde = someTexts) :
    Asks ep (balanceText account) (.number "7") (List.replicate 19 0 ++ [1]) "latest" where
  fits := by decide +kernel
  parsed := by
    rw [texts]
    refine ⟨balanceValue account, .array [.string account, .string "latest"], account, ?_, rfl, rfl, rfl,
      by decide +kernel⟩
    dsimp only [someTexts]
    rw [if_pos rfl]

private theorem asks_other : Asks optedIn (balanceText otherAccount) (.number "7")
    (List.replicate 19 0 ++ [2]) "latest" where
  fits := by decide +kernel
  parsed := by
    refine ⟨balanceValue otherAccount, .array [.string otherAccount, .string "latest"], otherAccount, ?_,
      rfl, rfl, rfl, by decide +kernel⟩
    have other : balanceText otherAccount ≠ balanceText account := by decide +kernel
    dsimp only [optedIn, someTexts]
    rw [if_neg other, if_pos rfl]

private def endpointNode : AnyNode referenceTable referencePir := ⟨smallParams, smallNode⟩

private theorem endpointNode_honest : Honest endpointNode where
  sound := ⟨(smallServer_hintsMatch 0).1, by decide⟩
  rows := by decide

private def fromNode : Reply referenceTable referencePir := .served endpointNode true

private def secret (x : BitVec 32) (_ : Nat) : referencePir.Coins := Coins.mk 0 [x]

/-- A balance request, a forwarded one while it waits, and its lookup. -/
private def busy (body : List UInt8) (x : BitVec 32) : List (Event referenceTable referencePir) :=
  [.received body fromNode (.cut ""), .received gasText fromNode (.answered 200 none [0x7b, 0x7d]),
    .locked 0 (secret x) (secret x) 0 [fromNode, fromNode]]

private def fresh : State referenceTable referencePir :=
  ⟨.fromSetup referenceTable referencePir optedIn.keccak256 endpointNode.node.setupBytes.2 true
    smallCodec, []⟩

/-- Three requests to the node and one body upstream, for either account. -/
theorem endpoint_hides_account_two :
    ((emitted optedIn fresh (busy (balanceText account) 5)).filterMap Emission.outward).length = 4 ∧
      (emitted optedIn fresh (busy (balanceText account) 5)).filterMap Emission.outward =
        (emitted optedIn fresh (busy (balanceText otherAccount) 9)).filterMap Emission.outward := by
  have same : List.Forall₂ (EventsAlike optedIn) (busy (balanceText account) 5)
      (busy (balanceText otherAccount) 9) :=
    .cons (.received (.asks (asks_account rfl) asks_other) _ _) (.cons (.received (.itself _) _ _)
      (.cons (.locked _ _ _ _ _ _ _) .nil))
  have replies : ∀ event ∈ busy (balanceText account) 5, event.Honest := by
    intro event hevent
    simp only [busy, List.mem_cons, List.not_mem_nil, or_false] at hevent
    rcases hevent with rfl | rfl | rfl
    · trivial
    · trivial
    · intro reply hreply n modeHeader hserved
      simp only [List.mem_cons, List.not_mem_nil, or_false, or_self] at hreply
      rw [hreply] at hserved
      cases hserved
      exact endpointNode_honest
  exact ⟨by decide +kernel, (endpoint_hides_account placementLaws serverLaws clientLaws
    endpointNode_honest true smallCodec same replies).1⟩

end RisePir.Rpc.JsonRpc
