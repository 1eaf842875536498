import RisePir.Lib.Text
import RisePir.Rpc.Following

set_option autoImplicit false
set_option relaxedAutoImplicit false

/-! The JSON-RPC front end: `eth_getBalance` with its block selector, which is checked against
one head before the session answers at another. -/

namespace RisePir.Rpc.Front

open RisePir.Lib.Digits
open RisePir.Lib.Text
open RisePir.Proto.Codec
open RisePir.Proto.Types
open RisePir.Proto.Value
open RisePir.Upstream.Cuckoo
open RisePir.Upstream.Pir
open RisePir.Upstream.ReferencePir
open RisePir.Upstream.ReferenceTable
open RisePir.Client.Delta
open RisePir.Client.Lookup
open RisePir.Client.Tracking
open RisePir.Server.Core
open RisePir.Server.DeltaRing
open RisePir.Server.Run
open RisePir.Server.Small
open RisePir.Server.Telescope
open RisePir.Server.Verified
open RisePir.Http.Node
open RisePir.Http.Serving
open RisePir.Rpc.Epochs
open RisePir.Rpc.Following
open RisePir.Rpc.Moves
open RisePir.Rpc.NativeSession

structure JsonRpcError where
  code : Int
  message : String
  deriving DecidableEq, Repr

/-- The `Display` of the client's own errors. -/
def displayClientError : ClientError → String
  | .nonContiguousDelta currentHead found =>
      s!"non-contiguous delta: pending head is {currentHead}, delta claims block {found}"
  | .segmentCountMismatch expected found =>
      s!"segment count mismatch: expected {expected}, found {found}"
  | .deltaOverflow => "pending delta accumulator overflowed i64"
  | .gcTargetMismatch pendingHead requested =>
      s!"collect_garbage target mismatch: pending delta head is {pendingHead}, requested {requested}"
  | .malformedResponse expected found =>
      s!"malformed response: expected {expected} segments, found {found}"
  | .responseBlockMismatch pendingHead responseBlock =>
      s!"response answered at block {responseBlock} but pending delta covers up to {pendingHead}"
  | .keyContextMismatch => "key does not match the query context it was paired with"
  | .cellOutOfRange segment row offset =>
      s!"corrected cell out of range at segment {segment} row {row} offset {offset}"

def displayHttpError : HttpError → String
  | .network msg => "network error: " ++ msg
  | .status status body => s!"unexpected HTTP status {status}: {body}"
  | .wire msg => "wire decode error: " ++ msg

namespace JsonRpcError

def invalidParams (detail : String) : JsonRpcError := ⟨-32602, "invalid params: " ++ detail⟩

def historical : JsonRpcError :=
  ⟨-32000, "historical state not available (this endpoint serves head state only)"⟩

def futureBlock (requested head : Nat) : JsonRpcError :=
  ⟨-32000, s!"requested block {requested} is ahead of our head {head} " ++
    "(this endpoint serves head state only)"⟩

def internal (detail : String) : JsonRpcError := ⟨-32603, "internal error: " ++ detail⟩

def ofRpcError : RpcError → JsonRpcError
  | .decodeFailed => ⟨-32000, "value decode failed (checksum mismatch); refusing to return a " ++
      "possibly-corrupted balance"⟩
  | .stalled => ⟨-32000, "client fell out of the server's retained delta window; an automatic " ++
      "re-bootstrap was attempted and did not resolve it either (the server is advancing faster " ++
      "than a fresh bootstrap can catch up); restarting this client is required"⟩
  | .notInTrackedSet => ⟨-32000, "account not in tracked set (partial deployment: no complete " ++
      "snapshot loaded; only accounts whose balance changed since bootstrap are served — 0x0 would " ++
      "be a guess, and this endpoint never guesses)"⟩
  | .pir e => internal ("PIR transport error: " ++ displayHttpError e)
  | .client e => internal ("PIR client error: " ++ displayClientError e)

end JsonRpcError

/-- `parse_address`. -/
def parseAddress (s : String) : Option (List UInt8) := do
  let hex ← stripHexPrefix s.toList
  if hex.length ≠ 40 then none else hexBytes hex

def hexNumber : Nat → List Char → Option Nat
  | acc, [] => some acc
  | acc, c :: rest => do
      let digit ← hexValue c
      hexNumber (16 * acc + digit) rest

/-- `u64::from_str_radix(_, 16)`: a leading plus sign is accepted. -/
def u64FromHex (hex : List Char) : Option Nat := do
  let digits := match hex with
    | '+' :: rest => rest
    | _ => hex
  if digits = [] then none
  else
    let n ← hexNumber 0 digits
    if n < 2 ^ 64 then some n else none

/-- The block that a selector names, if it is a quantity. -/
def selectedBlock (block : String) : Option Nat := do
  let hex ← stripHexPrefix block.toList
  u64FromHex hex

def isTag (block : String) : Bool := block ∈ ["latest", "pending", "safe", "finalized"]

/-- `classify_block_param`; `debug` is the `Debug` form of a string. -/
def classifyBlockParam (debug : String → String) (block : String) (head : Nat) :
    Except JsonRpcError Unit :=
  if isTag block then .ok ()
  else
    match selectedBlock block with
    | none => .error (.invalidParams ("block must be one of latest|pending|safe|finalized or a " ++
        s!"0x-hex quantity, got {debug block}"))
    | some n =>
        if n = head then .ok ()
        else if n < head then .error .historical
        else .error (.futureBlock n head)

/-- What becomes of a request: dropped or panicked, an error, or a number. -/
inductive Outcome
  | dropped
  | error (err : JsonRpcError)
  | number (balance : Balance)
  deriving DecidableEq, Repr

def Outcome.ofHalt : Halt → Outcome
  | .failed e => .error (.ofRpcError e)
  | _ => .dropped

def Outcome.ofLookup : Except Halt Balance → Outcome
  | .ok balance => .number balance
  | .error halt => .ofHalt halt

/-- The key of an address. -/
def addressKey (keccak256 : List UInt8 → List UInt8) (addr : List UInt8) : AddressHash :=
  BitVec.ofNat 256 (leNat (keccak256 addr))

variable {T : Tables} {B : PirBackend}

/-- `eth_get_balance`. `params` is what `serde` made of the parameters, `head` the reply to the
head request, and `others` the calls that take the session lock before this one. -/
def ethGetBalance (debug : String → String) (keccak256 : List UInt8 → List UInt8)
    (coins coins' : Nat → B.Coins) (now : Nat) (eth : PrivateEth T B)
    (params : Except String (String × String)) (head : Reply T B) (others : List (Call T B))
    (replies : List (Reply T B)) : PrivateEth T B × Outcome :=
  match params with
  | .error e => (eth, .error (.invalidParams ("eth_getBalance expects params [address, block]: " ++ e)))
  | .ok (addrStr, blockStr) =>
      match parseAddress addrStr with
      | none => (eth, .error (.invalidParams "address must be a 0x-prefixed 20-byte hex string"))
      | some addr20 =>
          match head.head with
          | .error halt => (eth, .ofHalt halt)
          | .ok block =>
              match classifyBlockParam debug blockStr block with
              | .error e => (eth, .error e)
              | .ok () =>
                  let eth := others.foldl (Call.perform keccak256) eth
                  let out := eth.getBalance keccak256 coins coins' now (addressKey keccak256 addr20)
                    replies
                  (out.1, .ofLookup out.2.2)

/-- At every position of the lineage the account's key is in exactly one slot, with its balance
at that block, or in none, and then a complete deployment has it at zero. -/
def StoreExact {keccak256 : List UInt8 → List UInt8} {codec : ValueCodec}
    (L : Lineage T B keccak256 codec) (complete : Bool) (key : AddressHash) (balanceAt : Nat → Balance) :
    Prop :=
  ∀ i ≤ L.blocks,
    (ownSlots (T L.params) codec (L.server i).store.cells key = [] ∧
        (complete = true → balanceAt (L.server i).block = 0)) ∨
      ∃ slot, ownSlots (T L.params) codec (L.server i).store.cells key = [slot] ∧
        (L.server i).balanceOf key = .ok (some (balanceAt (L.server i).block))

section Selected

variable {keccak256 : List UInt8 → List UInt8} {codec : ValueCodec}
  {L : Lineage T B keccak256 codec} {complete : Bool} {key : AddressHash} {balanceAt : Nat → Balance}

/-- What a session reads of an exact store is the account's balance at the store's block. -/
theorem StoreExact.read (exact : StoreExact L complete key balanceAt) (logLaws : ∀ p, (T p).LogLaws)
    (placementLaws : ∀ p, (T p).PlacementLaws) {i : Nat} (inside : i ≤ L.blocks) {b : Balance}
    (read : balanceOf (!complete) (scanResult (T L.params) codec key
      (((T L.params).probe key).map ((T L.params).slotAt (L.server i).store.cells))) = .ok b) :
    b = balanceAt (L.server i).block := by
  rcases exact i inside with ⟨absent, zero⟩ | ⟨slot, own, held⟩
  · rw [scanResult_absent codec key absent, balanceOf] at read
    cases hmode : complete with
    | false => simp [hmode] at read
    | true =>
        simp only [hmode, Bool.not_true, Bool.false_eq_true, if_false, Except.ok.injEq] at read
        rw [zero hmode, read]
  · rw [scanResult_unique codec key own] at read
    rw [RisePirServer.balanceOf, L.server_codec logLaws inside, get_unique (placementLaws _) own] at held
    cases hdec : codec.decode key ((T L.params).slotAt (L.server i).store.cells slot).2 with
    | found v =>
        rw [hdec] at read held
        cases read
        exact (Option.some.inj (Except.ok.inj held))
    | notFound =>
        rw [hdec] at held
        cases held
    | decodeFailed =>
        rw [hdec] at held
        cases held

/-- A selector that is a quantity passes at that block only. -/
theorem classifyBlockParam_ok {debug : String → String} {block : String} {head n : Nat}
    (h : classifyBlockParam debug block head = .ok ()) (selected : selectedBlock block = some n) :
    head = n := by
  unfold classifyBlockParam at h
  by_cases tag : isTag block = true
  · simp only [isTag, List.mem_cons, List.not_mem_nil, or_false, decide_eq_true_eq] at tag
    rcases tag with rfl | rfl | rfl | rfl <;> cases selected
  · rw [if_neg tag, selected] at h
    dsimp only at h
    by_cases here : n = head
    · exact here.symm
    · rw [if_neg here] at h
      by_cases past : n < head
      · rw [if_pos past] at h
        cases h
      · rw [if_neg past] at h
        cases h

/-- A number means that the head check passed and the lookup behind it returned the number. -/
theorem ethGetBalance_number {debug : String → String} {coins coins' : Nat → B.Coins} {now : Nat}
    {eth : PrivateEth T B} {addrStr blockStr : String} {addr : List UInt8}
    (haddr : parseAddress addrStr = some addr) {head : Reply T B} {others : List (Call T B)}
    {replies : List (Reply T B)} {b : Balance}
    (number : (ethGetBalance debug keccak256 coins coins' now eth (.ok (addrStr, blockStr)) head others
      replies).2 = .number b) :
    (∀ n, selectedBlock blockStr = some n → head.head = .ok n) ∧
      ((others.foldl (Call.perform keccak256) eth).getBalance keccak256 coins coins' now
        (addressKey keccak256 addr) replies).2.2 = .ok b := by
  unfold ethGetBalance at number
  dsimp only at number
  rw [haddr] at number
  dsimp only at number
  cases hhead : head.head with
  | error halt =>
      rw [hhead] at number
      cases halt <;> cases number
  | ok block =>
      rw [hhead] at number
      dsimp only at number
      cases hclass : classifyBlockParam debug blockStr block with
      | error e =>
          rw [hclass] at number
          cases number
      | ok u =>
          rw [hclass] at number
          dsimp only at number
          refine ⟨fun n selected => by rw [classifyBlockParam_ok hclass selected], ?_⟩
          cases hout : ((others.foldl (Call.perform keccak256) eth).getBalance keccak256 coins coins' now
              (addressKey keccak256 addr) replies).2.2 with
          | error halt =>
              rw [hout] at number
              cases halt <;> cases number
          | ok balance =>
              rw [hout] at number
              cases number
              rfl

end Selected

/-- Whatever other calls and blocks come between, a number that `eth_getBalance` returns for a
block selector `n` is the account's balance at `n` exactly when the server that answers the
query, one of those that reply to the call, stands at a block with that same balance; so it is
when none of them has passed a block that changes the balance. -/
theorem selected_number_iff (logLaws : ∀ p, (T p).LogLaws) (placementLaws : ∀ p, (T p).PlacementLaws)
    (pir : B.Lawful) {keccak256 : List UInt8 → List UInt8} {codec : ValueCodec}
    {L : Lineage T B keccak256 codec} {complete : Bool} {first : AnyNode T B}
    (reached : OnLineage L complete first) {earlier others : List (Call T B)} {head : Reply T B}
    {replies : List (Reply T B)}
    (earlierFrom : ∀ call ∈ earlier, From (OnLineage L complete) call.awaits)
    (othersFrom : ∀ call ∈ others, From (OnLineage L complete) call.awaits)
    (repliesFrom : From (OnLineage L complete) replies) {debug : String → String}
    {coins coins' : Nat → B.Coins} {now : Nat} {addrStr blockStr : String} {addr : List UInt8}
    (haddr : parseAddress addrStr = some addr) {n : Nat} (selected : selectedBlock blockStr = some n)
    {balanceAt : Nat → Balance}
    (exact : StoreExact L complete (addressKey keccak256 addr) balanceAt) :
    let eth := earlier.foldl (Call.perform keccak256)
      (.fromSetup T B keccak256 first.node.setupBytes.2 first.node.complete codec)
    let key := addressKey keccak256 addr
    ∀ b, (ethGetBalance debug keccak256 coins coins' now eth (.ok (addrStr, blockStr)) head others
        replies).2 = .number b →
      head.head = .ok n ∧
      (b = balanceAt n ↔ ∃ answering, .served answering true ∈ replies ∧
        lastAnswering keccak256 coins now key (others.foldl (Call.perform keccak256) eth) replies =
          some answering ∧
        balanceAt answering.node.server.block = balanceAt n) ∧
      ((∀ node, .served node true ∈ replies →
        balanceAt node.node.server.block = balanceAt n) → b = balanceAt n) := by
  intro eth key b number
  obtain ⟨checked, got⟩ := ethGetBalance_number haddr number
  obtain ⟨from_replies, known, served⟩ := lastAnswering_served keccak256 _ repliesFrom got
  refine ⟨checked n selected, ?_⟩
  have start := follows_fromBundle logLaws pir reached
  obtain ⟨moves, codec_eq⟩ := run_moves keccak256
    (.fromSetup T B keccak256 first.node.setupBytes.2 first.node.complete codec) earlierFrom
  obtain ⟨moves', codec_eq'⟩ := run_moves keccak256 eth othersFrom
  have codec_eq'' : (others.foldl (Call.perform keccak256) eth).valueCodec = codec :=
    codec_eq'.trans codec_eq
  obtain ⟨-, -, numbers⟩ := getBalance_moves keccak256
    (others.foldl (Call.perform keccak256) eth) repliesFrom coins coins' now key
  obtain ⟨answering, answers, p, coins'', s, s', before, numbered, -⟩ := numbers b got
  rw [show eth.valueCodec = codec from codec_eq] at moves'
  rw [codec_eq''] at before numbered
  obtain ⟨s₀, i, j, same, follows⟩ := follows_moves logLaws placementLaws pir start
    ((moves.trans moves').trans before)
  have params : p = L.params := congrArg AnySession.params same
  subst params
  obtain rfl : s = s₀ := by
    injection same
  obtain ⟨node, k, rfl, holds, read⟩ := numbered_reads logLaws placementLaws pir ⟨i, j, follows⟩ numbered
  have value := exact.read logLaws placementLaws holds.inside read
  rw [known] at answers
  obtain rfl := Option.some.inj answers
  rw [known, value]
  have stands : balanceAt node.server.block = balanceAt (L.server k).block := by
    rw [holds.server]
  refine ⟨⟨fun h => ⟨_, served, rfl, stands.trans h⟩, ?_⟩, fun still => ?_⟩
  · rintro ⟨answering, -, hanswering, h⟩
    cases hanswering
    exact stands.symm.trans h
  · exact stands.symm.trans (still _ served)

/-- `keccak256` on one address, and on the lineage material of the small deployment. -/
def frontDigest (bytes : List UInt8) : List UInt8 :=
  if bytes.length = 20 then
    [20, 104, 40, 128, 86, 49, 12, 130, 170, 76, 1, 167, 225, 42, 16, 248, 17, 26, 5, 96, 231, 43, 112, 5,
      85, 71, 144, 49, 184, 108, 53, 125]
  else smallDigest bytes

def account : String := "0x0000000000000000000000000000000000000001"

def accountKey : AddressHash := addressKey frontDigest (List.replicate 19 0 ++ [1])

def toFive : BlockUpdate := ⟨1, [(accountKey, 5)], []⟩

def toSeven : BlockUpdate := ⟨2, [(accountKey, 7)], []⟩

abbrev FrontNode : Type := NodeState (referenceTable smallParams) referencePir

def nodeAtGenesis : FrontNode := .new frontDigest (smallServer 0) (.new 4 pos_four) true

def nodeAtOne : FrontNode := (nodeAtGenesis.applyBlockReporting (draw 0) toFive).1

def nodeAtTwo : FrontNode := (nodeAtOne.applyBlockReporting (draw 0) toSeven).1

def callerCoins (_ : Nat) : referencePir.Coins := Coins.mk 0 [5]

/-- A session made at block 1. -/
private def caller : PrivateEth referenceTable referencePir :=
  .fromSetup _ _ frontDigest nodeAtOne.setupBytes.2 nodeAtOne.complete smallCodec

/-- The server has moved to block 2 before the lookup's first request. -/
private def movedReplies : List (Reply referenceTable referencePir) :=
  List.replicate 3 (.served ⟨smallParams, nodeAtTwo⟩ true)

def enteredDelta : BlockDelta := ⟨1, [[(0, [(0, 78), (1, 81), (3, 6)])], []]⟩

def movedDelta : BlockDelta := ⟨2, [[(0, [(1, 32), (2, 96), (3, 6)])], []]⟩

theorem moved_decodes :
    decodeBlockDelta (encodeBlockDelta movedDelta) 8 2 = .ok movedDelta := by
  refine decode_encode (by decide) ⟨by decide, by decide, by decide, by decide, by decide⟩ ?_
  intro seg hseg
  simp only [movedDelta, List.mem_cons, List.not_mem_nil, or_false] at hseg
  rcases hseg with rfl | rfl
  · constructor <;> decide
  · constructor <;> decide

private def caughtUp : Session (referenceTable smallParams) referencePir :=
  { caller.session.session with
    client := (caller.session.session.client.ingestDelta movedDelta).1
    pendingHead := 2 }

private theorem moved_sync :
    syncTo caller.session.session 2 (List.replicate 2 (.served ⟨smallParams, nodeAtTwo⟩ true)) =
      (caughtUp, [.served ⟨smallParams, nodeAtTwo⟩ true], .ok ()) := by
  have served : nodeAtTwo.sync (some caller.session.session.epoch) (some (1, 2)) =
      .ok (encodeBlockDelta movedDelta) := by
    have gate : nodeAtTwo.epochGate (some caller.session.session.epoch) = none := by rfl
    have range : nodeAtTwo.ring.range 1 2 = some movedDelta := by rfl
    rw [NodeState.sync, gate]
    dsimp only
    rw [range]
  have fetched : (Reply.served ⟨smallParams, nodeAtTwo⟩ true : Reply referenceTable referencePir).sync
      1 2 caller.session.session.epoch 8 2 = .ok (some movedDelta) := by
    unfold Reply.sync
    dsimp only
    rw [served]
    dsimp only
    rw [moved_decodes]
  have next_sync : (next (List.replicate 2 (.served ⟨smallParams, nodeAtTwo⟩ true) :
      List (Reply referenceTable referencePir))).sync caller.session.session.pendingHead 2
      caller.session.session.epoch caller.session.session.plaintextBits caller.session.session.arity =
        .ok (some movedDelta) := fetched
  rw [syncTo, if_neg (by decide), next_sync]
  rfl

private theorem moved_number : (ethGetBalance id frontDigest callerCoins callerCoins 0 caller
    (.ok (account, "0x1")) (.served ⟨smallParams, nodeAtOne⟩ true) [] movedReplies).2 = .number 7 := by
  have attempted : (caller.attempt callerCoins accountKey movedReplies).2.2 = .ok 7 := by
    change (tryGetBalance callerCoins accountKey caller.session.session movedReplies).2.2 = .ok 7
    have head : (next movedReplies).head = .ok 2 := by rfl
    have rest : movedReplies.tail = List.replicate 2 (.served ⟨smallParams, nodeAtTwo⟩ true) := by rfl
    rw [tryGetBalance, head]
    dsimp only
    rw [rest, moved_sync]
    rfl
  have looked : (caller.getBalance frontDigest callerCoins callerCoins 0 accountKey movedReplies).2.2 =
      .ok 7 := by
    rw [PrivateEth.getBalance]
    cases hout : caller.attempt callerCoins accountKey movedReplies with
    | mk eth rest =>
        obtain ⟨rest, result⟩ := rest
        rw [hout] at attempted
        dsimp only at attempted
        subst attempted
        rfl
  change Outcome.ofLookup (caller.getBalance frontDigest callerCoins callerCoins 0 accountKey
    movedReplies).2.2 = .number 7
  rw [looked]
  rfl

/-- The head check passes at block 1, where the balance is 5; the block that makes it 7 is
applied before the lookup, and the request for block 1 returns 7. -/
theorem later_balance_for_selected_block : selectedBlock "0x1" = some 1 ∧
    nodeAtOne.server.block = 1 ∧ nodeAtOne.server.balanceOf accountKey = .ok (some 5) ∧
    (ethGetBalance id frontDigest callerCoins callerCoins 0 caller (.ok (account, "0x1"))
      (.served ⟨smallParams, nodeAtOne⟩ true) [] movedReplies).2 = .number 7 :=
  ⟨by decide, by decide, by decide, moved_number⟩

theorem applied_delta (s : SmallServer) (update : BlockUpdate) {delta : BlockDelta}
    (next : update.block = s.block + 1)
    (ok : (s.applyBlockReporting (draw 0) update).2.toOption.map Prod.fst = some delta) :
    BlockRun s [delta] (s.applyBlockReporting (draw 0) update).1 := by
  cases step : s.applyBlockReporting (draw 0) update with
  | mk s' r =>
      rw [step] at ok
      cases r with
      | error e => cases ok
      | ok out =>
          obtain ⟨delta', report⟩ := out
          cases ok
          exact .cons next step (.nil s')

/-- The server's blocks: empty, then 5, then 7. -/
def frontLineage : Lineage referenceTable referencePir frontDigest smallCodec where
  params := smallParams
  epoch := nodeAtGenesis.epoch
  blocks := 2
  server
    | 0 => smallServer 0
    | 1 => nodeAtOne.server
    | _ => nodeAtTwo.server
  delta
    | 0 => enteredDelta
    | _ => movedDelta
  steps
    | 0, _ => applied_delta (smallServer 0) toFive rfl rfl
    | 1, _ => applied_delta nodeAtOne.server toSeven rfl rfl
  wellFormed := (smallServer_hintsMatch 0).1
  hints := (smallServer_hintsMatch 0).2
  codec_eq := rfl
  word := by decide
  widths := by decide
  epoch_eq := rfl

private def accountBalance : Nat → Balance
  | 0 => 0
  | 1 => 5
  | _ => 7

private theorem frontLineage_exact : StoreExact frontLineage true accountKey accountBalance := by
  intro i hi
  have small : i = 0 ∨ i = 1 ∨ i = 2 := by
    have : i ≤ 2 := hi
    omega
  rcases small with rfl | rfl | rfl
  · exact .inl ⟨by decide, fun _ => rfl⟩
  · exact .inr ⟨(0, 0), by decide, by decide⟩
  · exact .inr ⟨(0, 0), by decide, by decide⟩

theorem nodeAtOne_onLineage : OnLineage frontLineage true ⟨smallParams, nodeAtOne⟩ :=
  ⟨nodeAtOne, 1, rfl, ⟨by decide, rfl, rfl, by decide, fun _ h => by cases h⟩, rfl⟩

theorem nodeAtTwo_onLineage : OnLineage frontLineage true ⟨smallParams, nodeAtTwo⟩ :=
  ⟨nodeAtTwo, 2, rfl, ⟨by decide, rfl, rfl, by decide, fun _ h => by cases h⟩, rfl⟩

/-- The answering server stands at block 2, whose balance is not block 1's. -/
theorem selected_number_iff_moved : ∃ b,
    (ethGetBalance id frontDigest callerCoins callerCoins 0 caller (.ok (account, "0x1"))
      (.served ⟨smallParams, nodeAtOne⟩ true) [] movedReplies).2 = .number b ∧
    (b = accountBalance 1 ↔ ∃ answering, .served answering true ∈ movedReplies ∧
      lastAnswering frontDigest callerCoins 0 accountKey caller movedReplies = some answering ∧
        accountBalance answering.node.server.block = accountBalance 1) := by
  have replies : From (OnLineage frontLineage true) movedReplies := by
    intro reply hreply n modeHeader served
    rw [List.eq_of_mem_replicate hreply] at served
    cases served
    exact ⟨nodeAtTwo_onLineage, rfl⟩
  obtain ⟨-, iff, -⟩ := selected_number_iff logLaws placementLaws lawful nodeAtOne_onLineage
    (List.forall_mem_nil _) (List.forall_mem_nil _) replies (show parseAddress account = _ by rfl)
    (show selectedBlock "0x1" = some 1 by decide) frontLineage_exact 7 moved_number
  exact ⟨7, moved_number, iff⟩

end RisePir.Rpc.Front
