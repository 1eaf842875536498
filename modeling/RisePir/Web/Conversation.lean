import RisePir.Client.EndToEnd
import RisePir.Rpc.Following
import RisePir.Web.PirSession

set_option autoImplicit false
set_option relaxedAutoImplicit false

/-! A browser session before the nodes of one lineage. The slot of the query in flight is
released by the lookup that filled it or by none. -/

namespace RisePir.Web.Conversation

open RisePir.Lib.Digits
open RisePir.Proto.Codec
open RisePir.Proto.Types
open RisePir.Proto.Value
open RisePir.Upstream.Cuckoo
open RisePir.Upstream.Pir
open RisePir.Client.Core
open RisePir.Client.Delta
open RisePir.Client.EndToEnd
open RisePir.Client.Lookup
open RisePir.Client.Tracking
open RisePir.Server.Core
open RisePir.Http.Bundles
open RisePir.Http.Node
open RisePir.Http.Wire
open RisePir.Rpc.Coverage
open RisePir.Rpc.Epochs
open RisePir.Rpc.Following
open RisePir.Lib.Text (hexBytes)
open RisePir.Rpc.Front (addressKey)
open RisePir.Rpc.Moves
open RisePir.Rpc.NativeSession (AnyNode Tables statusOf)
open RisePir.Wasm.BrowserSession
open RisePir.Web.PirSession

variable {T : Tables} {B : PirBackend} {keccak256 : List UInt8 → List UInt8} {codec : ValueCodec}

/-- The same session without its slot. -/
def following {p : CuckooParams} {C : SegmentedCuckoo p} (s : Session C B) :
    RisePir.Rpc.NativeSession.Session C B where
  client := s.client
  pendingHead := s.pendingHead
  arity := s.arity
  plaintextBits := s.plaintextBits
  reshapeRowWidthPerSeg := s.reshapeRowWidthPerSeg
  strictNotFound := !s.complete
  epoch := s.epoch

/-- A reply that a node of the lineage gives, or a failure, or a body that does not decode. -/
def Fair (L : Lineage T B keccak256 codec) (complete : Bool) (decodes : List UInt8 → Bool) :
    Reply T B → Prop
  | .served n => OnLineage L complete n
  | .body bytes => decodes bytes = false
  | _ => True

/-- The replies of one call. -/
structure FairCall (L : Lineage T B keccak256 codec) (complete : Bool) (call : BalanceCall T B) :
    Prop where
  head : Fair L complete (fun bytes => bytes.length = 8) call.head
  sync : Fair L complete (fun bytes => (decodeBlockDelta bytes L.params.plaintextBits
    L.params.arity).isOk) call.sync
  answer : Fair L complete (fun bytes => (decodeResponseBundle bytes
    ((L.server 0).setup.backendParams.map (·.reshapeRowWidth)) L.params.arity).isOk) call.answer
  resync : Fair L complete (fun bytes => (decodeBlockDelta bytes L.params.plaintextBits
    L.params.arity).isOk) call.resync

section Conditions

variable {p : CuckooParams} {C : SegmentedCuckoo p}

/-- There is nothing to fetch, or a node serves the range. -/
def CaughtUp (epoch : String) (reply : Reply T B) (fromBlock toBlock : Nat) : Prop :=
  toBlock ≤ fromBlock ∨ ∃ n body, reply = .served n ∧
    n.node.sync (some epoch) (some (fromBlock, toBlock)) = .ok body

/-- The head and the first sync are served, which takes the session to `reached`. -/
def Asks (s : Session C B) (call : BalanceCall T B) (reached : Nat) : Prop :=
  reached < 2 ^ 63 ∧ ∃ n, call.head = .served n ∧ reached = max s.pendingHead n.node.server.block ∧
    CaughtUp s.epoch call.sync s.pendingHead n.node.server.block

/-- The answer is served from a block not below `reached`, and so is the sync to it. -/
def Answers (s : Session C B) (call : BalanceCall T B) (reached : Nat) : Prop :=
  ∃ n, call.answer = .served n ∧ n.node.server.block < 2 ^ 63 ∧ reached ≤ n.node.server.block ∧
    CaughtUp s.epoch call.resync reached n.node.server.block

/-- Whenever the call gets as far as its query, that query is answered and synced to. -/
def Settled (s : Session C B) (call : BalanceCall T B) : Prop :=
  ∀ reached, (parseAddress call.address).isSome → Asks s call reached → Answers s call reached

/-- A condition on every call of a run, at the session it finds. -/
def AtEach (keccak256 : List UInt8 → List UInt8) (P : Session C B → BalanceCall T B → Prop) :
    Session C B → List (BalanceCall T B) → Prop
  | _, [] => True
  | s, call :: rest => P s call ∧ ∀ s' ∈ (getBalance keccak256 s call).1, AtEach keccak256 P s' rest

end Conditions

/-- What the verified read of a server comes to as an outcome. -/
def AccountOutcome (complete : Bool) (held : Except ServerError (Option Balance)) (out : Outcome) :
    Prop :=
  (∀ b, held = .ok (some b) → out = .found b) ∧
    (held = .ok none → out = if complete then .zero else .untracked) ∧
    (held = .error .corruptStoredValue → out = .decodeFailed)

/-- What a lookup makes of a node's slots. -/
def lookedUp (n : AnyNode T B) (key : AddressHash) : Lookup :=
  scanResult (T n.params) n.node.server.valueCodec key
    (((T n.params).probe key).map ((T n.params).slotAt n.node.server.store.cells))

/-- The result of a call is the account's outcome at the node that answered it. -/
def ReadsAccount (complete : Bool) (keccak256 : List UInt8 → List UInt8) (call : BalanceCall T B)
    (result : Answered) : Prop :=
  ∃ addr n, parseAddress call.address = some addr ∧ call.answer = .served n ∧
    let out := Session.outcomeOf complete (lookedUp n (addressKey keccak256 addr))
    result = .ofOutcome n.node.server.block out ∧
      AccountOutcome complete (n.node.server.balanceOf (addressKey keccak256 addr)) out

/-- The result of a call comes of the reply to its own query, finished by a client that still
holds that query's secrets and stands at the block which the reply names. -/
def Paired {p : CuckooParams} {C : SegmentedCuckoo p} (keccak256 : List UInt8 → List UInt8)
    (s : Session C B) (call : BalanceCall T B) (result : Answered) : Prop :=
  ∃ addr head asking, parseAddress call.address = some addr ∧
    syncTo s head call.sync = (asking, .ok ()) ∧
    let key := addressKey keccak256 addr
    let (client, queries, ctx) := asking.client.buildQuery call.coins key
    ∃ (bytes : List UInt8) (responses : List Response) (atBlock : Nat) (finishing : RisePirClient C B)
      (lookup : Lookup),
      call.answer.read (.answer asking.epoch (encodeQueryBundle queries)) = .ok bytes ∧
      decodeResponseBundle bytes asking.reshapeRowWidthPerSeg asking.arity = .ok (responses, atBlock) ∧
      finishing.states = client.states ∧ finishing.delta.head = atBlock ∧
      finishing.finish .simple key ctx responses atBlock = some (.ok lookup) ∧
      result = .ofOutcome (signed atBlock) (Session.outcomeOf asking.complete lookup)

theorem signed_small {n : Nat} (small : n < 2 ^ 63) : signed n = n := by
  rw [signed, BitVec.toInt_eq_toNat_of_lt, BitVec.toNat_ofNat, Nat.mod_eq_of_lt (by omega)]
  rw [BitVec.toNat_ofNat, Nat.mod_eq_of_lt (by omega)]
  omega

theorem signed_large {n : Nat} (large : 2 ^ 63 ≤ n) (word : n < 2 ^ 64) : signed n < 0 := by
  rw [signed, BitVec.toInt_eq_toNat_cond, BitVec.toNat_ofNat, Nat.mod_eq_of_lt word, if_neg (by omega)]
  omega

/-- A body was sent as it is, or is a node's reply. -/
theorem read_eq_ok {reply : Reply T B} {request : Request} {bytes : List UInt8} :
    reply.read request = .ok bytes ↔
      reply = .body bytes ∨ ∃ n, reply = .served n ∧ respond n request = .ok bytes := by
  constructor
  · intro h
    cases reply with
    | silent => cases h
    | dropped msg => cases h
    | status code text => cases h
    | body garbled =>
        cases h
        exact .inl rfl
    | served n =>
        refine .inr ⟨n, rfl, ?_⟩
        rw [Reply.read] at h
        cases hrespond : respond n request with
        | ok body =>
            rw [hrespond] at h
            cases h
            rfl
        | error refusal =>
            rw [hrespond] at h
            dsimp only at h
            cases hstatus : statusOf refusal with
            | network msg =>
                rw [hstatus] at h
                cases h
            | status code text =>
                rw [hstatus] at h
                cases h
            | wire msg =>
                rw [hstatus] at h
                cases h
  · rintro (rfl | ⟨n, rfl, h⟩)
    · rfl
    · rw [Reply.read, h]

section Pairing

variable {p : CuckooParams} {C : SegmentedCuckoo p}

theorem buildQuery_busy {s : Session C B} (busy : s.inFlight.isSome = true)
    (coins : Nat → B.Coins) (addr : List UInt8) :
    s.buildQuery keccak256 coins addr = (s, .error .queryAlreadyInFlight) := by
  rw [Session.buildQuery, if_pos busy]

theorem buildQuery_idle {s : Session C B} (idle : s.inFlight = none) (coins : Nat → B.Coins)
    {addr : List UInt8} (length : addr.length = 20) :
    let key := addressKey keccak256 addr
    let built := s.client.buildQuery coins key
    s.buildQuery keccak256 coins addr =
      ({ s with client := built.1, inFlight := some ⟨key, built.2.2, none⟩ },
        .ok (encodeQueryBundle built.2.1)) := by
  rw [Session.buildQuery, if_neg (by simp [idle]), if_neg (by simp [length])]

theorem ingest_keeps (s : Session C B) (bytes : List UInt8) :
    (s.ingest bytes).1.inFlight = s.inFlight ∧ (s.ingest bytes).1.complete = s.complete ∧
      (s.ingest bytes).1.client.states = s.client.states := by
  rw [Session.ingest]
  cases decodeBlockDelta bytes s.plaintextBits s.arity with
  | error e => exact ⟨rfl, rfl, rfl⟩
  | ok delta =>
      dsimp only
      cases step : s.client.ingestDelta delta with
      | mk client r =>
          have states := (ingestDelta_head step).1
          cases r with
          | error e => exact ⟨rfl, rfl, states⟩
          | ok u => exact ⟨rfl, rfl, states⟩

/-- Whatever a sync does, it leaves the slot and the query secrets alone. -/
theorem syncTo_keeps {s s' : Session C B} {toBlock : Int} {reply : Reply T B} {r : Except Failure Unit}
    (step : syncTo s toBlock reply = (s', r)) :
    s'.inFlight = s.inFlight ∧ s'.complete = s.complete ∧ s'.client.states = s.client.states := by
  rw [syncTo] at step
  by_cases near : toBlock ≤ signed s.pendingHead
  · rw [if_pos near] at step
    cases step
    exact ⟨rfl, rfl, rfl⟩
  · rw [if_neg near] at step
    cases hread : reply.read (.sync (signed s.pendingHead) toBlock s.epoch) with
    | error e =>
        rw [hread] at step
        cases step
        exact ⟨rfl, rfl, rfl⟩
    | ok bytes =>
        rw [hread] at step
        dsimp only at step
        have kept := ingest_keeps s bytes
        rw [ingestRange] at step
        cases hingest : s.ingest bytes with
        | mk s₁ r₁ =>
            rw [hingest] at step kept
            cases r₁ with
            | error e =>
                cases step
                exact kept
            | ok head =>
                dsimp only at step
                by_cases negative : signed head < 0
                · rw [if_pos negative] at step
                  cases step
                  exact kept
                · rw [if_neg negative] at step
                  cases step
                  exact kept

theorem finish_ok {s s' : Session C B} {key : AddressHash} {ctx : QueryCtx} {responses : List Response}
    {atBlock : Nat} (slot : s.inFlight = some ⟨key, ctx, some (responses, atBlock)⟩) {out : Outcome}
    (step : s.finish = some (s', .ok out)) :
    ∃ lookup, s.client.finish .simple key ctx responses atBlock = some (.ok lookup) ∧
      out = Session.outcomeOf s.complete lookup := by
  rw [Session.finish, slot] at step
  dsimp only at step
  by_cases early : atBlock ≠ s.pendingHead
  · rw [if_pos early] at step
    cases step
  · rw [if_neg early] at step
    cases hfinish : s.client.finish .simple key ctx responses atBlock with
    | none =>
        rw [hfinish] at step
        cases step
    | some r =>
        rw [hfinish] at step
        cases r with
        | error e => cases step
        | ok lookup =>
            cases step
            exact ⟨lookup, rfl, rfl⟩

/-- A failed `finish` that names a sync leaves the slot as it was. -/
theorem finish_error_keeps {s s' : Session C B} {key : AddressHash} {ctx : QueryCtx}
    {responses : List Response} {atBlock : Nat} {why : SessionError}
    (slot : s.inFlight = some ⟨key, ctx, some (responses, atBlock)⟩)
    (step : s.finish = some (s', .error why)) : s' = s ∨ s'.inFlight = none := by
  rw [Session.finish, slot] at step
  dsimp only at step
  by_cases early : atBlock ≠ s.pendingHead
  · rw [if_pos early] at step
    cases step
    exact .inl rfl
  · rw [if_neg early] at step
    cases hfinish : s.client.finish .simple key ctx responses atBlock with
    | none =>
        rw [hfinish] at step
        cases step
    | some r =>
        rw [hfinish] at step
        cases r with
        | error e =>
            cases step
            exact .inr rfl
        | ok lookup => cases step

theorem finish_released {s s' : Session C B} (released : s.inFlight = none) {out : Outcome} :
    s.finish ≠ some (s', .ok out) := by
  rw [Session.finish, released]
  intro step
  cases step

/-- The lookup behind a result, finished on what the slot held. -/
theorem finishAt_ok {s : Session C B} {key : AddressHash} {ctx : QueryCtx} {responses : List Response}
    {atBlock : Nat} (slot : s.inFlight = some ⟨key, ctx, some (responses, atBlock)⟩) {resync : Reply T B}
    {result : Answered} (h : (finishAt s atBlock resync).2 = .ok result) :
    ∃ (finishing : RisePirClient C B) (lookup : Lookup), finishing.states = s.client.states ∧
      finishing.finish .simple key ctx responses atBlock = some (.ok lookup) ∧
      result = .ofOutcome (signed atBlock) (Session.outcomeOf s.complete lookup) := by
  rw [finishAt] at h
  cases first : s.finish with
  | none =>
      rw [first] at h
      cases h
  | some out =>
      obtain ⟨s₁, r⟩ := out
      rw [first] at h
      cases r with
      | ok outcome =>
          obtain ⟨lookup, finished, rfl⟩ := finish_ok slot first
          cases h
          exact ⟨s.client, lookup, rfl, finished, rfl⟩
      | error why =>
          dsimp only at h
          by_cases other : (!includes why.display "sync") = true
          · rw [if_pos other] at h
            cases h
          · rw [if_neg other] at h
            cases hsync : syncTo s₁ (signed atBlock) resync with
            | mk s₂ r₂ =>
                rw [hsync] at h
                cases r₂ with
                | error e => cases h
                | ok u =>
                    dsimp only at h
                    obtain ⟨slot₂, complete₂, states₂⟩ := syncTo_keeps hsync
                    cases second : s₂.finish with
                    | none =>
                        rw [second] at h
                        cases h
                    | some out =>
                        obtain ⟨s₃, r₃⟩ := out
                        rw [second] at h
                        cases r₃ with
                        | error e => cases h
                        | ok outcome =>
                            cases h
                            rcases finish_error_keeps slot first with rfl | released
                            · obtain ⟨lookup, finished, rfl⟩ := finish_ok (slot₂.trans slot) second
                              exact ⟨s₂.client, lookup, states₂, finished, by rw [complete₂]⟩
                            · exact absurd second (finish_released (slot₂.trans released))

theorem askFor_ok {s : Session C B} {key : AddressHash} {ctx : QueryCtx}
    (slot : s.inFlight = some ⟨key, ctx, none⟩) {query : List UInt8} {call : BalanceCall T B}
    {result : Answered} (h : (askFor s query call).2 = .ok result) :
    ∃ (bytes : List UInt8) (responses : List Response) (atBlock : Nat) (finishing : RisePirClient C B)
      (lookup : Lookup), call.answer.read (.answer s.epoch query) = .ok bytes ∧
      decodeResponseBundle bytes s.reshapeRowWidthPerSeg s.arity = .ok (responses, atBlock) ∧
      finishing.states = s.client.states ∧ finishing.delta.head = atBlock ∧
      finishing.finish .simple key ctx responses atBlock = some (.ok lookup) ∧
      result = .ofOutcome (signed atBlock) (Session.outcomeOf s.complete lookup) := by
  rw [askFor] at h
  cases hread : call.answer.read (.answer s.epoch query) with
  | error e =>
      rw [hread] at h
      cases h
  | ok bytes =>
      rw [hread] at h
      dsimp only at h
      rw [Session.acceptAnswer] at h
      cases hdec : decodeResponseBundle bytes s.reshapeRowWidthPerSeg s.arity with
      | error e =>
          rw [hdec] at h
          cases h
      | ok decoded =>
          obtain ⟨responses, atBlock⟩ := decoded
          rw [hdec, slot] at h
          dsimp only at h
          by_cases negative : signed atBlock < 0
          · rw [if_pos negative] at h
            cases h
          · rw [if_neg negative] at h
            obtain ⟨finishing, lookup, states, finished, rfl⟩ := finishAt_ok rfl h
            exact ⟨bytes, responses, atBlock, finishing, lookup, rfl, hdec, states,
              finish_ok_head finished, finished, rfl⟩

/-- Whatever the replies, a result comes of the reply to the call's own query. -/
theorem getBalance_paired {s : Session C B} {call : BalanceCall T B} {result : Answered}
    (h : (getBalance keccak256 s call).2 = .ok result) : Paired keccak256 s call result := by
  rw [getBalance] at h
  cases hparse : parseAddress call.address with
  | none =>
      rw [hparse] at h
      cases h
  | some addr =>
      rw [hparse] at h
      dsimp only at h
      cases hhead : call.head.read .head >>= readU64LE with
      | error e =>
          rw [hhead] at h
          cases h
      | ok head =>
          rw [hhead] at h
          dsimp only at h
          cases hsync : syncTo s head call.sync with
          | mk asking r =>
              rw [hsync] at h
              cases r with
              | error e => cases h
              | ok u =>
                  dsimp only at h
                  refine ⟨addr, head, asking, hparse, hsync, ?_⟩
                  rw [lookUp, Session.buildQuery] at h
                  by_cases busy : asking.inFlight.isSome = true
                  · rw [if_pos busy] at h
                    cases h
                  · rw [if_neg busy] at h
                    by_cases length : addr.length ≠ 20
                    · rw [if_pos length] at h
                      cases h
                    · rw [if_neg length] at h
                      exact askFor_ok rfl h

end Pairing

section Sync

variable {L : Lineage T B keccak256 codec} {complete : Bool}

theorem below_word (logLaws : ∀ p, (T p).LogLaws) {i : Nat} (inside : i ≤ L.blocks) :
    (L.server i).block < 2 ^ 64 := by
  have := L.block_eq logLaws inside
  have := L.word
  omega

/-- A node serves a range only from below `2 ^ 63`, where it has it. -/
theorem sync_respond {n : AnyNode T B} {epoch : String} {fromBlock target : Nat} {body : List UInt8}
    (word : fromBlock < 2 ^ 64)
    (h : respond n (.sync (signed fromBlock) target epoch) = .ok body) :
    fromBlock < 2 ^ 63 ∧ n.node.sync (some epoch) (some (fromBlock, target)) = .ok body := by
  rw [respond, syncRange] at h
  by_cases small : fromBlock < 2 ^ 63
  · rw [signed_small small, if_pos (by omega)] at h
    exact ⟨small, h⟩
  · have negative := signed_large (by omega) word
    rw [if_neg (by omega), NodeState.sync] at h
    cases hgate : n.node.epochGate (some epoch) with
    | none =>
        rw [hgate] at h
        cases h
    | some refusal =>
        rw [hgate] at h
        cases h

theorem respond_sync {n : AnyNode T B} {epoch : String} {fromBlock target : Nat} {body : List UInt8}
    (small : fromBlock < 2 ^ 63)
    (h : n.node.sync (some epoch) (some (fromBlock, target)) = .ok body) :
    respond n (.sync (signed fromBlock) target epoch) = .ok body := by
  rw [respond, syncRange, signed_small small, if_pos (by omega)]
  exact h

/-- A sync leaves the session on the lineage. It succeeds exactly when what it needs is served,
and then the session stands at the target or where it stood beyond it. -/
theorem syncTo_spec (logLaws : ∀ p, (T p).LogLaws) (pir : B.Lawful) {s : Session (T L.params) B}
    {i j : Nat} (h : Follows L complete (following s) i j) {reply : Reply T B}
    (fair : Fair L complete (fun bytes => (decodeBlockDelta bytes L.params.plaintextBits
      L.params.arity).isOk) reply) (target : Nat) :
    ∃ s' r j', syncTo s target reply = (s', r) ∧ Follows L complete (following s') i j' ∧
      s'.inFlight = s.inFlight ∧ s'.client.states = s.client.states ∧
      ((r = .ok () ∧ (max s.pendingHead target < 2 ^ 63 ∧ CaughtUp s.epoch reply s.pendingHead target) ∧
          s'.pendingHead = max s.pendingHead target) ∨
        ((∃ e, r = .error e) ∧
          ¬ (max s.pendingHead target < 2 ^ 63 ∧ CaughtUp s.epoch reply s.pendingHead target))) := by
  have word : s.pendingHead < 2 ^ 64 := by
    rw [show s.pendingHead = (L.server j).block from h.pendingHead]
    exact below_word logLaws h.inside
  by_cases near : (target : Int) ≤ signed s.pendingHead
  · have small : s.pendingHead < 2 ^ 63 := by
      by_contra large
      have := signed_large (by omega) word
      omega
    refine ⟨s, .ok (), j, if_pos near, h, rfl, rfl, .inl ⟨rfl, ?_, ?_⟩⟩
    · rw [signed_small small] at near
      exact ⟨by omega, .inl (by omega)⟩
    · rw [signed_small small] at near
      omega
  · -- the range is asked for
    have ahead : s.pendingHead < 2 ^ 63 → s.pendingHead < target := by
      intro small
      rw [signed_small small] at near
      omega
    have unserved : (∀ n body, reply = .served n →
        n.node.sync (some s.epoch) (some (s.pendingHead, target)) ≠ .ok body) →
        ¬ (max s.pendingHead target < 2 ^ 63 ∧ CaughtUp s.epoch reply s.pendingHead target) := by
      rintro none ⟨small, le | ⟨n, body, hreply, served⟩⟩
      · have := ahead (by omega)
        omega
      · exact none n body hreply served
    cases hread : reply.read (.sync (signed s.pendingHead) target s.epoch) with
    | error e =>
        have asks : syncTo s target reply = (s, .error e) := by
          unfold syncTo
          rw [if_neg near, hread]
        refine ⟨s, .error e, j, asks, h, rfl, rfl, .inr ⟨⟨e, rfl⟩, ?_⟩⟩
        rintro ⟨small, le | ⟨n, body, hreply, served⟩⟩
        · have := ahead (by omega)
          omega
        · have := read_eq_ok.mpr (.inr ⟨n, hreply, respond_sync (by omega) served⟩)
          rw [hread] at this
          cases this
    | ok bytes =>
        have asks : syncTo s target reply = ingestRange s (signed s.pendingHead) target bytes := by
          unfold syncTo
          rw [if_neg near, hread]
        rcases read_eq_ok.mp hread with rfl | ⟨n, rfl, responded⟩
        · have refused : (decodeBlockDelta bytes s.plaintextBits s.arity).isOk = false := by
            rw [show s.plaintextBits = L.params.plaintextBits from h.plaintextBits,
              show s.arity = L.params.arity from h.arity]
            exact fair
          cases hdec : decodeBlockDelta bytes s.plaintextBits s.arity with
          | ok delta =>
              rw [hdec] at refused
              cases refused
          | error e =>
              have step : s.ingest bytes = (s, .error (.codec e)) := by rw [Session.ingest, hdec]
              rw [ingestRange, step] at asks
              refine ⟨s, _, j, asks, h, rfl, rfl, .inr ⟨⟨_, rfl⟩, unserved ?_⟩⟩
              intro n body hreply
              cases hreply
        · obtain ⟨small, served⟩ := sync_respond word responded
          obtain ⟨delta, hdec, fetched⟩ := h.sync_served logLaws fair served
          obtain ⟨m, client, there, hblock, step, after⟩ := h.fetched logLaws pir fetched
          have ingested : s.ingest bytes =
              ({ s with client, pendingHead := delta.block }, .ok delta.block) := by
            have hdec' : decodeBlockDelta bytes s.plaintextBits s.arity = .ok delta := hdec
            have step' : s.client.ingestDelta delta = (client, .ok ()) := step
            rw [Session.ingest, hdec']
            dsimp only
            rw [step']
          have states : client.states = s.client.states := (ingestDelta_head step).1
          have le : s.pendingHead ≤ target := (ahead small).le
          rw [ingestRange, ingested] at asks
          dsimp only at asks
          rw [hblock] at asks after
          by_cases small' : target < 2 ^ 63
          · rw [signed_small small', if_neg (by omega)] at asks
            refine ⟨_, _, m, asks, after, rfl, states, .inl ⟨rfl, ⟨by omega, ?_⟩, ?_⟩⟩
            · exact .inr ⟨n, bytes, rfl, served⟩
            · exact (Nat.max_eq_right le).symm
          · have large : target < 2 ^ 64 := by
              rw [there]
              exact below_word logLaws after.inside
            rw [if_pos (signed_large (by omega) large)] at asks
            exact ⟨_, _, m, asks, after, rfl, states, .inr ⟨⟨_, rfl⟩, by omega⟩⟩

theorem includes_split {text a b c : String} (split : text = a ++ b ++ c) : includes text b = true := by
  rw [includes, decide_eq_true_eq, split, String.toList_append, String.toList_append]
  exact List.infix_append _ _ _

/-- The message that names the missing sync says so. -/
theorem includes_syncRequired (atBlock pendingHead : Nat) :
    includes (SessionError.syncRequired atBlock pendingHead).display "sync" = true := by
  unfold SessionError.display
  have word : toString "sync (from=" = "sync" ++ toString " (from=" := rfl
  rw [word]
  apply includes_split
    (a := s!"response was answered at block {atBlock} but the client's delta only reaches {pendingHead}; ")
    (c := s!" (from={pendingHead}, to={atBlock}) and call finish again")
  simp only [String.append_assoc]

section Slot

variable {p : CuckooParams} {C : SegmentedCuckoo p} {s : Session C B} {key : AddressHash} {ctx : QueryCtx}
  {responses : List Response} {atBlock : Nat}

theorem finish_early (slot : s.inFlight = some ⟨key, ctx, some (responses, atBlock)⟩)
    (early : atBlock ≠ s.pendingHead) :
    s.finish = some (s, .error (.syncRequired atBlock s.pendingHead)) := by
  rw [Session.finish, slot]
  dsimp only
  rw [if_pos early]

theorem finish_synced (slot : s.inFlight = some ⟨key, ctx, some (responses, atBlock)⟩)
    (synced : atBlock = s.pendingHead) {lookup : Lookup}
    (finished : s.client.finish .simple key ctx responses atBlock = some (.ok lookup)) :
    s.finish = some ({ s with inFlight := none }, .ok (Session.outcomeOf s.complete lookup)) := by
  rw [Session.finish, slot]
  dsimp only
  rw [if_neg (not_not.mpr synced), finished]

end Slot

theorem lookedUp_holds (logLaws : ∀ p, (T p).LogLaws) {node : NodeState (T L.params) B} {k : Nat}
    (holds : L.Holds node k) (key : AddressHash) :
    lookedUp ⟨L.params, node⟩ key = scanResult (T L.params) codec key
      (((T L.params).probe key).map ((T L.params).slotAt (L.server k).store.cells)) := by
  rw [lookedUp]
  dsimp only
  rw [holds.server, L.server_codec logLaws holds.inside]

/-- The slot once an answer is in it. -/
def accepted (s : Session (T L.params) B) (key : AddressHash) (ctx : QueryCtx)
    (decoded : List Response × Nat) : Session (T L.params) B :=
  { s with inFlight := some ⟨key, ctx, some decoded⟩ }

theorem acceptAnswer_ok {s : Session (T L.params) B} {key : AddressHash} {ctx : QueryCtx}
    (slot : s.inFlight = some ⟨key, ctx, none⟩) {bytes : List UInt8} {decoded : List Response × Nat}
    (hdec : decodeResponseBundle bytes s.reshapeRowWidthPerSeg s.arity = .ok decoded) :
    s.acceptAnswer bytes = (accepted s key ctx decoded, .ok decoded.2) := by
  rw [Session.acceptAnswer, hdec]
  dsimp only
  rw [slot]
  rfl

/-- An answer from where the session stands, or from further on with a sync to there. -/
theorem askFor_answers (logLaws : ∀ p, (T p).LogLaws) (placementLaws : ∀ p, (T p).PlacementLaws)
    (pir : B.Lawful) {s : Session (T L.params) B} {i j : Nat} (h : Follows L complete (following s) i j)
    {key : AddressHash} {ctx : QueryCtx} (slot : s.inFlight = some ⟨key, ctx, none⟩)
    (flight : InFlight s.client ctx key) {call : BalanceCall T B} (fair : FairCall L complete call)
    (answers : Answers s call s.pendingHead) :
    ∃ s' n i j, call.answer = .served n ∧ askFor s (encodeQueryBundle ctx.queries) call =
        (some s', .ok (.ofOutcome n.node.server.block (Session.outcomeOf complete (lookedUp n key)))) ∧
      Follows L complete (following s') i j ∧ s'.inFlight = none := by
  obtain ⟨n, hanswer, small, reaches, caught⟩ := answers
  have on : OnLineage L complete n := by
    have := fair.answer
    rwa [hanswer] at this
  obtain ⟨node, k, rfl, holds, -⟩ := on
  dsimp only at small reaches caught
  rw [holds.server] at small reaches caught
  have reached : max s.pendingHead (L.server k).block = (L.server k).block := Nat.max_eq_right reaches
  -- the session that finishes, whether or not it has to be synced first
  let waiting := accepted s key ctx (responsesOf (L.server k) ctx.queries, (L.server k).block)
  obtain ⟨ready, r, j', synced, after, slot', states, ⟨rfl, -, head⟩ | ⟨-, failed⟩⟩ :=
    syncTo_spec logLaws pir (s := waiting) h fair.resync (L.server k).block
  swap
  · refine absurd ⟨?_, caught⟩ failed
    change max s.pendingHead (L.server k).block < 2 ^ 63
    omega
  have head' : ready.pendingHead = (L.server k).block := head.trans reached
  have position : j' = k := L.block_inj logLaws after.inside holds.inside
    (after.pendingHead.symm.trans head')
  rw [position] at after
  obtain ⟨sent, received, finished⟩ := after.answered logLaws placementLaws pir
    (InFlight.ingested flight states) holds
  have complete_eq : ready.complete = complete := by
    have : (!ready.complete) = !complete := after.strict
    simpa using this
  have done : ready.finish = some ({ ready with inFlight := none },
      .ok (Session.outcomeOf complete (lookedUp ⟨L.params, node⟩ key))) := by
    rw [finish_synced (slot'.trans rfl) head'.symm finished, lookedUp_holds logLaws holds key, complete_eq]
  refine ⟨{ ready with inFlight := none }, ⟨L.params, node⟩, i, k, hanswer, ?_, after, rfl⟩
  have epochs : s.epoch = ready.epoch := h.epoch.trans after.epoch.symm
  have widths : s.reshapeRowWidthPerSeg = ready.reshapeRowWidthPerSeg := h.reshape.trans after.reshape.symm
  have arities : s.arity = ready.arity := h.arity.trans after.arity.symm
  have read : call.answer.read (.answer s.epoch (encodeQueryBundle ctx.queries)) =
      .ok (encodeResponseBundle (responsesOf (L.server k) ctx.queries) (L.server k).block) := by
    rw [epochs]
    exact read_eq_ok.mpr (.inr ⟨_, hanswer, sent⟩)
  have decoded := acceptAnswer_ok slot (by
    rw [widths, arities]
    exact received)
  rw [askFor, read]
  dsimp only
  rw [decoded]
  dsimp only
  rw [holds.server]
  change (if signed (L.server k).block < 0 then _ else finishAt waiting (L.server k).block call.resync) = _
  rw [signed_small small, if_neg (by omega), finishAt]
  by_cases here : (L.server k).block = s.pendingHead
  · have still : ready = waiting := by
      have stays : syncTo waiting (L.server k).block call.resync = (waiting, .ok ()) := by
        rw [syncTo]
        refine if_pos ?_
        change ((L.server k).block : Int) ≤ signed s.pendingHead
        rw [← here, signed_small small]
      exact (Prod.mk.inj (synced.symm.trans stays)).1
    rw [still] at done ⊢
    rw [done]
    dsimp only
    rw [signed_small small]
  · rw [finish_early (s := waiting) rfl here]
    dsimp only
    rw [includes_syncRequired, signed_small small]
    simp only [Bool.not_true, Bool.false_eq_true, if_false]
    rw [synced]
    dsimp only
    rw [done]

/-- A reply that decodes to an answer is a node's, at that node's block. -/
theorem answered_by (logLaws : ∀ p, (T p).LogLaws) {s : Session (T L.params) B} {i j : Nat}
    (h : Follows L complete (following s) i j) {call : BalanceCall T B} (fair : FairCall L complete call)
    {query bytes : List UInt8} (hread : call.answer.read (.answer s.epoch query) = .ok bytes)
    {decoded : List Response × Nat}
    (hdec : decodeResponseBundle bytes s.reshapeRowWidthPerSeg s.arity = .ok decoded) :
    ∃ n, call.answer = .served n ∧ decoded.2 = n.node.server.block ∧ n.node.server.block < 2 ^ 64 := by
  rcases read_eq_ok.mp hread with hbody | ⟨n, hanswer, responded⟩
  · have refused := fair.answer
    rw [hbody] at refused
    have : (decodeResponseBundle bytes s.reshapeRowWidthPerSeg s.arity).isOk = false := by
      rw [show s.reshapeRowWidthPerSeg = _ from h.reshape, show s.arity = L.params.arity from h.arity]
      exact refused
    rw [hdec] at this
    cases this
  · have on := fair.answer
    rw [hanswer] at on
    obtain ⟨node, k, rfl, holds, -⟩ := on
    obtain ⟨-, queries, responses, -, -, hbody⟩ := answerBody_ok responded
    have word : node.server.block < 2 ^ 64 := by
      rw [holds.server]
      exact below_word logLaws holds.inside
    rw [hbody] at hdec
    exact ⟨_, hanswer, decodeResponseBundle_block word hdec, word⟩

/-- An accepted answer from elsewhere than the call can be synced to fails, and stays. -/
theorem finishAt_unanswered (logLaws : ∀ p, (T p).LogLaws) (pir : B.Lawful)
    {waiting : Session (T L.params) B} {i j : Nat} (h : Follows L complete (following waiting) i j)
    {key : AddressHash} {ctx : QueryCtx} {responses : List Response} {atBlock : Nat}
    (slot : waiting.inFlight = some ⟨key, ctx, some (responses, atBlock)⟩) (small : atBlock < 2 ^ 63)
    {resync : Reply T B} (fair : Fair L complete (fun bytes => (decodeBlockDelta bytes
      L.params.plaintextBits L.params.arity).isOk) resync)
    (elsewhere : atBlock ≠ waiting.pendingHead)
    (unsynced : waiting.pendingHead ≤ atBlock →
      ¬ CaughtUp waiting.epoch resync waiting.pendingHead atBlock) :
    ∃ s' e i j, finishAt waiting atBlock resync = (some s', .error e) ∧
      Follows L complete (following s') i j ∧ s'.inFlight.isSome = true := by
  rw [finishAt, finish_early slot elsewhere]
  dsimp only
  rw [includes_syncRequired, signed_small small]
  simp only [Bool.not_true, Bool.false_eq_true, if_false]
  obtain ⟨ready, r, j', synced, after, slot', -, ⟨rfl, ⟨-, caught⟩, head⟩ | ⟨⟨e, rfl⟩, -⟩⟩ :=
    syncTo_spec logLaws pir h fair atBlock
  · -- the answer is behind the session, and the retry changes nothing
    have behind : atBlock < waiting.pendingHead := by
      by_contra ahead
      exact unsynced (by omega) caught
    have early := finish_early (slot'.trans slot) (show atBlock ≠ ready.pendingHead by omega)
    rw [synced]
    dsimp only
    rw [early]
    exact ⟨ready, _, i, j', rfl, after, by rw [slot', slot]; rfl⟩
  · rw [synced]
    exact ⟨ready, e, i, j', rfl, after, by rw [slot', slot]; rfl⟩

/-- Without such an answer the call fails, and its query stays in the slot. -/
theorem askFor_unanswered (logLaws : ∀ p, (T p).LogLaws) (pir : B.Lawful) {s : Session (T L.params) B}
    {i j : Nat} (h : Follows L complete (following s) i j) {key : AddressHash} {ctx : QueryCtx}
    (slot : s.inFlight = some ⟨key, ctx, none⟩) (small : s.pendingHead < 2 ^ 63)
    {call : BalanceCall T B} (fair : FairCall L complete call) {query : List UInt8}
    (unanswered : ¬ Answers s call s.pendingHead) :
    ∃ s' e i j, askFor s query call = (some s', .error e) ∧ Follows L complete (following s') i j ∧
      s'.inFlight.isSome = true := by
  cases hread : call.answer.read (.answer s.epoch query) with
  | error e =>
      refine ⟨s, e, i, j, ?_, h, by rw [slot]; rfl⟩
      rw [askFor, hread]
  | ok bytes =>
      cases hdec : decodeResponseBundle bytes s.reshapeRowWidthPerSeg s.arity with
      | error e =>
          refine ⟨s, .pirError (SessionError.wire e).display, i, j, ?_, h, by rw [slot]; rfl⟩
          rw [askFor, hread]
          dsimp only
          rw [Session.acceptAnswer, hdec]
      | ok decoded =>
          obtain ⟨n, hanswer, at_block, word⟩ := answered_by logLaws h fair hread hdec
          rw [askFor, hread]
          dsimp only
          rw [acceptAnswer_ok slot hdec]
          dsimp only
          by_cases small' : decoded.2 < 2 ^ 63
          · rw [signed_small small', if_neg (by omega)]
            have follows : Follows L complete (following (accepted s key ctx decoded)) i j := h
            refine finishAt_unanswered logLaws pir follows rfl small' fair.resync ?_ ?_
            · intro here
              have here' : n.node.server.block = s.pendingHead := at_block.symm.trans here
              exact unanswered ⟨n, hanswer, by omega, here'.ge, .inl here'.le⟩
            · intro ahead caught
              have ahead' : s.pendingHead ≤ n.node.server.block := at_block ▸ ahead
              exact unanswered ⟨n, hanswer, by omega, ahead', at_block ▸ caught⟩
          · rw [if_pos (signed_large (by omega) (by omega))]
            exact ⟨accepted s key ctx decoded, _, i, j, rfl, h, rfl⟩

end Sync

theorem hexBytes_length : ∀ (hex : List Char) {bytes : List UInt8}, hexBytes hex = some bytes →
    hex.length = 2 * bytes.length
  | [], bytes, h => by
      cases h
      rfl
  | [_], bytes, h => by cases h
  | c :: c' :: rest, bytes, h => by
      rw [hexBytes] at h
      obtain ⟨high, -, h⟩ := Option.bind_eq_some_iff.mp h
      obtain ⟨low, -, h⟩ := Option.bind_eq_some_iff.mp h
      obtain ⟨tail, htail, h⟩ := Option.bind_eq_some_iff.mp h
      cases h
      have := hexBytes_length rest htail
      simp only [List.length_cons]
      omega

theorem parseAddress_length {address : String} {addr : List UInt8}
    (h : parseAddress address = some addr) : addr.length = 20 := by
  unfold parseAddress at h
  dsimp only at h
  split at h
  · next hex _ =>
    by_cases forty : hex.length = 40
    · rw [if_pos forty] at h
      have := hexBytes_length hex h
      omega
    · rw [if_neg forty] at h
      cases h
  · cases h

section Run

variable {L : Lineage T B keccak256 codec} {complete : Bool}

/-- A head is read of a node, at that node's block. -/
theorem head_ok (logLaws : ∀ p, (T p).LogLaws) {call : BalanceCall T B} (fair : FairCall L complete call)
    {head : Nat} : call.head.read .head >>= readU64LE = .ok head ↔
      ∃ n, call.head = .served n ∧ head = n.node.server.block := by
  have nodes : ∀ n, call.head = .served n →
      call.head.read .head >>= readU64LE = .ok n.node.server.block := by
    intro n served
    have on := fair.head
    rw [served] at on
    obtain ⟨node, k, rfl, holds, -⟩ := on
    have word : node.server.block < 256 ^ 8 := by
      have := below_word logLaws holds.inside
      rw [holds.server]
      omega
    have read : call.head.read .head = .ok (leBytes 8 node.server.block) :=
      read_eq_ok.mpr (.inr ⟨_, served, rfl⟩)
    have parsed : readU64LE (leBytes 8 node.server.block) = .ok node.server.block := by
      rw [readU64LE, if_neg (by simp), leNat_leBytes_of_lt word]
    rw [read]
    exact parsed
  constructor
  · intro h
    cases hread : call.head.read .head with
    | error e =>
        rw [hread] at h
        cases h
    | ok bytes =>
        rcases read_eq_ok.mp hread with hbody | ⟨n, served, -⟩
        · have garbled := fair.head
          rw [hbody] at garbled
          have length : bytes.length ≠ 8 := by simpa [Fair] using garbled
          have h' : readU64LE bytes = .ok head := by rwa [hread] at h
          rw [readU64LE, if_pos length] at h'
          cases h'
        · rw [nodes n served] at h
          exact ⟨n, served, (Except.ok.inj h).symm⟩
  · rintro ⟨n, served, rfl⟩
    exact nodes n served

/-- What a call did: it never built a query, or the reply to its query finished it, or its query
is left in the slot. -/
inductive Went (complete : Bool) (keccak256 : List UInt8 → List UInt8) (s : Session (T L.params) B)
    (call : BalanceCall T B) (s' : Session (T L.params) B) : Except Failure Answered → Prop
  | unasked {e : Failure} (slot : s'.inFlight = s.inFlight)
      (unbuilt : s.inFlight.isSome = true ∨
        ∀ reached, (parseAddress call.address).isSome = true → ¬ Asks s call reached) :
      Went complete keccak256 s call s' (.error e)
  | finished {reached : Nat} {addr : List UInt8} {n : AnyNode T B} (idle : s.inFlight = none)
      (parsed : parseAddress call.address = some addr) (asks : Asks s call reached)
      (answers : Answers s call reached) (released : s'.inFlight = none)
      (served : call.answer = .served n) :
      Went complete keccak256 s call s' (.ok (.ofOutcome n.node.server.block
        (Session.outcomeOf complete (lookedUp n (addressKey keccak256 addr)))))
  | left {e : Failure} {reached : Nat} (idle : s.inFlight = none)
      (parsed : (parseAddress call.address).isSome = true) (asks : Asks s call reached)
      (unanswered : ¬ Answers s call reached) (kept : s'.inFlight.isSome = true) :
      Went complete keccak256 s call s' (.error e)

theorem lookUp_spec (logLaws : ∀ p, (T p).LogLaws) (placementLaws : ∀ p, (T p).PlacementLaws)
    (pir : B.Lawful) {s : Session (T L.params) B} {i j : Nat} (h : Follows L complete (following s) i j)
    (small : s.pendingHead < 2 ^ 63) {call : BalanceCall T B} (fair : FairCall L complete call)
    {addr : List UInt8} (length : addr.length = 20) :
    ∃ s' r i j, lookUp keccak256 s addr call = (some s', r) ∧ Follows L complete (following s') i j ∧
      ((s.inFlight.isSome = true ∧ s'.inFlight = s.inFlight ∧ ∃ e, r = .error e) ∨
        (s.inFlight = none ∧ Answers s call s.pendingHead ∧ s'.inFlight = none ∧
          ∃ n, call.answer = .served n ∧ r = .ok (.ofOutcome n.node.server.block
            (Session.outcomeOf complete (lookedUp n (addressKey keccak256 addr))))) ∨
        (s.inFlight = none ∧ ¬ Answers s call s.pendingHead ∧ s'.inFlight.isSome = true ∧
          ∃ e, r = .error e)) := by
  cases hslot : s.inFlight with
  | some slot =>
      refine ⟨s, .error (.pirError SessionError.queryAlreadyInFlight.display), i, j, ?_, h,
        .inl ⟨rfl, hslot, _, rfl⟩⟩
      rw [lookUp, buildQuery_busy (by rw [hslot]; rfl)]
  | none =>
      let key := addressKey keccak256 addr
      let built := s.client.buildQuery call.coins key
      let asking : Session (T L.params) B :=
        { s with client := built.1, inFlight := some ⟨key, built.2.2, none⟩ }
      have asked : Follows L complete (following asking) i j :=
        { h with
          tracks := tracks_buildQuery call.coins key (placementLaws _) pir.toClientLaws h.tracks }
      have flight : InFlight asking.client built.2.2 key :=
        buildQuery_inFlight call.coins key (placementLaws _) pir.toClientLaws h.tracks
      have reduce : lookUp keccak256 s addr call = askFor asking (encodeQueryBundle built.2.1) call := by
        rw [lookUp, buildQuery_idle hslot call.coins length]
      rw [reduce]
      by_cases answers : Answers s call s.pendingHead
      · obtain ⟨s', n, i', j', served, asks, after, released⟩ :=
          askFor_answers logLaws placementLaws pir asked rfl flight fair answers
        exact ⟨s', _, i', j', asks, after, .inr (.inl ⟨rfl, answers, released, n, served, rfl⟩)⟩
      · obtain ⟨s', e, i', j', asks, after, kept⟩ :=
          askFor_unanswered logLaws pir asked rfl small fair answers
        exact ⟨s', _, i', j', asks, after, .inr (.inr ⟨rfl, answers, kept, e, rfl⟩)⟩

/-- One call keeps the session on the lineage, whatever it did. -/
theorem getBalance_spec (logLaws : ∀ p, (T p).LogLaws) (placementLaws : ∀ p, (T p).PlacementLaws)
    (pir : B.Lawful) {s : Session (T L.params) B} {i j : Nat} (h : Follows L complete (following s) i j)
    {call : BalanceCall T B} (fair : FairCall L complete call) :
    ∃ s' r i j, getBalance keccak256 s call = (some s', r) ∧ Follows L complete (following s') i j ∧
      Went complete keccak256 s call s' r := by
  rw [getBalance]
  cases hparse : parseAddress call.address with
  | none =>
      refine ⟨s, _, i, j, rfl, h, .unasked rfl (.inr ?_)⟩
      intro reached parsed
      rw [hparse] at parsed
      cases parsed
  | some addr =>
      dsimp only
      cases hhead : call.head.read .head >>= readU64LE with
      | error e =>
          refine ⟨s, .error e, i, j, rfl, h, .unasked rfl (.inr ?_)⟩
          rintro reached - ⟨-, n, served, -, -⟩
          have := (head_ok logLaws fair).mpr ⟨n, served, rfl⟩
          rw [hhead] at this
          cases this
      | ok head =>
          obtain ⟨n, served, rfl⟩ := (head_ok logLaws fair).mp hhead
          dsimp only
          obtain ⟨s₁, r, j₁, synced, after, slot, -, ⟨rfl, ⟨small, caught⟩, head⟩ | ⟨⟨e, rfl⟩, failed⟩⟩ :=
            syncTo_spec logLaws pir h fair.sync n.node.server.block
          · rw [synced]
            have asks : Asks s call s₁.pendingHead := by
              rw [head]
              exact ⟨small, n, served, rfl, caught⟩
            have epochs : s₁.epoch = s.epoch := after.epoch.trans h.epoch.symm
            have same : Answers s₁ call s₁.pendingHead ↔ Answers s call s₁.pendingHead := by
              rw [Answers, Answers, epochs]
            obtain ⟨s', r, i', j', looked, follows, ⟨busy, kept, e, rfl⟩ |
                ⟨idle, answers, released, n', answer, rfl⟩ | ⟨idle, unanswered, kept, e, rfl⟩⟩ :=
              lookUp_spec logLaws placementLaws pir after asks.1 fair (parseAddress_length hparse)
            · exact ⟨s', _, i', j', looked, follows, .unasked (kept.trans slot) (.inl (slot ▸ busy))⟩
            · exact ⟨s', _, i', j', looked, follows,
                .finished (slot ▸ idle) hparse asks (same.mp answers) released answer⟩
            · exact ⟨s', _, i', j', looked, follows,
                .left (slot ▸ idle) (by rw [hparse]; rfl) asks (fun h => unanswered (same.mpr h)) kept⟩
          · rw [synced]
            refine ⟨s₁, .error e, i, j₁, rfl, after, .unasked slot (.inr ?_)⟩
            rintro reached - ⟨small, n', served', rfl, caught⟩
            cases served.symm.trans served'
            exact failed ⟨small, caught⟩

end Run

end RisePir.Web.Conversation
