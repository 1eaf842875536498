import RisePir.Http.Exchange
import RisePir.Rpc.Coverage

set_option autoImplicit false
set_option relaxedAutoImplicit false

/-! A session whose nodes stand on one lineage: its client follows the lineage, so what it
reads is what the server holds at the block of the answer. -/

namespace RisePir.Rpc.Following

open Relation
open RisePir.Proto.Types
open RisePir.Proto.Codec
open RisePir.Proto.Value
open RisePir.Upstream.Cuckoo
open RisePir.Upstream.Pir
open RisePir.Client.Core
open RisePir.Client.Delta
open RisePir.Client.EndToEnd
open RisePir.Client.Lookup
open RisePir.Client.Rewind
open RisePir.Client.Tracking
open RisePir.Server.Core
open RisePir.Server.CellDelta
open RisePir.Server.DeltaRing
open RisePir.Server.Run
open RisePir.Server.Telescope
open RisePir.Http.Bundles
open RisePir.Http.Exchange
open RisePir.Http.Lifetime
open RisePir.Http.Node
open RisePir.Http.Wire
open RisePir.Rpc.Coverage
open RisePir.Rpc.Epochs
open RisePir.Rpc.Moves
open RisePir.Rpc.NativeSession

variable {T : Tables} {B : PirBackend} {keccak256 : List UInt8 → List UInt8} {codec : ValueCodec}

/-- The nodes of a lineage in one completeness mode. -/
def OnLineage (L : Lineage T B keccak256 codec) (complete : Bool) (n : AnyNode T B) : Prop :=
  ∃ node i, n = ⟨L.params, node⟩ ∧ L.Holds node i ∧ node.complete = complete

/-- A session pinned at one position of a lineage and caught up to another. -/
structure Follows (L : Lineage T B keccak256 codec) (complete : Bool) (s : Session (T L.params) B)
    (i j : Nat) : Prop where
  ordered : i ≤ j
  inside : j ≤ L.blocks
  tracks : Tracks s.client (L.server i) (L.server j)
  pendingHead : s.pendingHead = (L.server j).block
  arity : s.arity = L.params.arity
  plaintextBits : s.plaintextBits = L.params.plaintextBits
  reshape : s.reshapeRowWidthPerSeg = (L.server 0).setup.backendParams.map (·.reshapeRowWidth)
  epoch : s.epoch = L.epoch
  strict : s.strictNotFound = !complete

variable {L : Lineage T B keccak256 codec} {complete : Bool}

/-- Whatever bundle a node of the lineage hands out is that of a position it has passed. -/
theorem holds_bundle {node : NodeState (T L.params) B} {i : Nat} (holds : L.Holds node i) :
    ∃ k ≤ i, node.setupBytes.2 = (L.server k).setup := by
  unfold NodeState.setupBytes
  cases hcache : node.setupCache with
  | none => exact ⟨i, Nat.le_refl i, by rw [← holds.server]; rfl⟩
  | some cached =>
      dsimp only
      split
      · obtain ⟨k, hk, rfl⟩ := holds.cached cached hcache
        exact ⟨k, hk, rfl⟩
      · exact ⟨i, Nat.le_refl i, by rw [← holds.server]; rfl⟩

theorem follows_fromBundle (logLaws : ∀ p, (T p).LogLaws) (pir : B.Lawful) {n : AnyNode T B}
    (on : OnLineage L complete n) : ∃ s i j,
      AnySession.fromBundle T B keccak256 n.node.setupBytes.2 codec n.node.complete = ⟨L.params, s⟩ ∧
        Follows L complete s i j := by
  obtain ⟨node, i, rfl, holds, rfl⟩ := on
  obtain ⟨k, hk, bundle⟩ := holds_bundle holds
  have inside : k ≤ L.blocks := hk.trans holds.inside
  have params := L.server_backendParams logLaws inside
  dsimp only
  rw [bundle]
  refine ⟨_, k, k, rfl, Nat.le_refl k, inside, ?_, rfl, rfl, rfl, ?_, ?_, rfl⟩
  · have tracks := Tracks.fromSetup pir.toClientLaws (L.server_wellFormed logLaws pir.toServerLaws inside)
      (L.server_hints logLaws pir.toServerLaws inside)
    rw [L.server_codec logLaws inside] at tracks
    exact tracks
  · exact congrArg (fun l : List SimpleServerParams => l.map (·.reshapeRowWidth)) params
  · rw [L.epoch_eq]
    exact congrArg (lineageEpoch keccak256) params

/-- A fetched delta is the lineage's own, and takes the client to the position it was asked for. -/
theorem Follows.fetched (logLaws : ∀ p, (T p).LogLaws) (pir : B.Lawful) {s : Session (T L.params) B}
    {i j : Nat} (h : Follows L complete s i j) {target : Nat} {delta : BlockDelta}
    (fetched : Fetched (OnLineage L complete) s.epoch s.plaintextBits s.arity s.pendingHead target delta) :
    ∃ m client, target = (L.server m).block ∧ delta.block = target ∧
      s.client.ingestDelta delta = (client, .ok ()) ∧
      Follows L complete { s with client, pendingHead := delta.block } i m := by
  obtain ⟨n, ⟨node, k, rfl, holds, -⟩, -, summed, range, decoded⟩ := fetched
  have hk := holds.inside
  have head := L.block_eq logLaws hk
  have word := L.word
  have history := run_history (logLaws _) (L.run (Nat.zero_le k) hk) (by omega)
  have below : ∀ d ∈ L.deltas 0 k, d.block ≤ (L.server k).block :=
    fun d hd => (run_inside (logLaws _) (L.run (Nat.zero_le k) hk) hd).2
  dsimp only at range
  obtain ⟨hlt, le, hblock, decodes, sums⟩ := history.range_served below (by omega)
    holds.ring range
  obtain ⟨-, -, -, segments, canonical, -⟩ := node.ring.range_spec holds.ring history.ascending
    history.fits (fun b b' le j row offset => inI64_of_magnitude (history.between_magnitude le j row
      offset)) range
  obtain ⟨rfl, -⟩ := decode_unique decoded decodes
  rw [h.pendingHead] at hlt sums
  have here := L.block_eq logLaws h.inside
  obtain ⟨m, hm⟩ : ∃ m, target = (L.server 0).block + m := ⟨target - (L.server 0).block, by omega⟩
  have hjm : j ≤ m := by omega
  have hmk : m ≤ k := by omega
  have there : target = (L.server m).block := by rw [L.block_eq logLaws (hmk.trans hk), hm]
  rw [there] at sums
  have range_eq := L.between_deltas logLaws hjm hmk hk
  rw [range_eq] at sums
  have run := L.run hjm (hmk.trans hk)
  have nonempty : L.deltas j m ≠ [] := by
    intro none
    have := run.block (logLaws _)
    rw [none, List.length_nil] at this
    omega
  obtain ⟨client, step, tracks⟩ := h.tracks.ingestDelta (logLaws _) pir.toServerLaws run nonempty
    (hblock.trans there) segments canonical sums
  exact ⟨m, client, there, hblock, step, h.ordered.trans hjm, hmk.trans hk, tracks, hblock.trans there,
    h.arity, h.plaintextBits, h.reshape, h.epoch, h.strict⟩

/-- What a node of the lineage serves for the session's range decodes. -/
theorem Follows.sync_served (logLaws : ∀ p, (T p).LogLaws) {s : Session (T L.params) B} {i j : Nat}
    (h : Follows L complete s i j) {n : AnyNode T B} (on : OnLineage L complete n) {target : Nat}
    {body : List UInt8}
    (served : n.node.sync (some s.epoch) (some (s.pendingHead, target)) = .ok body) :
    ∃ delta, decodeBlockDelta body s.plaintextBits s.arity = .ok delta ∧
      Fetched (OnLineage L complete) s.epoch s.plaintextBits s.arity s.pendingHead target delta := by
  obtain ⟨node, k, rfl, holds, mode⟩ := on
  have hepoch : s.epoch = node.epoch := h.epoch.trans holds.epoch.symm
  have gate : node.epochGate (some s.epoch) = none := by simp [NodeState.epochGate, hepoch]
  rw [NodeState.sync, gate] at served
  dsimp only at served
  cases hrange : node.ring.range s.pendingHead target with
  | none =>
      rw [hrange] at served
      cases served
  | some summed =>
      rw [hrange] at served
      cases served
      have hk := holds.inside
      have head := L.block_eq logLaws hk
      have word := L.word
      have history := run_history (logLaws _) (L.run (Nat.zero_le k) hk) (by omega)
      have below : ∀ d ∈ L.deltas 0 k, d.block ≤ (L.server k).block :=
        fun d hd => (run_inside (logLaws _) (L.run (Nat.zero_le k) hk) hd).2
      obtain ⟨-, -, -, decodes, -⟩ := history.range_served below (by omega) holds.ring hrange
      rw [← h.plaintextBits, ← h.arity] at decodes
      exact ⟨summed, decodes, _, ⟨node, k, rfl, holds, mode⟩, hepoch, summed, hrange, decodes⟩

/-- Every move of a session keeps it on the lineage. -/
theorem follows_move (logLaws : ∀ p, (T p).LogLaws) (placementLaws : ∀ p, (T p).PlacementLaws)
    (pir : B.Lawful) {s : Session (T L.params) B} {i j : Nat} (h : Follows L complete s i j)
    {a' : AnySession T B} (step : Move (OnLineage L complete) keccak256 codec ⟨L.params, s⟩ a') :
    ∃ s' i' j', a' = ⟨L.params, s'⟩ ∧ Follows L complete s' i' j' := by
  cases step with
  | ingested ahead fetched step =>
      obtain ⟨m, client, -, -, step', follows⟩ := h.fetched logLaws pir fetched
      cases (Prod.mk.inj (step.symm.trans step')).1
      exact ⟨_, i, m, rfl, follows⟩
  | refused ahead fetched step =>
      obtain ⟨m, client, -, -, step', -⟩ := h.fetched logLaws pir fetched
      cases (Prod.mk.inj (step.symm.trans step')).2
  | asked _ coins key =>
      exact ⟨_, i, j, rfl, { h with
        tracks := tracks_buildQuery coins key (placementLaws _) pir.toClientLaws h.tracks }⟩
  | replaced _ reached => exact follows_fromBundle logLaws pir reached

theorem follows_moves (logLaws : ∀ p, (T p).LogLaws) (placementLaws : ∀ p, (T p).PlacementLaws)
    (pir : B.Lawful) {a a' : AnySession T B} (h : ∃ s i j, a = ⟨L.params, s⟩ ∧ Follows L complete s i j)
    (steps : ReflTransGen (Move (OnLineage L complete) keccak256 codec) a a') :
    ∃ s i j, a' = ⟨L.params, s⟩ ∧ Follows L complete s i j := by
  induction steps with
  | refl => exact h
  | tail steps step ih =>
      obtain ⟨s, i, j, rfl, follows⟩ := ih
      exact follows_move logLaws placementLaws pir follows step

theorem InFlight.ingested {p : CuckooParams} {C : SegmentedCuckoo p} {client client' : RisePirClient C B}
    {ctx : QueryCtx} {key : AddressHash} (h : InFlight client ctx key)
    (states : client'.states = client.states) : InFlight client' ctx key :=
  ⟨h.rows, h.queries, by rw [states]; exact h.states⟩

/-- A node at the position that the session has reached answers the queries in flight, and the
lookup finishes with what it makes of that node's slots. -/
theorem Follows.answered (logLaws : ∀ p, (T p).LogLaws) (placementLaws : ∀ p, (T p).PlacementLaws)
    (pir : B.Lawful) {s : Session (T L.params) B} {i k : Nat} (h : Follows L complete s i k)
    {ctx : QueryCtx} {key : AddressHash} (flight : InFlight s.client ctx key)
    {node : NodeState (T L.params) B} (holds : L.Holds node k) :
    let responses := responsesOf (L.server k) ctx.queries
    let body := encodeResponseBundle responses (L.server k).block
    answerBody node (some s.epoch) (encodeQueryBundle ctx.queries) = .ok body ∧
      decodeResponseBundle body s.reshapeRowWidthPerSeg s.arity = .ok (responses, (L.server k).block) ∧
      s.client.finish .simple key ctx responses (L.server k).block =
        some (.ok (scanResult (T L.params) codec key
          (((T L.params).probe key).map ((T L.params).slotAt (L.server k).store.cells)))) := by
  have inside := holds.inside
  have word : (L.server k).block < 2 ^ 64 := by
    have := L.block_eq logLaws inside
    have := L.word
    omega
  obtain ⟨sent, received⟩ := exchange pir.toServerLaws h.tracks flight (L.server_widths logLaws inside)
    word holds.server
  have finish := finish_inFlight key (placementLaws _) pir h.tracks flight .simple
    (fun _ _ h => by cases h)
  rw [L.server_codec logLaws inside] at finish
  rw [L.server_backendParams logLaws inside, ← h.reshape, ← h.arity] at received
  rw [holds.epoch, ← h.epoch] at sent
  exact ⟨sent, received, finish⟩

/-- A number that the session returns is what its mode makes of the answering server's slots. -/
theorem numbered_reads (logLaws : ∀ p, (T p).LogLaws) (placementLaws : ∀ p, (T p).PlacementLaws)
    (pir : B.Lawful) {s s' : Session (T L.params) B} (h : ∃ i j, Follows L complete s i j)
    {coins : Nat → B.Coins} {key : AddressHash} {n : AnyNode T B} {b : Balance}
    (numbered : Numbered (OnLineage L complete) keccak256 codec coins key s s' n b) :
    ∃ node k, n = ⟨L.params, node⟩ ∧ L.Holds node k ∧
      balanceOf (!complete) (scanResult (T L.params) codec key
        (((T L.params).probe key).map ((T L.params).slotAt (L.server k).store.cells))) = .ok b := by
  obtain @⟨asking, body, responses, atBlock, rest, rest', before, reached, answered, decoded, replies,
    synced, finished⟩ := numbered
  obtain ⟨i₀, j₀, start⟩ := h
  obtain ⟨asking', i, j, same, follows⟩ := follows_moves logLaws placementLaws pir ⟨s, i₀, j₀, rfl, start⟩
    before
  obtain rfl : asking = asking' := by
    injection same
  obtain ⟨node, k, rfl, holds, mode⟩ := reached
  have inside := holds.inside
  have asked : Follows L complete { asking with client := (asking.client.buildQuery coins key).1 } i j :=
    { follows with
      tracks := tracks_buildQuery coins key (placementLaws _) pir.toClientLaws follows.tracks }
  have flight := buildQuery_inFlight coins key (placementLaws _) pir.toClientLaws follows.tracks
  have word : (L.server k).block < 2 ^ 64 := by
    have := L.block_eq logLaws inside
    have := L.word
    omega
  obtain ⟨hepoch, queries', written, -, -, hbody⟩ := answerBody_ok answered
  have atHead : atBlock = (L.server k).block := by
    rw [hbody] at decoded
    rw [← holds.server]
    exact decodeResponseBundle_block (by rw [holds.server]; exact word) decoded
  obtain ⟨reachedHead, lookup, hfinish, -⟩ := finishLookup_ok finished
  -- where the session stands once it has followed to the block of the answer
  have stands : Follows L complete s' i k ∧
      InFlight s'.client (asking.client.buildQuery coins key).2.2 key := by
    obtain ⟨-, ⟨-, eq⟩ | ⟨halt, eq⟩ | ⟨ahead, delta, client, fetched, ⟨step, eq⟩ | ⟨e, -, eq⟩⟩⟩ :=
      syncTo_cases { asking with client := (asking.client.buildQuery coins key).1 } replies atBlock
    · rw [synced] at eq
      cases (Prod.mk.inj eq).1
      have position : j = k := L.block_inj logLaws asked.inside inside (by
        rw [← asked.tracks.headBlock, ← atHead]
        exact reachedHead.symm)
      rw [← position]
      exact ⟨asked, flight⟩
    · rw [synced] at eq
      cases (Prod.mk.inj (Prod.mk.inj eq).2).2
    · rw [synced] at eq
      cases (Prod.mk.inj eq).1
      obtain ⟨m, client', there, hblock, step', after⟩ := asked.fetched logLaws pir fetched
      cases (Prod.mk.inj (step.symm.trans step')).1
      have position : m = k := L.block_inj logLaws after.inside inside (there.symm.trans atHead)
      rw [position] at after
      exact ⟨after, InFlight.ingested flight (ingestDelta_head step).1⟩
    · rw [synced] at eq
      cases (Prod.mk.inj (Prod.mk.inj eq).2).2
  obtain ⟨after, flight'⟩ := stands
  obtain ⟨sent, received, finish⟩ := after.answered logLaws placementLaws pir flight' holds
  have read : responses = responsesOf (L.server k) (asking.client.buildQuery coins key).2.1 := by
    rw [after.epoch, ← asked.epoch] at sent
    have same := answered.symm.trans sent
    rw [Except.ok.inj same, asked.reshape.trans after.reshape.symm, asked.arity.trans after.arity.symm]
      at decoded
    have := decoded.symm.trans received
    exact (Prod.mk.inj (Except.ok.inj this)).1
  refine ⟨node, k, rfl, holds, ?_⟩
  unfold finishLookup at finished
  rw [read, atHead] at finished
  have hfinished : s'.client.finish .simple key (asking.client.buildQuery coins key).2.2
      (responsesOf (L.server k) (asking.client.buildQuery coins key).2.1) (L.server k).block = _ := finish
  rw [hfinished, after.strict] at finished
  exact finished

end RisePir.Rpc.Following
