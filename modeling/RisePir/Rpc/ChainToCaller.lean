import RisePir.Lib.Transitions
import RisePir.Rpc.Durability
import RisePir.Rpc.JsonRpc

set_option autoImplicit false
set_option relaxedAutoImplicit false

/-! The whole deployment from the chain to the caller. A process follows the chain and serves it
while an endpoint's requests are under way, and every balance an endpoint answers is the
chain's. -/

namespace RisePir.Rpc.ChainToCaller

open RisePir.Lib.Digits
open RisePir.Lib.Text
open RisePir.Lib.Transitions
open RisePir.Proto.Types
open RisePir.Proto.Value
open RisePir.Upstream.Cuckoo
open RisePir.Upstream.Pir
open RisePir.Upstream.ReferencePir
open RisePir.Upstream.ReferenceTable
open RisePir.Client.Lookup
open RisePir.Server.Core
open RisePir.Server.DeltaRing
open RisePir.Server.Ledger
open RisePir.Server.Refinement
open RisePir.Server.Run
open RisePir.Server.Small
open RisePir.Server.Telescope
open RisePir.Server.Verified
open RisePir.Http.Node
open RisePir.Http.Serving
open RisePir.Http.Wire
open RisePir.Feed.Rpc
open RisePir.Rpc.Durability
open RisePir.Rpc.Epochs
open RisePir.Rpc.Following
open RisePir.Rpc.Front
open RisePir.Rpc.JsonRpc
open RisePir.Rpc.Mainnet
open RisePir.Rpc.Moves
open RisePir.Rpc.NativeSession
open RisePir.Rpc.TrueBalances

/-- The key of a chain account, by the bytes of its address. -/
def chainKey (keccak256 : List UInt8 → List UInt8) (addr : Address) : AddressHash :=
  addressKey keccak256 (leBytes 20 addr.toNat)

theorem chainKey_addressOf (keccak256 : List UInt8 → List UInt8) {bytes : List UInt8}
    (length : bytes.length = 20) : chainKey keccak256 (addressOf bytes) = addressKey keccak256 bytes := by
  have small : leNat bytes < 2 ^ 160 := by
    have bound := leNat_lt bytes
    rw [length] at bound
    exact bound
  have back := leBytes_leNat bytes
  rw [length] at back
  rw [chainKey, addressOf, BitVec.toNat_ofNat, Nat.mod_eq_of_lt small, back]

variable {T : Tables} {B : PirBackend} {p : CuckooParams}

section Growing

variable {first : RisePirServer (T p) B}

/-- The servers of a process so far, block by block, with the deltas between them. -/
structure Growth (first : RisePirServer (T p) B) where
  blocks : Nat
  server : Nat → RisePirServer (T p) B
  delta : Nat → BlockDelta
  start : server 0 = first
  steps : ∀ i, i < blocks → BlockRun (server i) [delta i] (server (i + 1))

namespace Growth

def begin (first : RisePirServer (T p) B) : Growth first :=
  ⟨0, fun _ => first, fun _ => ⟨0, []⟩, rfl, nofun⟩

def deltas (g : Growth first) (i : Nat) : List BlockDelta := (List.range' 0 i).map g.delta

/-- One more block. -/
def grow (g : Growth first) {next : RisePirServer (T p) B} {d : BlockDelta}
    (step : BlockRun (g.server g.blocks) [d] next) : Growth first where
  blocks := g.blocks + 1
  server i := if i ≤ g.blocks then g.server i else next
  delta i := if i < g.blocks then g.delta i else d
  start := by rw [if_pos (Nat.zero_le _), g.start]
  steps i hi := by
    rcases Nat.lt_succ_iff_lt_or_eq.mp hi with below | rfl
    · rw [if_pos (by omega), if_pos below, if_pos (by omega)]
      exact g.steps i below
    · rw [if_pos le_rfl, if_neg (lt_irrefl _), if_neg (by omega)]
      exact step

variable {g : Growth first} {next : RisePirServer (T p) B} {d : BlockDelta}
  {step : BlockRun (g.server g.blocks) [d] next} {keccak256 : List UInt8 → List UInt8}
  {node : NodeState (T p) B} {i : Nat}

theorem grow_server (inside : i ≤ g.blocks) : (g.grow step).server i = g.server i := if_pos inside

theorem grow_last : (g.grow step).server (g.blocks + 1) = next := if_neg (by omega)

theorem grow_deltas (inside : i ≤ g.blocks) : (g.grow step).deltas i = g.deltas i := by
  apply List.map_congr_left
  intro k hk
  have below := List.mem_range'_1.mp hk
  exact if_pos (by omega)

theorem grow_deltas_last : (g.grow step).deltas (g.blocks + 1) = g.deltas g.blocks ++ [d] := by
  rw [deltas, List.range'_1_concat, List.map_append, Nat.zero_add]
  congr 1
  · exact grow_deltas le_rfl
  · exact congrArg List.singleton (if_neg (lt_irrefl _))

/-- The node stands behind block `i` of the process, with what it retains of the blocks before. -/
structure At (keccak256 : List UInt8 → List UInt8) (complete : Bool) (g : Growth first)
    (node : NodeState (T p) B) (i : Nat) : Prop where
  inside : i ≤ g.blocks
  epoch : node.epoch = lineageEpoch keccak256 first.setup.backendParams
  server : node.server = g.server i
  ring : node.ring.buf <:+ g.deltas i
  cached : ∀ bundle, node.setupCache = some bundle → ∃ k ≤ i, bundle = (g.server k).setup
  complete : node.complete = complete

variable {complete : Bool}

theorem At.grow (h : At keccak256 complete g node i) :
    At keccak256 complete (g.grow step) node i where
  inside := h.inside.trans (Nat.le_succ _)
  epoch := h.epoch
  server := by rw [grow_server h.inside, h.server]
  ring := by rw [grow_deltas h.inside]; exact h.ring
  cached bundle hcache := by
    obtain ⟨k, hk, rfl⟩ := h.cached bundle hcache
    exact ⟨k, hk, by rw [grow_server (hk.trans h.inside)]⟩
  complete := h.complete

/-- An applied block takes the node one position further. -/
theorem At.applied (h : At keccak256 complete g node g.blocks) {rng : (T p).Rng}
    {update : BlockUpdate} {node' : NodeState (T p) B} {report : BlockApplyReport}
    (block : update.block = node.server.block + 1)
    (applied : node.applyBlockReporting rng update = (node', .ok (d, report))) :
    ∃ step : BlockRun (g.server g.blocks) [d] node'.server,
      At keccak256 complete (g.grow step) node' (g.blocks + 1) := by
  unfold NodeState.applyBlockReporting at applied
  cases served : node.server.applyBlockReporting rng update with
  | mk server r =>
      rw [served] at applied
      cases r with
      | error e => cases applied
      | ok out =>
          obtain ⟨delta, report'⟩ := out
          cases applied
          rw [h.server] at served block
          refine ⟨.cons block served (.nil _), le_rfl, h.epoch, grow_last.symm, ?_,
            fun bundle hcache => ?_, h.complete⟩
          · rw [grow_deltas_last]
            exact Ring.push_suffix h.ring d
          · obtain ⟨k, hk, rfl⟩ := h.cached bundle hcache
            exact ⟨k, hk.trans (Nat.le_succ _), by rw [grow_server hk]⟩

/-- A setup request caches at most the bundle of where the node stands. -/
theorem At.setup (h : At keccak256 complete g node i) :
    At keccak256 complete g node.setupBytes.1 i := by
  have here : node.server.setup = (g.server i).setup := by rw [h.server]
  unfold NodeState.setupBytes
  cases hcache : node.setupCache with
  | none =>
      exact ⟨h.inside, h.epoch, h.server, h.ring,
        fun bundle hb => ⟨i, le_rfl, (Option.some.inj hb).symm.trans here⟩, h.complete⟩
  | some cached =>
      dsimp only
      split
      · exact h
      · exact ⟨h.inside, h.epoch, h.server, h.ring,
          fun bundle hb => ⟨i, le_rfl, (Option.some.inj hb).symm.trans here⟩, h.complete⟩

/-- The process so far as one epoch's history. -/
def lineage (g : Growth first) (keccak256 : List UInt8 → List UInt8) (codec : ValueCodec)
    (wellFormed : WellFormed first) (hints : HintsMatch (p := p) first.segments first.store.cells)
    (codec_eq : first.valueCodec = codec) (word : first.block + g.blocks < 2 ^ 64)
    (widths : ∀ seg ∈ first.segments, seg.params.reshapeRowWidth < 2 ^ 32) :
    Lineage T B keccak256 codec where
  params := p
  epoch := lineageEpoch keccak256 first.setup.backendParams
  blocks := g.blocks
  server := g.server
  delta := g.delta
  steps := g.steps
  wellFormed := by rw [g.start]; exact wellFormed
  hints := by rw [g.start]; exact hints
  codec_eq := by rw [g.start]; exact codec_eq
  word := by rw [g.start]; exact word
  widths := by rw [g.start]; exact widths
  epoch_eq := by rw [g.start]

end Growth

end Growing

section Live

variable {keccak256 : List UInt8 → List UInt8} {chain : Chain} {cfg : FollowConfig}
  {codec : ValueCodec} {accounts : Set Address} {first : RisePirServer (T p) B}
  {l l' : FollowLoop (T p) B} {trace shown : List (NodeState (T p) B)} {g : Growth first}

/-- One step of the serving process: an event of its follow loop that brings it the chain's next
block, or a setup request. It shows the node it leaves. -/
inductive LiveStep (keccak256 : List UInt8 → List UInt8) (chain : Chain) (cfg : FollowConfig) :
    FollowLoop (T p) B → List (NodeState (T p) B) → FollowLoop (T p) B → Prop
  | followed {l : FollowLoop (T p) B} (event : Mainnet.Event (T p))
      (fed : FedEvent (chainKey keccak256) chain l event)
      (applies : ¬ FailedApply (l.step (chainKey keccak256) cfg event)) :
      LiveStep keccak256 chain cfg l [(l.step (chainKey keccak256) cfg event).node]
        (l.step (chainKey keccak256) cfg event)
  | setup (l : FollowLoop (T p) B) :
      LiveStep keccak256 chain cfg l [l.node.setupBytes.1] { l with node := l.node.setupBytes.1 }

/-- An event leaves the node as it is or applies one block to it, where no block fails. -/
theorem step_node {hash : Address → AddressHash} {event : Mainnet.Event (T p)}
    (applies : ¬ FailedApply (l.step hash cfg event)) :
    ((l.step hash cfg event).node = l.node ∧ (l.step hash cfg event).last = l.last) ∨
      ∃ rng update delta report, update.block = l.last + 1 ∧
        l.node.applyBlockReporting rng update =
          ((l.step hash cfg event).node, .ok (delta, report)) ∧
        (l.step hash cfg event).last = l.last + 1 := by
  cases event with
  | polled finalized =>
      have heard : (l.step hash cfg (.polled finalized)).node = l.node ∧
          (l.step hash cfg (.polled finalized)).last = l.last ∧ _ := step_heard nofun
      exact .inl ⟨heard.1, heard.2.1⟩
  | queued corrections => exact .inl ⟨rfl, rfl⟩
  | fetched block rng confirm =>
      cases block with
      | none => exact .inl ⟨rfl, rfl⟩
      | some block =>
          rw [FollowLoop.step] at applies ⊢
          by_cases running : l.stopped.isNone ∧ l.last < l.finalized
          · rw [if_pos running] at applies ⊢
            rw [FollowLoop.follow] at applies ⊢
            rcases happly : l.applyFetched cfg rng block.update with ⟨l₁, _ | delta⟩
            · rw [happly] at applies
              dsimp only at applies ⊢
              obtain ⟨last, -, failed | node⟩ := applyFetched_none happly
              · exact absurd failed applies
              · exact .inl ⟨node, last⟩
            · obtain ⟨update, report, label, -, applied, last, -⟩ := applyFetched_some happly
              obtain ⟨node, last', -⟩ := checkpoint_stopped hash cfg confirm l₁ block.changed
                block.credited
              dsimp only
              rw [node, last']
              exact .inr ⟨rng, update, delta, report, label, applied, last⟩
          · rw [if_neg running]
            exact .inl ⟨rfl, rfl⟩

/-- What holds of the process behind a run: every node it has shown stands at one of its blocks,
and the store behind every block is exact. -/
structure Live (keccak256 : List UInt8 → List UInt8) (chain : Chain) (cfg : FollowConfig)
    (codec : ValueCodec) (accounts : Set Address) (g : Growth first)
    (trace : List (NodeState (T p) B)) (l : FollowLoop (T p) B) : Prop where
  here : g.At keccak256 cfg.complete l.node g.blocks
  visited : ∀ node ∈ trace, ∃ i, g.At keccak256 cfg.complete node i
  last : l.last = first.block + g.blocks
  block : l.node.server.block = l.last
  tracked : ∃ m, TrueBalances.Tracks (chainKey keccak256) chain cfg codec accounts l m
  exact : ∀ i ≤ g.blocks, ∃ m, Represents (T p) codec (g.server i).store.cells m ∧
    ExactOn (chainKey keccak256) chain cfg.complete (first.block + i) accounts m

/-- A step that leaves the server where it is. -/
theorem Live.stay (h : Live keccak256 chain cfg codec accounts g trace l) (last : l'.last = l.last)
    (server : l'.node.server = l.node.server)
    (here : g.At keccak256 cfg.complete l'.node g.blocks)
    (tracked : ∃ m, TrueBalances.Tracks (chainKey keccak256) chain cfg codec accounts l' m) :
    Live keccak256 chain cfg codec accounts g (trace ++ [l'.node]) l' := by
  refine ⟨here, fun node mem => ?_, last.trans h.last, ?_, tracked, h.exact⟩
  · rcases List.mem_append.mp mem with old | new
    · exact h.visited node old
    · rw [List.mem_singleton.mp new]
      exact ⟨_, here⟩
  · rw [server, last, h.block]

theorem live_step (logLaws : ∀ p, (T p).LogLaws) (laws : (T p).PlacementLaws)
    (apart : Apart (T p) codec (chainKey keccak256) accounts)
    (touched : ∀ n, first.block < n → ∀ addr ∈ chain.touched n, addr ∈ accounts)
    (h : Live keccak256 chain cfg codec accounts g trace l)
    (taken : LiveStep keccak256 chain cfg l shown l') :
    ∃ g' : Growth first, Live keccak256 chain cfg codec accounts g' (trace ++ shown) l' := by
  cases taken with
  | setup =>
      obtain ⟨m, tracks⟩ := h.tracked
      have server := setupBytes_server l.node
      have last : ({ l with node := l.node.setupBytes.1 } : FollowLoop (T p) B).last = l.last := rfl
      refine ⟨g, h.stay last server h.here.setup ⟨m, ?_, ?_, tracks.exact, tracks.quiet⟩⟩
      · rw [server, tracks.sameCodec]
      · rw [server]
        exact tracks.represents
  | followed event fed applies =>
      obtain ⟨m, tracks⟩ := h.tracked
      have next : ∀ addr ∈ chain.touched (l.last + 1), addr ∈ accounts :=
        touched _ (by rw [h.last]; omega)
      rcases step_tracks laws apart next tracks fed with failed | ⟨-, m', tracks'⟩
      · exact absurd failed applies
      · rcases step_node applies with ⟨node, last⟩ | ⟨rng, update, delta, report, label, applied, last⟩
        · exact ⟨g, h.stay last (congrArg NodeState.server node) (by rw [node]; exact h.here)
            ⟨m', tracks'⟩⟩
        · obtain ⟨step, here⟩ := h.here.applied (label.trans (by rw [h.block])) applied
          have moved : (l.step (chainKey keccak256) cfg event).last =
              first.block + (g.blocks + 1) := by rw [last, h.last, Nat.add_assoc]
          refine ⟨g.grow step, here, fun node mem => ?_, moved, ?_, ⟨m', tracks'⟩, fun i inside => ?_⟩
          · rcases List.mem_append.mp mem with old | new
            · obtain ⟨i, visited⟩ := h.visited node old
              exact ⟨i, visited.grow⟩
            · rw [List.mem_singleton.mp new]
              exact ⟨_, here⟩
          · have run := (BlockRun.cons (label.trans (by rw [h.block])) (apply_server applied)
              (.nil _)).block (logLaws p)
            rw [run, h.block, last]
            rfl
          · rcases Nat.lt_succ_iff_lt_or_eq.mp (Nat.lt_succ_of_le inside) with below | rfl
            · have old := Nat.lt_succ_iff.mp below
              rw [Growth.grow_server old]
              exact h.exact i old
            · refine ⟨m', ?_, ?_⟩
              · change Represents (T p) codec ((g.grow step).server (g.blocks + 1)).store.cells m'
                rw [← here.server]
                exact tracks'.represents
              · change ExactOn _ _ _ (first.block + (g.blocks + 1)) _ _
                rw [← moved]
                exact tracks'.exact

/-- Where a process begins: a fresh node, an exact store and the store's own block. -/
structure Beginning (keccak256 : List UInt8 → List UInt8) (chain : Chain) (cfg : FollowConfig)
    (first : RisePirServer (T p) B) (m₀ : Balances) : Prop where
  wellFormed : WellFormed first
  hints : HintsMatch (p := p) first.segments first.store.cells
  widths : ∀ seg ∈ first.segments, seg.params.reshapeRowWidth < 2 ^ 32
  represents : Represents (T p) first.valueCodec first.store.cells m₀
  exact : Exact (chainKey keccak256) chain cfg.complete first.block m₀
  apart : Apart (T p) first.valueCodec (chainKey keccak256)
    (inPlay (chainKey keccak256) chain first.block m₀)

/-- The process before its first step. -/
def begun (keccak256 : List UInt8 → List UInt8) (cfg : FollowConfig) (first : RisePirServer (T p) B)
    (capacity : Nat) (pos : 0 < capacity) : FollowLoop (T p) B :=
  .start (.new keccak256 first (.new capacity pos) cfg.complete) first.block

theorem live_run (logLaws : ∀ p, (T p).LogLaws) (laws : (T p).PlacementLaws) {m₀ : Balances}
    (begins : Beginning keccak256 chain cfg first m₀) {capacity : Nat} {pos : 0 < capacity}
    (run : Run (LiveStep keccak256 chain cfg) (begun keccak256 cfg first capacity pos) trace l) :
    ∃ g : Growth first, Live keccak256 chain cfg first.valueCodec
      (inPlay (chainKey keccak256) chain first.block m₀) g
      ((begun keccak256 cfg first capacity pos).node :: trace) l := by
  have exactOn : ExactOn (chainKey keccak256) chain cfg.complete first.block
      (inPlay (chainKey keccak256) chain first.block m₀) m₀ :=
    begins.exact.on begins.apart.1 fun addr stored => .inl stored
  have start : (Growth.begin first).At keccak256 cfg.complete
      (begun keccak256 cfg first capacity pos).node 0 :=
    ⟨le_rfl, rfl, rfl, List.suffix_refl [], nofun, rfl⟩
  refine run.invariant (P := fun trace l => ∃ g : Growth first, Live keccak256 chain cfg
    first.valueCodec (inPlay (chainKey keccak256) chain first.block m₀) g
      ((begun keccak256 cfg first capacity pos).node :: trace) l) ?_ ?_
  · refine ⟨.begin first, start, fun node mem => ?_, rfl, rfl,
      ⟨m₀, rfl, begins.represents, exactOn, rfl⟩, fun i inside => ?_⟩
    · rw [List.mem_singleton.mp mem]
      exact ⟨0, start⟩
    · obtain rfl := Nat.le_zero.mp inside
      exact ⟨m₀, begins.represents, exactOn⟩
  · rintro trace s shown s' ⟨g, live⟩ taken
    exact live_step logLaws laws begins.apart (fun n ahead addr mem => .inr ⟨n, ahead, mem⟩) live taken

end Live

section Exactness

variable {keccak256 : List UInt8 → List UInt8} {chain : Chain} {complete : Bool} {n : Nat}
  {codec : ValueCodec} {accounts : Set Address} {m : Balances} {addr : Address}

/-- An account that competes with none in play is clear of what the store holds. -/
theorem clear_of_apart {hash : Address → AddressHash}
    (exact : ExactOn hash chain complete n accounts m)
    (apart : Apart (T p) codec hash (insert addr accounts)) : Clear (T p) codec m (hash addr) := by
  refine apart.2.clear (fun k live => ?_) ⟨addr, Set.mem_insert addr _, rfl⟩
  obtain ⟨known, hknown, same⟩ := exact.live k live
  exact ⟨known, Set.mem_insert_of_mem addr hknown, same⟩

/-- An exact store holds an account that competes with none in one slot, with its balance on the
chain, or in none. -/
theorem slots_exact (laws : (T p).PlacementLaws) {hash : Address → AddressHash}
    {s : RisePirServer (T p) B} (codec_eq : s.valueCodec = codec)
    (represents : Represents (T p) codec s.store.cells m)
    (exact : ExactOn hash chain complete n accounts m)
    (apart : Apart (T p) codec hash (insert addr accounts)) :
    (ownSlots (T p) codec s.store.cells (hash addr) = [] ∧
        (complete = true → chain.balance n addr = 0)) ∨
      ∃ slot, ownSlots (T p) codec s.store.cells (hash addr) = [slot] ∧
        s.balanceOf (hash addr) = .ok (some (chain.balance n addr)) := by
  subst codec_eq
  have clear := clear_of_apart exact apart
  have read := balanceOf_eq laws represents clear
  obtain ⟨owner, owned⟩ := represents
  cases hm : m (hash addr) with
  | none => exact .inl ⟨owned.ownSlots_absent laws clear hm, fun whole => exact.exact.absent whole addr hm⟩
  | some b =>
      obtain ⟨slot, own, -⟩ := owned.ownSlots_live laws clear hm
      obtain ⟨known, hknown, same⟩ := exact.live (hash addr) (by rw [hm]; exact Option.some_ne_none b)
      obtain rfl : known = addr :=
        apart.1 (Set.mem_insert_of_mem addr hknown) (Set.mem_insert addr _) same
      rw [hm, exact.present known hknown b hm] at read
      exact .inr ⟨slot, own, read⟩

end Exactness

theorem parseAddress_length {addr : String} {bytes : List UInt8}
    (h : parseAddress addr = some bytes) : bytes.length = 20 := by
  unfold parseAddress at h
  simp only [Option.bind_eq_bind, Option.bind_eq_some_iff] at h
  obtain ⟨hex, -, h⟩ := h
  by_cases count : hex.length ≠ 40
  · rw [if_pos count] at h
    cases h
  · rw [if_neg count] at h
    have := hexBytes_length h
    omega

/-- The address of a request has twenty bytes. -/
theorem asks_length {ep : Endpoint} {body addr : List UInt8} {id : Value} {block : String}
    (asks : Asks ep body id addr block) : addr.length = 20 := by
  obtain ⟨-, _, _, _, -, -, -, -, parsed⟩ := asks
  exact parseAddress_length parsed

/-- A body asks for one account. -/
theorem asks_unique {ep : Endpoint} {body addr addr' : List UInt8} {id id' : Value}
    {block block' : String} (asks : Asks ep body id addr block) (asks' : Asks ep body id' addr' block') :
    addr = addr' := by
  obtain ⟨-, value, params, addrStr, hvalue, -, hparse, hparams, haddr⟩ := asks
  obtain ⟨-, value', params', addrStr', hvalue', -, hparse', hparams', haddr'⟩ := asks'
  rw [hvalue] at hvalue'
  cases hvalue'
  rw [hparse] at hparse'
  cases hparse'
  rw [hparams] at hparams'
  cases hparams'
  rw [haddr] at haddr'
  exact Option.some.inj haddr'

section Answers

variable {ep : Endpoint} {codec : ValueCodec} {L : Lineage T B ep.keccak256 codec} {complete : Bool}

/-- Whoever waits has asked for the balance of the account under its key. -/
theorem handle_waiting {body : List UInt8} {head : Reply T B} {upstream : UpstreamReply} {w : Waiting}
    (h : (handle ep body head upstream).2 = some w) :
    ∃ addr block, Asks ep body w.id addr block ∧ w.key = addressKey ep.keccak256 addr := by
  unfold handle at h
  by_cases long : MAX_RPC_BODY_BYTES < body.length
  · rw [if_pos long] at h
    cases h
  · rw [if_neg long] at h
    cases hslice : ep.serde.fromSlice body with
    | error e =>
        rw [hslice] at h
        cases h
    | ok value =>
        rw [hslice] at h
        dsimp only at h
        rcases hparse : parseMethodAndParams value with e | ⟨method, params⟩
        · rw [hparse] at h
          cases h
        · rw [hparse] at h
          dsimp only at h
          by_cases known : method ∈ KNOWN_METHODS
          · rw [if_pos known] at h
            unfold dispatch at h
            split at h
            · unfold JsonRpc.ethGetBalance at h
              rcases hparams : ep.serde.balanceParams params with e | ⟨addrStr, block⟩
              · rw [hparams] at h
                cases h
              · rw [hparams] at h
                dsimp only at h
                cases haddr : parseAddress addrStr with
                | none =>
                    rw [haddr] at h
                    cases h
                | some addr20 =>
                    rw [haddr] at h
                    dsimp only at h
                    cases hhead : head.head with
                    | error halt =>
                        rw [hhead] at h
                        cases h
                    | ok n =>
                        rw [hhead] at h
                        dsimp only at h
                        cases hclass : classifyBlockParam ep.debug block n with
                        | error e =>
                            rw [hclass] at h
                            cases h
                        | ok u =>
                            rw [hclass] at h
                            cases h
                            exact ⟨addr20, block, ⟨long, value, params, addrStr, hslice, rfl, hparse,
                              hparams, haddr⟩, rfl⟩
            · cases h
            · cases h
            · cases h
            · cases h
          · rw [if_neg known] at h
            cases hproxy : ep.proxyUpstream with
            | none =>
                rw [hproxy] at h
                cases h
            | some url =>
                rw [hproxy] at h
                cases h

theorem from_mono {world world' : AnyNode T B → Prop} {replies : List (Reply T B)}
    (h : From world replies) (into : ∀ n, world n → world' n) : From world' replies := by
  intro reply mem n modeHeader served
  obtain ⟨reached, header⟩ := h reply mem n modeHeader served
  exact ⟨into n reached, header⟩

/-- Every reply that a lookup reads comes from a node of the world. -/
def Served (world : AnyNode T B → Prop) : JsonRpc.Event T B → Prop
  | .locked _ _ _ _ replies => From world replies
  | _ => True

theorem Served.mono {world world' : AnyNode T B → Prop} {event : JsonRpc.Event T B}
    (h : Served world event) (into : ∀ n, world n → world' n) : Served world' event := by
  cases event with
  | received body head upstream => trivial
  | dropped n => trivial
  | locked n coins coins' now replies => exact from_mono h into

/-- An endpoint behind a run: its session follows the lineage, and whoever waits has asked. -/
structure Attends (L : Lineage T B ep.keccak256 codec) (complete : Bool)
    (events : List (JsonRpc.Event T B)) (s : JsonRpc.State T B) : Prop where
  session : ∃ t i j, s.eth.session = ⟨L.params, t⟩ ∧ Follows L complete t i j
  codec_eq : s.eth.valueCodec = codec
  waiting : ∀ w ∈ s.waiting, ∃ body head upstream addr block,
    JsonRpc.Event.received body head upstream ∈ events ∧ Asks ep body w.id addr block ∧
      w.key = addressKey ep.keccak256 addr

theorem Attends.step (logLaws : ∀ p, (T p).LogLaws) (placementLaws : ∀ p, (T p).PlacementLaws)
    (pir : B.Lawful) {events : List (JsonRpc.Event T B)} {s : JsonRpc.State T B}
    (h : Attends L complete events s) {event : JsonRpc.Event T B}
    (served : Served (OnLineage L complete) event) :
    Attends L complete (events ++ [event]) (JsonRpc.step ep s event).1 := by
  have older : ∀ w ∈ s.waiting, ∃ body head upstream addr block,
      JsonRpc.Event.received body head upstream ∈ events ++ [event] ∧ Asks ep body w.id addr block ∧
        w.key = addressKey ep.keccak256 addr := by
    intro w mem
    obtain ⟨body, head, upstream, addr, block, received, asks⟩ := h.waiting w mem
    exact ⟨body, head, upstream, addr, block, List.mem_append_left _ received, asks⟩
  cases event with
  | received body head upstream =>
      refine ⟨h.session, h.codec_eq, fun w mem => ?_⟩
      rcases List.mem_append.mp mem with old | new
      · exact older w old
      · obtain ⟨addr, block, asks⟩ := handle_waiting (Option.mem_toList.mp new)
        exact ⟨body, head, upstream, addr, block, by simp, asks⟩
  | dropped n => exact ⟨h.session, h.codec_eq, fun w mem => older w (List.mem_of_mem_eraseIdx mem)⟩
  | locked n coins coins' now replies =>
      cases hwait : s.waiting[n]? with
      | none =>
          simp only [JsonRpc.step, hwait]
          exact ⟨h.session, h.codec_eq, older⟩
      | some w =>
          simp only [JsonRpc.step, hwait]
          obtain ⟨moves, same, -⟩ := getBalance_moves ep.keccak256 s.eth served coins coins' now w.key
          rw [h.codec_eq] at moves same
          exact ⟨follows_moves logLaws placementLaws pir h.session moves, same,
            fun w mem => older w (List.mem_of_mem_eraseIdx mem)⟩

/-- The endpoint after a run. -/
def after (ep : Endpoint) (s : JsonRpc.State T B) (events : List (JsonRpc.Event T B)) :
    JsonRpc.State T B :=
  events.foldl (fun s event => (JsonRpc.step ep s event).1) s

theorem Attends.after (logLaws : ∀ p, (T p).LogLaws) (placementLaws : ∀ p, (T p).PlacementLaws)
    (pir : B.Lawful) {before events : List (JsonRpc.Event T B)} {s : JsonRpc.State T B}
    (h : Attends L complete before s) (served : ∀ event ∈ events, Served (OnLineage L complete) event) :
    Attends L complete (before ++ events) (ChainToCaller.after ep s events) := by
  induction events generalizing before s with
  | nil =>
      rw [List.append_nil]
      exact h
  | cons event events ih =>
      have next := h.step logLaws placementLaws pir (served event (by simp))
      have rest := ih next fun e mem => served e (List.mem_cons_of_mem _ mem)
      rw [List.append_assoc] at rest
      exact rest

/-- A number is the exact balance at the block of the node that answered the query. -/
theorem Attends.number (logLaws : ∀ p, (T p).LogLaws) (placementLaws : ∀ p, (T p).PlacementLaws)
    (pir : B.Lawful) {events : List (JsonRpc.Event T B)} {s : JsonRpc.State T B}
    (h : Attends L complete events s) {key : AddressHash} {balanceAt : Nat → Balance}
    (exact : StoreExact L complete key balanceAt) {replies : List (Reply T B)}
    (served : From (OnLineage L complete) replies) {coins coins' : Nat → B.Coins} {now : Nat}
    {b : Balance} (got : (s.eth.getBalance ep.keccak256 coins coins' now key replies).2.2 = .ok b) :
    ∃ answering k, lastAnswering ep.keccak256 coins now key s.eth replies = some answering ∧
      k ≤ L.blocks ∧ answering.node.server.block = (L.server k).block ∧
      b = balanceAt answering.node.server.block := by
  obtain ⟨-, -, numbers⟩ := getBalance_moves ep.keccak256 s.eth served coins coins' now key
  obtain ⟨answering, answers, p, coins'', t, t', before, numbered, -⟩ := numbers b got
  rw [h.codec_eq] at before numbered
  obtain ⟨t₀, i, j, same, follows⟩ := follows_moves logLaws placementLaws pir h.session before
  have params : p = L.params := congrArg AnySession.params same
  subst params
  obtain rfl : t = t₀ := by
    injection same
  obtain ⟨node, k, rfl, holds, read⟩ := numbered_reads logLaws placementLaws pir ⟨i, j, follows⟩ numbered
  refine ⟨_, k, answers, holds.inside, congrArg RisePirServer.block holds.server, ?_⟩
  dsimp only
  rw [holds.server]
  exact exact.read logLaws placementLaws holds.inside read

end Answers

/-- The nodes that a process shows over a run, its first one with them. -/
def Shown (start : FollowLoop (T p) B) (trace : List (NodeState (T p) B)) (n : AnyNode T B) : Prop :=
  ∃ node ∈ start.node :: trace, n = ⟨p, node⟩

/-- The endpoint of a session that has bootstrapped from a node. -/
def opened (ep : Endpoint) (bootstrap : AnyNode T B) (codec : ValueCodec) : JsonRpc.State T B :=
  ⟨.fromSetup T B ep.keccak256 bootstrap.node.setupBytes.2 bootstrap.node.complete codec, []⟩

/-- From the chain to the caller: while a process follows the chain and is asked at any moments,
whatever requests wait, interleave and are dropped at an endpoint, a balance that a waiting request
is answered goes out under the id of a request that was received, and it is the chain's balance of
the account that request names, at the block of the node that answered the query. -/
theorem answers_chain (logLaws : ∀ p, (T p).LogLaws) (placementLaws : ∀ p, (T p).PlacementLaws)
    (pir : B.Lawful) {ep : Endpoint} {chain : Chain} {cfg : FollowConfig}
    {first : RisePirServer (T p) B} {m₀ : Balances}
    (begins : Beginning ep.keccak256 chain cfg first m₀) {capacity : Nat} {pos : 0 < capacity}
    {trace : List (NodeState (T p) B)} {l : FollowLoop (T p) B}
    (run : Run (LiveStep ep.keccak256 chain cfg) (begun ep.keccak256 cfg first capacity pos) trace l)
    (word : l.last < 2 ^ 64) {bootstrap : AnyNode T B}
    (reached : Shown (begun ep.keccak256 cfg first capacity pos) trace bootstrap)
    {events : List (JsonRpc.Event T B)}
    (served : ∀ event ∈ events, Served (Shown (begun ep.keccak256 cfg first capacity pos) trace) event)
    {n : Nat} {coins coins' : Nat → B.Coins} {now : Nat} {replies : List (Reply T B)}
    (from_shown : From (Shown (begun ep.keccak256 cfg first capacity pos) trace) replies) :
    let s := after ep (opened ep bootstrap first.valueCodec) events
    ∀ w b, s.waiting[n]? = some w →
      (s.eth.getBalance ep.keccak256 coins coins' now w.key replies).2.2 = .ok b →
      .toCaller (.json (envelope w.id (.ok (.string (hexQuantity b))))) ∈
          (JsonRpc.step ep s (.locked n coins coins' now replies)).2 ∧
        ∃ body head upstream addr block, JsonRpc.Event.received body head upstream ∈ events ∧
          Asks ep body w.id addr block ∧
          (Apart (T p) first.valueCodec (chainKey ep.keccak256) (insert (addressOf addr)
              (inPlay (chainKey ep.keccak256) chain first.block m₀)) →
            ∃ answering, lastAnswering ep.keccak256 coins now w.key s.eth replies = some answering ∧
              first.block ≤ answering.node.server.block ∧ answering.node.server.block ≤ l.last ∧
              b = chain.balance answering.node.server.block (addressOf addr)) := by
  intro s w b waiting got
  obtain ⟨g, live⟩ := live_run logLaws (placementLaws p) begins run
  have bound : first.block + g.blocks < 2 ^ 64 := by
    rw [← live.last]
    exact word
  let L := g.lineage ep.keccak256 first.valueCodec begins.wellFormed begins.hints rfl bound
    begins.widths
  have on : ∀ n, Shown (begun ep.keccak256 cfg first capacity pos) trace n →
      OnLineage L cfg.complete n := by
    rintro n ⟨node, mem, rfl⟩
    obtain ⟨i, visited⟩ := live.visited node mem
    exact ⟨node, i, rfl, ⟨visited.inside, visited.epoch, visited.server, visited.ring, visited.cached⟩,
      visited.complete⟩
  have attends : Attends L cfg.complete events s := by
    have start : Attends L cfg.complete [] (opened ep bootstrap first.valueCodec) := by
      obtain ⟨t, i, j, same, follows⟩ := follows_fromBundle logLaws pir (on bootstrap reached)
      exact ⟨⟨t, i, j, same, follows⟩, rfl, nofun⟩
    have run := start.after logLaws placementLaws pir fun event mem => (served event mem).mono on
    rwa [List.nil_append] at run
  constructor
  · dsimp only [JsonRpc.step]
    rw [waiting]
    dsimp only
    rw [got]
    exact List.mem_append_right _ (by simp [Outcome.ofLookup, replyOutcome, reply])
  · obtain ⟨body, head, upstream, addr, block, received, asks, key⟩ :=
      attends.waiting w (List.mem_of_getElem? waiting)
    refine ⟨body, head, upstream, addr, block, received, asks, fun apart => ?_⟩
    have length := asks_length asks
    have blocks : ∀ k ≤ g.blocks, (L.server k).block = first.block + k := by
      intro k inside
      rw [L.block_eq logLaws inside]
      exact congrArg (fun s : RisePirServer (T p) B => s.block + k) g.start
    have exact : StoreExact L cfg.complete w.key fun n => chain.balance n (addressOf addr) := by
      intro k inside
      obtain ⟨m, represents, exactOn⟩ := live.exact k inside
      have codec : (L.server k).valueCodec = first.valueCodec := L.server_codec logLaws inside
      rw [key, ← chainKey_addressOf ep.keccak256 length, blocks k inside]
      exact slots_exact (placementLaws p) codec represents exactOn apart
    obtain ⟨answering, k, answers, inside, here, value⟩ :=
      attends.number logLaws placementLaws pir exact (from_mono from_shown on) got
    rw [blocks k inside] at here
    have within : k ≤ g.blocks := inside
    have last := live.last
    exact ⟨answering, answers, by omega, by omega, value⟩

private def accountOne : Address := addressOf (List.replicate 19 0 ++ [1])

private def sets (balance : Balance) : TracedBlock := ⟨[⟨[accountOne], [(accountOne, some balance)]⟩], []⟩

private def twoSets : Chain :=
  ⟨fun _ => 0, fun n => if n = 1 then sets 5 else if n = 2 then sets 7 else ⟨[], []⟩⟩

private def fetchedSet (n : Nat) (balance : Balance) : FetchedBlock :=
  ⟨⟨n, [(accountKey, balance)], []⟩, [(accountOne, balance)], []⟩

private def noConfirm : ConfirmSource := ⟨fun _ _ _ => none, fun _ _ _ => none⟩

private def followAll : FollowConfig := ⟨true, 0, 0⟩

private def frontEndpoint : Endpoint := ⟨someTexts, fun s => "\"" ++ s ++ "\"", frontDigest, 1, none⟩

private def atStart : FollowLoop (referenceTable smallParams) referencePir :=
  begun frontDigest followAll (smallServer 0) 4 pos_four

private def polledTwo : FollowLoop (referenceTable smallParams) referencePir :=
  atStart.step (chainKey frontDigest) followAll (.polled (some 2))

private def behindOne : FollowLoop (referenceTable smallParams) referencePir :=
  polledTwo.step (chainKey frontDigest) followAll (.fetched (some (fetchedSet 1 5)) (draw 0) noConfirm)

private def behindTwo : FollowLoop (referenceTable smallParams) referencePir :=
  behindOne.step (chainKey frontDigest) followAll (.fetched (some (fetchedSet 2 7)) (draw 0) noConfirm)

private theorem ran_twice : Run (LiveStep frontDigest twoSets followAll) atStart
    ([] ++ [polledTwo.node] ++ [behindOne.node] ++ [behindTwo.node]) behindTwo :=
  .step (.step (.step .start (.followed _ trivial (by rintro ⟨n, e, h⟩; cases h)))
    (.followed _ rfl (by rintro ⟨n, e, h⟩; cases h))) (.followed _ rfl (by rintro ⟨n, e, h⟩; cases h))

private theorem known_one {addr : Address}
    (known : addr ∈ inPlay (chainKey frontDigest) twoSets 0 fun _ => none) : addr = accountOne := by
  rcases known with stored | ⟨n, -, mem⟩
  · exact absurd rfl stored
  · simp only [Chain.touched, twoSets, sets] at mem
    by_cases one : n = 1
    · rw [if_pos one] at mem
      exact List.mem_singleton.mp mem
    · rw [if_neg one] at mem
      by_cases two : n = 2
      · rw [if_pos two] at mem
        exact List.mem_singleton.mp mem
      · rw [if_neg two] at mem
        cases mem

private theorem atStart_begins : Beginning frontDigest twoSets followAll (smallServer 0) fun _ => none where
  wellFormed := (smallServer_hintsMatch 0).1
  hints := (smallServer_hintsMatch 0).2
  widths := by decide
  represents := smallServer_represents 0
  exact := ⟨nofun, fun _ addr _ => rfl⟩
  apart := apart_of_one accountOne fun _ => known_one

private def lastNode : AnyNode referenceTable referencePir := ⟨smallParams, behindTwo.node⟩

private def oneRequest : List (JsonRpc.Event referenceTable referencePir) :=
  [.received (balanceText account) (.served lastNode true) (.cut "")]

private def twoReplies : List (Reply referenceTable referencePir) :=
  [.served lastNode true, .served lastNode true]

private theorem lastNode_shown : Shown atStart
    ([] ++ [polledTwo.node] ++ [behindOne.node] ++ [behindTwo.node]) lastNode :=
  ⟨behindTwo.node, by simp, rfl⟩

private theorem waits : after frontEndpoint (opened frontEndpoint lastNode smallCodec) oneRequest =
    ⟨(opened frontEndpoint lastNode smallCodec).eth, [⟨.number "7", accountKey⟩]⟩ := by
  change (JsonRpc.step frontEndpoint _ (.received _ _ _)).1 = _
  dsimp only [JsonRpc.step]
  rw [handle_asks (asks_account rfl)]
  rfl

private theorem sevenRead : ((opened frontEndpoint lastNode smallCodec).eth.getBalance frontDigest
    callerCoins callerCoins 0 accountKey twoReplies).2.2 = .ok 7 := by
  rfl

/-- The balance is written twice, and the request is answered behind the second block. -/
theorem answers_chain_seven :
    .toCaller (.json (envelope (.number "7") (.ok (.string (hexQuantity 7))))) ∈
        (JsonRpc.step frontEndpoint (after frontEndpoint (opened frontEndpoint lastNode smallCodec)
          oneRequest) (.locked 0 callerCoins callerCoins 0 twoReplies)).2 ∧
      ∃ h ≤ 2, (7 : Balance) = twoSets.balance h accountOne := by
  have fromLast : From (Shown atStart ([] ++ [polledTwo.node] ++ [behindOne.node] ++ [behindTwo.node]))
      twoReplies := by
    intro reply mem n modeHeader served
    simp only [twoReplies, List.mem_cons, List.not_mem_nil, or_false, or_self] at mem
    rw [mem] at served
    cases served
    exact ⟨lastNode_shown, rfl⟩
  have arrived : ∀ event ∈ oneRequest, Served (Shown atStart
      ([] ++ [polledTwo.node] ++ [behindOne.node] ++ [behindTwo.node])) event := by
    intro event mem
    simp only [oneRequest, List.mem_cons, List.not_mem_nil, or_false] at mem
    subst mem
    trivial
  have waiting : (after frontEndpoint (opened frontEndpoint lastNode (smallServer 0).valueCodec)
      oneRequest).waiting[0]? = some ⟨.number "7", accountKey⟩ := by
    change (after frontEndpoint (opened frontEndpoint lastNode smallCodec) oneRequest).waiting[0]? = _
    rw [waits]
    rfl
  have got : ((after frontEndpoint (opened frontEndpoint lastNode (smallServer 0).valueCodec)
      oneRequest).eth.getBalance frontEndpoint.keccak256 callerCoins callerCoins 0 accountKey
        twoReplies).2.2 = .ok 7 := by
    change ((after frontEndpoint (opened frontEndpoint lastNode smallCodec) oneRequest).eth.getBalance
      _ _ _ _ _ _).2.2 = _
    rw [waits]
    exact sevenRead
  obtain ⟨sent, body, head, upstream, addr, block, received, asks, exact_at⟩ :=
    @answers_chain _ _ _ logLaws placementLaws lawful frontEndpoint twoSets followAll (smallServer 0) _
      atStart_begins 4 pos_four _ behindTwo ran_twice (by decide) lastNode lastNode_shown oneRequest
      arrived 0 callerCoins callerCoins 0 twoReplies fromLast ⟨.number "7", accountKey⟩ 7 waiting got
  refine ⟨sent, ?_⟩
  simp only [oneRequest, List.mem_cons, List.not_mem_nil, or_false, JsonRpc.Event.received.injEq]
    at received
  obtain ⟨rfl, -, -⟩ := received
  obtain rfl := asks_unique asks (asks_account rfl)
  obtain ⟨answering, -, -, le, value⟩ := exact_at (apart_of_one accountOne fun addr known =>
    (Set.mem_insert_iff.mp known).elim id known_one)
  exact ⟨_, le, value⟩

end RisePir.Rpc.ChainToCaller
