import RisePir.Feed.Failover
import RisePir.Rpc.TrueBalances

set_option autoImplicit false
set_option relaxedAutoImplicit false

/-! The follow loop on blocks from a list of endpoints. An endpoint of another chain may answer what it
likes: if those that report the deployment's chain tell the truth about its blocks, the store holds
the chain's balances. -/

namespace RisePir.Rpc.ChainFeed

open RisePir.Lib.Interleaving
open RisePir.Lib.LastEffect
open RisePir.Lib.KeyedAmounts
open RisePir.Lib.Sparse
open RisePir.Proto.Types
open RisePir.Proto.Codec (bind_eq_ok)
open RisePir.Upstream.Cuckoo
open RisePir.Upstream.Pir (PirBackend)
open RisePir.Upstream.ReferenceTable
open RisePir.Server.Core
open RisePir.Server.Refinement
open RisePir.Server.Ledger
open RisePir.Server.Small
open RisePir.Http.Node
open RisePir.Feed.Rpc (Address TracedBlock FetchedBlock hashed WEI_PER_GWEI)
open RisePir.Feed.Trace
  (Value NamesOnce KeyedDiff parseAddress parseHexU128 quantity readTrace readTrace_lenient
    changesFromTrace_diffs parseHexU128_eq_ok lenient_of_quantity)
open RisePir.Feed.Endpoints
open RisePir.Feed.Failover
open RisePir.Rpc.Front (accountKey nodeAtGenesis nodeAtOne)
open RisePir.Rpc.Mainnet
open RisePir.Rpc.TrueBalances

/-- A withdrawal as JSON. -/
def SpellsWithdrawal (item : Value) (w : Address × Nat) : Prop :=
  ((item.get "address").bind Value.asStr).bind parseAddress = some w.1 ∧
    ((item.get "amount").bind Value.asStr).bind quantity = some w.2

/-- A reply with the block's withdrawals; one from before there were any has no such field. -/
def SpellsBlock (v : Value) (block : TracedBlock) : Prop :=
  match v.get "withdrawals" with
  | none => block.withdrawals = []
  | some withdrawals => ∃ items, withdrawals.asArray = some items ∧
      List.Forall₂ SpellsWithdrawal items block.withdrawals

/-- A reply with the block's trace, each account under one key. -/
structure SpellsTrace (v : Value) (block : TracedBlock) : Prop where
  names : NamesOnce v
  diffs : ∃ ds, readTrace quantity v = some ds ∧ ds.map KeyedDiff.diff = block.trace ∧
    ∀ d ∈ ds, ∀ addr, ¬ d.Respelled addr

/-- What the exchange says of a block, if it says anything, is so. -/
structure Truthful (libs : Libraries) (chain : Chain) (x : Exchange) : Prop where
  block : ∀ n v, x.request = blockRequest n →
    readReply libs x.request.method x.outcome = .ok v → v ≠ .null → SpellsBlock v (chain.block n)
  trace : ∀ n v, x.request = traceRequest n →
    readReply libs x.request.method x.outcome = .ok v → SpellsTrace v (chain.block n)

section Reading

variable {libs : Libraries} {chain : Chain} {n : Nat}

theorem require_eq_ok {α : Type} {method detail : String} {opt : Option α} {a : α} :
    require method detail opt = .ok a ↔ opt = some a := by
  cases opt <;> simp [require]

theorem requireQuantity_spelled {method s : String} {ctx : String → String} {v : Nat}
    (spelled : quantity s = some v) : requireQuantity libs method ctx s = .ok v := by
  rw [requireQuantity, parseHexU128_eq_ok.mpr (lenient_of_quantity spelled)]

/-- A withdrawal that is read is the one that is spelled, and its amount fits. -/
theorem creditOf_spelled {item : Value × Nat} {w : Address × Nat} (spelled : SpellsWithdrawal item.1 w)
    {credit : Address × Balance} (read : creditOf libs item = .ok credit) :
    credit = (w.1, w.2 * WEI_PER_GWEI) ∧ w.2 * WEI_PER_GWEI < 2 ^ 128 := by
  unfold creditOf at read
  obtain ⟨addr, named, read⟩ := bind_eq_ok.mp read
  obtain ⟨text, isText, read⟩ := bind_eq_ok.mp read
  obtain ⟨gwei, number, read⟩ := bind_eq_ok.mp read
  obtain rfl := Option.some.inj (spelled.1.symm.trans (require_eq_ok.mp named))
  have amount : quantity text = some w.2 := by
    have spelled := spelled.2
    rwa [require_eq_ok.mp isText, Option.bind_some] at spelled
  obtain rfl := Except.ok.inj ((requireQuantity_spelled amount).symm.trans number)
  by_cases fits : w.2 * WEI_PER_GWEI < 2 ^ 128
  · rw [if_pos fits] at read
    exact ⟨(Except.ok.inj read).symm, fits⟩
  · rw [if_neg fits] at read
    cases read

theorem credits_spelled {items : List Value} {ws : List (Address × Nat)}
    (spelled : List.Forall₂ SpellsWithdrawal items ws) {k : Nat} {credits : List (Address × Balance)}
    (read : (items.zipIdx k).mapM (creditOf libs) = .ok credits) :
    credits = ws.map (fun w => (w.1, w.2 * WEI_PER_GWEI)) ∧ ∀ w ∈ ws, w.2 * WEI_PER_GWEI < 2 ^ 128 := by
  induction spelled generalizing k credits with
  | nil => exact ⟨(Except.ok.inj read).symm, by simp⟩
  | @cons item w items ws here _ ih =>
      rw [List.zipIdx_cons, List.mapM_cons] at read
      obtain ⟨credit, first, read⟩ := bind_eq_ok.mp read
      obtain ⟨later, rest, read⟩ := bind_eq_ok.mp read
      obtain ⟨same, fits⟩ := creditOf_spelled here first
      obtain ⟨others, fit⟩ := ih rest
      refine ⟨?_, List.forall_mem_cons.mpr ⟨fits, fit⟩⟩
      rw [← Except.ok.inj read, same, others, List.map_cons]

/-- The credits that are read of a block are the block's. -/
theorem readCredits_spelled {block : TracedBlock} {reply : Except FeedError Value}
    (spelled : ∀ v, reply = .ok v → v ≠ .null → SpellsBlock v block) {credits : List (Address × Balance)}
    (read : readCredits libs n reply = .ok credits) :
    Feed.Rpc.creditsFromBlock block.withdrawals = .ok credits := by
  unfold readCredits at read
  obtain ⟨v, replied, read⟩ := bind_eq_ok.mp read
  have present : v ≠ .null := by
    rintro rfl
    cases read
  have spells := spelled v replied present
  have read : Feed.Endpoints.creditsFromBlock libs v = .ok credits := by
    cases v with
    | null => exact absurd rfl present
    | bool b => exact read
    | number text => exact read
    | string text => exact read
    | array items => exact read
    | object fields => exact read
  unfold Feed.Endpoints.creditsFromBlock at read
  unfold SpellsBlock at spells
  cases listed : v.get "withdrawals" with
  | none =>
      rw [listed] at read spells
      rw [show block.withdrawals = [] from spells, ← Except.ok.inj read]
      rfl
  | some withdrawals =>
      rw [listed] at read spells
      obtain ⟨items, isArray, each⟩ := spells
      obtain ⟨found, array, read⟩ := bind_eq_ok.mp read
      obtain rfl := Option.some.inj (isArray.symm.trans (require_eq_ok.mp array))
      obtain ⟨rfl, fits⟩ := credits_spelled each read
      have inside : block.withdrawals.findIdx? (fun w => 2 ^ 128 ≤ w.2 * WEI_PER_GWEI) = none :=
        List.findIdx?_eq_none_iff.mpr fun w mem => decide_eq_false (Nat.not_le_of_lt (fits w mem))
      rw [Feed.Rpc.creditsFromBlock, inside]

/-- The update that is read of a trace is the block's. -/
theorem readUpdate_spelled {keccak256 : Address → AddressHash} {block : TracedBlock}
    {reply : Except FeedError Value} (spelled : ∀ v, reply = .ok v → SpellsTrace v block)
    {credits : List (Address × Balance)} (credited : Feed.Rpc.creditsFromBlock block.withdrawals = .ok credits)
    {fetched : FetchedBlock} (read : readUpdate libs keccak256 n credits reply = .ok fetched) :
    Feed.Rpc.blockUpdate keccak256 n block = .ok fetched := by
  unfold readUpdate at read
  obtain ⟨v, replied, read⟩ := bind_eq_ok.mp read
  obtain ⟨names, ds, strict, diffs, alike⟩ := spelled v replied
  rw [changesFromTrace_diffs names (readTrace_lenient strict) alike, diffs] at read
  obtain rfl := Except.ok.inj read
  rw [Feed.Rpc.blockUpdate, credited]
  rfl

/-- A block that comes whole from one truthful endpoint is the chain's. -/
theorem Whole.true {keccak256 : Address → AddressHash} {caller : Option Nat} {xs : List Exchange}
    {fetched : FetchedBlock} {i : Nat} (whole : Whole libs keccak256 caller n xs fetched i)
    (truthful : ∀ x ∈ xs, x.endpoint = i → Truthful libs chain x) :
    Feed.Rpc.blockUpdate keccak256 n (chain.block n) = .ok fetched := by
  obtain ⟨init, block, trace, credited, rfl, credits, update⟩ := whole.exchanged
  have first := truthful ⟨caller, i, blockRequest n, block⟩
    (List.mem_append_right _ List.mem_cons_self) rfl
  have second := truthful ⟨caller, i, traceRequest n, trace⟩
    (List.mem_append_right _ (List.mem_cons_of_mem _ List.mem_cons_self)) rfl
  exact readUpdate_spelled (fun v => second.trace n v rfl)
    (readCredits_spelled (fun v => first.block n v rfl) credits) update

end Reading

variable {p : CuckooParams} {C : SegmentedCuckoo p} {B : PirBackend}

/-- An event of the loop on this feed: a block that arrives was returned by a call for the block that is
next, and nothing but the feed changes the store. -/
def FromFeed (asked : Nat → Query) (tasks : Nat → Call (Except FeedError Reply)) (l : FollowLoop C B) :
    Event C → Prop
  | .fetched (some block) _ _ =>
      ∃ t, asked t = .blockUpdate (l.last + 1) ∧ tasks t = .ret (.ok (.block block))
  | .queued _ => False
  | _ => True

def AllFromFeed (keccak256 : Address → AddressHash) (cfg : FollowConfig) (asked : Nat → Query)
    (tasks : Nat → Call (Except FeedError Reply)) : FollowLoop C B → List (Event C) → Prop
  | _, [] => True
  | l, event :: events => FromFeed asked tasks l event ∧
      AllFromFeed keccak256 cfg asked tasks (l.step keccak256 cfg event) events

section Followed

variable {libs : Libraries} {keccak256 : Address → AddressHash} {cfg : FollowConfig} {chain : Chain}
  {asked : Nat → Query} {tasks : Nat → Call (Except FeedError Reply)} {l : FollowLoop C B}

theorem fed_of_fromFeed (true_blocks : ∀ t n block, asked t = .blockUpdate n →
      tasks t = .ret (.ok (.block block)) → Feed.Rpc.blockUpdate keccak256 n (chain.block n) = .ok block)
    {events : List (Event C)} (from_feed : AllFromFeed keccak256 cfg asked tasks l events) :
    Fed keccak256 cfg chain l events := by
  induction events generalizing l with
  | nil => trivial
  | cons event events ih =>
      refine ⟨?_, ih from_feed.2⟩
      have now := from_feed.1
      cases event with
      | polled finalized => trivial
      | queued corrections => exact now.elim
      | fetched block rng confirm =>
          cases block with
          | none => trivial
          | some block =>
              obtain ⟨t, query, returned⟩ := now
              exact true_blocks t _ block query returned

end Followed

/-- The feed opens on its endpoints, and its calls run under any schedule while the loop applies the
blocks that they return. If every endpoint that reports the deployment's chain tells the truth about
its blocks, then whatever the others say, what the store holds is the chain's. -/
theorem endpoints_exact (laws : C.PlacementLaws) (libs : Libraries) (keccak256 : Address → AddressHash)
    (cfg : FollowConfig) (chain : Chain) (chainId : Nat) (urls : List String) {startup : World}
    {flags : List Bool}
    (opened : Relation.ReflTransGen (Step fun _ : Unit => Answers none)
      (World.fresh, fun _ => newMulti libs urls chainId) (startup, fun _ => .ret (.ok flags)))
    (asked : Nat → Query) {w : World} {tasks : Nat → Call (Except FeedError Reply)}
    (run : Relation.ReflTransGen (Step fun t => Answers (some t))
      (startup.opened flags, fun t => serve libs keccak256 chainId urls (asked t)) (w, tasks))
    (truthful : ∀ x ∈ w.exchanges, Reported libs chainId x.endpoint w.exchanges → Truthful libs chain x)
    (startAt : Nat) (node : NodeState C B) (m₀ : Balances)
    (represents : Represents C node.server.valueCodec node.server.store.cells m₀)
    (exact : Exact keccak256 chain cfg.complete startAt m₀)
    (apart : Apart C node.server.valueCodec keccak256 (inPlay keccak256 chain startAt m₀))
    (events : List (Event C)) (from_feed : AllFromFeed keccak256 cfg asked tasks (.start node startAt) events) :
    let l := events.foldl (FollowLoop.step keccak256 cfg) (.start node startAt)
    ¬ FailedApply l → ∃ m, Represents C node.server.valueCodec l.node.server.store.cells m ∧
      Exact keccak256 chain cfg.complete l.last m := by
  intro l applied
  obtain ⟨guarded, accounts⟩ := calls_run opened run
  have fed : Fed keccak256 cfg chain (.start node startAt) events := by
    refine fed_of_fromFeed (fun t n block query returned => ?_) from_feed
    have account := accounts t _ returned
    rw [query] at account
    obtain ⟨i, -, whole⟩ := account.whole
    refine Whole.true whole fun x mem here => truthful x (List.mem_of_mem_filter mem) ?_
    rw [here]
    exact whole.reported guarded
  have start : Tracks keccak256 chain cfg node.server.valueCodec (inPlay keccak256 chain startAt m₀)
      (.start node startAt) m₀ :=
    ⟨rfl, represents, exact.on apart.1 fun addr stored => .inl stored, rfl⟩
  rcases run_tracks laws apart (fun n ahead addr mem => .inr ⟨n, ahead, mem⟩) start fed with
    failed | ⟨m, tracks⟩
  · exact absurd failed applied
  · exact ⟨m, tracks.represents, tracks.exact.exact⟩

section Fallback

/-- Every block leaves account 1 a balance of 5. -/
def fives : Chain := ⟨fun _ => 0, fun _ => ⟨[⟨[1], [(1, some 5)]⟩], []⟩⟩

private theorem fives_apart : Apart (referenceTable smallParams) nodeAtGenesis.server.valueCodec oneKey
    (inPlay oneKey fives 0 fun _ => none) := by
  refine apart_of_one 1 fun addr known => ?_
  rcases known with stored | ⟨n, -, mem⟩
  · exact absurd rfl stored
  · exact List.mem_singleton.mp mem

private theorem block_spelled : SpellsBlock (.object []) (fives.block 0) := rfl

private theorem trace_spelled : SpellsTrace toFive (fives.block 0) where
  names := by
    intro txs array tx mem result
    obtain rfl := Option.some.inj array
    obtain rfl := List.mem_singleton.mp mem
    intro isResult side known fields isObject
    obtain rfl := Option.some.inj isResult
    rcases List.mem_pair.mp known with rfl | rfl
    · obtain rfl := Option.some.inj isObject
      exact List.nodup_singleton _
    · obtain rfl := Option.some.inj isObject
      exact List.nodup_singleton _
  diffs := by
    let account := "0x0000000000000000000000000000000000000001"
    refine ⟨[⟨[(account, 1)], [(account, 1, some 5)]⟩], by decide +kernel, rfl, ?_⟩
    rintro d mem addr ⟨⟨p, before, -, other⟩, -⟩
    obtain rfl := List.mem_singleton.mp mem
    obtain rfl := List.mem_singleton.mp before
    exact other (List.mem_singleton.mpr rfl)

/-- Whatever was exchanged in the outage is true of the chain. -/
private theorem outage_truthful {x : Exchange} (mem : x ∈ (outageRun oneKey).1.exchanges) :
    Truthful oneByte fives x := by
  have shown : (outageRun oneKey).1.exchanges.map (fun x => (x.request.method, x.outcome)) =
      [("eth_chainId", .response 200 [1]), ("eth_chainId", away),
        ("eth_getBlockByNumber", .response 403 []), ("eth_chainId", .response 200 [1]),
        ("eth_getBlockByNumber", .response 200 [2]), ("debug_traceBlockByNumber", .response 200 [3])] := by
    decide +kernel
  have here := List.mem_map_of_mem (f := fun x : Exchange => (x.request.method, x.outcome)) mem
  rw [shown] at here
  constructor
  · intro n v asked read _
    rw [asked] at here
    have outcome : x.outcome = .response 403 [] ∨ x.outcome = .response 200 [2] := by
      simpa [blockRequest] using here
    rcases outcome with refused | served
    · rw [refused] at read
      cases read
    · rw [served] at read
      obtain rfl := Except.ok.inj read
      exact block_spelled
  · intro n v asked read
    rw [asked] at here
    have outcome : x.outcome = .response 200 [3] := by simpa [traceRequest] using here
    rw [outcome] at read
    obtain rfl := Except.ok.inj read
    exact trace_spelled

/-- The block that the fallback has served is applied to a store that was empty. -/
theorem endpoints_exact_fallback : ∃ m,
    Represents (referenceTable smallParams) smallCodec nodeAtOne.server.store.cells m ∧
      Exact oneKey fives true 1 m := by
  let events : List (Event (referenceTable smallParams)) :=
    [.polled (some 1), .fetched none (draw 0) ⟨fun _ _ _ => none, fun _ _ _ => none⟩,
      .fetched (some ⟨⟨1, [(accountKey, 5)], []⟩, [(1, 5)], []⟩) (draw 0)
        ⟨fun _ _ _ => none, fun _ _ _ => none⟩]
  exact endpoints_exact (placementLaws smallParams) oneByte oneKey ⟨true, 0, 0⟩ fives 1 twoUrls
    startup_opened firstAsks (outage_run oneKey) (fun x mem _ => outage_truthful mem) 0 nodeAtGenesis
    (fun _ => none) (smallServer_represents 0) ⟨fun k b h => (by cases h), fun _ addr _ => rfl⟩
    fives_apart events ⟨trivial, trivial, ⟨0, rfl, outage_served oneKey⟩, trivial⟩
    (by rintro ⟨n, e, h⟩; cases h)

end Fallback

end RisePir.Rpc.ChainFeed
