import Mathlib.Data.Set.Function
import RisePir.Http.Serving
import RisePir.Rpc.Front
import RisePir.Rpc.Mainnet
import RisePir.Server.Ledger

set_option autoImplicit false
set_option relaxedAutoImplicit false

/-! The followed store against the chain. What is stored is the account's true balance, whatever
the mode and however often a fetch is retried. -/

namespace RisePir.Rpc.TrueBalances

open RisePir.Lib.Sparse
open RisePir.Lib.KeyedAmounts
open RisePir.Proto.Types
open RisePir.Proto.Value
open RisePir.Upstream.Cuckoo
open RisePir.Upstream.Pir
open RisePir.Upstream.ReferenceTable
open RisePir.Server.Core
open RisePir.Server.Refinement
open RisePir.Server.Ledger
open RisePir.Server.Small
open RisePir.Http.Node
open RisePir.Http.Serving
open RisePir.Feed.Rpc
open RisePir.Rpc.Front
open RisePir.Rpc.HardRefresh
open RisePir.Rpc.Mainnet

/-- A chain's history: the balances behind block 0, and its blocks. -/
structure Chain where
  genesis : Address → Balance
  block : Nat → TracedBlock

namespace Chain

/-- An account's true balance behind a block: what the last transaction to change it left, and the
block's withdrawals to it. -/
def balance (chain : Chain) : Nat → Address → Balance
  | 0, addr => chain.genesis addr
  | n + 1, addr =>
      (lastWrite (chain.block (n + 1)).posted addr).getD (chain.balance n addr) +
        total (chain.block (n + 1)).credits addr

/-- The accounts that a block names. -/
def touched (chain : Chain) (n : Nat) : List Address :=
  named (chain.block n).posted ++ named (chain.block n).credits

end Chain

/-- The stored balances are true at block `n`; in complete mode an account that is not stored has
nothing. -/
structure Exact (keccak256 : Address → AddressHash) (chain : Chain) (complete : Bool) (n : Nat)
    (m : Balances) : Prop where
  present : ∀ k b, m k = some b → ∃ addr, keccak256 addr = k ∧ b = chain.balance n addr
  absent : complete = true → ∀ addr, m (keccak256 addr) = none → chain.balance n addr = 0

/-- The accounts that the store has at the start, and those that a later block names. -/
def inPlay (keccak256 : Address → AddressHash) (chain : Chain) (startAt : Nat) (m : Balances) :
    Set Address :=
  {addr | m (keccak256 addr) ≠ none ∨ ∃ n, startAt < n ∧ addr ∈ chain.touched n}

variable {p : CuckooParams} {C : SegmentedCuckoo p} {B : PirBackend}

/-- Distinct accounts have distinct keys, and no two of these compete for a slot. -/
def Apart (C : SegmentedCuckoo p) (codec : ValueCodec) (keccak256 : Address → AddressHash)
    (accounts : Set Address) : Prop :=
  accounts.InjOn keccak256 ∧ Separated C codec (keccak256 '' accounts)

/-- One account is apart from no other. -/
theorem apart_of_one {codec : ValueCodec} {keccak256 : Address → AddressHash} {accounts : Set Address}
    (only : Address) (h : ∀ addr ∈ accounts, addr = only) : Apart C codec keccak256 accounts := by
  refine ⟨fun addr known addr' known' _ => (h addr known).trans (h addr' known').symm, ?_⟩
  rintro k ⟨addr, known, rfl⟩ k' ⟨addr', known', rfl⟩ different
  rw [h addr known, h addr' known'] at different
  exact absurd rfl different

/-- An event of a run without hard refresh: a block that arrives is the chain's next one. -/
def FedEvent (keccak256 : Address → AddressHash) (chain : Chain) (l : FollowLoop C B) :
    Event C → Prop
  | .fetched (some block) _ _ =>
      blockUpdate keccak256 (l.last + 1) (chain.block (l.last + 1)) = .ok block
  | .queued _ => False
  | _ => True

def Fed (keccak256 : Address → AddressHash) (cfg : FollowConfig) (chain : Chain) :
    FollowLoop C B → List (Event C) → Prop
  | _, [] => True
  | l, event :: events =>
      FedEvent keccak256 chain l event ∧ Fed keccak256 cfg chain (l.step keccak256 cfg event) events

section Block

variable {keccak256 : Address → AddressHash} {chain : Chain} {complete : Bool} {n : Nat}
variable {accounts : Set Address} {m m' : Balances}

/-- Whether a credit of the next block survives the filter. -/
def Tracked (keccak256 : Address → AddressHash) (chain : Chain) (complete : Bool) (n : Nat)
    (m : Balances) (addr : Address) : Prop :=
  complete = true ∨ addr ∈ named (chain.block (n + 1)).posted ∨ m (keccak256 addr) ≠ none

/-- What the next block makes of the store: tracked accounts come out exact, others unstored. -/
structure Advanced (keccak256 : Address → AddressHash) (chain : Chain) (complete : Bool) (n : Nat)
    (accounts : Set Address) (m m' : Balances) : Prop where
  tracked : ∀ addr ∈ accounts, Tracked keccak256 chain complete n m addr →
    amount m' (keccak256 addr) = chain.balance (n + 1) addr
  untracked : ∀ addr ∈ accounts, ¬ Tracked keccak256 chain complete n m addr →
    m' (keccak256 addr) = none
  live : ∀ k, m' k ≠ none → k ∈ keccak256 '' accounts

/-- The store while it follows: every live key is that of an account in play. -/
structure ExactOn (keccak256 : Address → AddressHash) (chain : Chain) (complete : Bool) (n : Nat)
    (accounts : Set Address) (m : Balances) : Prop where
  present : ∀ addr ∈ accounts, ∀ b, m (keccak256 addr) = some b → b = chain.balance n addr
  absent : complete = true → ∀ addr ∈ accounts, m (keccak256 addr) = none → chain.balance n addr = 0
  outside : complete = true → ∀ addr ∉ accounts, chain.balance n addr = 0
  live : ∀ k, m k ≠ none → k ∈ keccak256 '' accounts

theorem ExactOn.exact (h : ExactOn keccak256 chain complete n accounts m) :
    Exact keccak256 chain complete n m := by
  refine ⟨fun k b hk => ?_, fun whole addr gone => ?_⟩
  · obtain ⟨addr, known, rfl⟩ := h.live k (by rw [hk]; exact Option.some_ne_none b)
    exact ⟨addr, rfl, h.present addr known b hk⟩
  · by_cases known : addr ∈ accounts
    · exact h.absent whole addr known gone
    · exact h.outside whole addr known

theorem Exact.on (h : Exact keccak256 chain complete n m) (inj : accounts.InjOn keccak256)
    (stored : ∀ addr, m (keccak256 addr) ≠ none → addr ∈ accounts) :
    ExactOn keccak256 chain complete n accounts m := by
  refine ⟨fun addr known b hk => ?_, fun whole addr _ => h.absent whole addr,
    fun whole addr unknown => ?_, fun k hk => ?_⟩
  · obtain ⟨addr', same, value⟩ := h.present _ b hk
    have known' : addr' ∈ accounts := stored addr' (by rw [same, hk]; exact Option.some_ne_none b)
    rw [← inj known' known same]
    exact value
  · exact h.absent whole addr (not_not.mp (mt (stored addr) unknown))
  · obtain ⟨b, hb⟩ := Option.ne_none_iff_exists'.mp hk
    obtain ⟨addr, rfl, -⟩ := h.present k b hb
    exact ⟨addr, stored addr hk, rfl⟩

/-- An account that a block does not name keeps its balance. -/
theorem balance_untouched {addr : Address} (h : addr ∉ chain.touched (n + 1)) :
    chain.balance (n + 1) addr = chain.balance n addr := by
  have notPosted : addr ∉ named (chain.block (n + 1)).posted := fun mem =>
    h (List.mem_append_left _ mem)
  have notCredited : addr ∉ named (chain.block (n + 1)).credits := fun mem =>
    h (List.mem_append_right _ mem)
  have none : total (chain.block (n + 1)).credits addr = 0 :=
    total_eq_zero fun e he same => notCredited (List.mem_map.mpr ⟨e, he, same⟩)
  rw [Chain.balance, lastWrite_eq_none.mpr notPosted, none, Option.getD_none, add_zero]

theorem ExactOn.advance (h : ExactOn keccak256 chain complete n accounts m)
    (next : Advanced keccak256 chain complete n accounts m m')
    (touched : ∀ addr ∈ chain.touched (n + 1), addr ∈ accounts) :
    ExactOn keccak256 chain complete (n + 1) accounts m' := by
  refine ⟨fun addr known b hb => ?_, fun whole addr known gone => ?_, fun whole addr unknown => ?_,
    next.live⟩
  · have tracked : Tracked keccak256 chain complete n m addr := by
      by_contra untracked
      rw [next.untracked addr known untracked] at hb
      cases hb
    rw [← next.tracked addr known tracked, amount, hb, Option.getD_some]
  · rw [← next.tracked addr known (.inl whole), amount, gone, Option.getD_none]
  · rw [balance_untouched (mt (touched addr) unknown), h.outside whole addr unknown]

section Update

variable {update : BlockUpdate} {keep : AddressHash → Bool}

/-- The chain's next block under the store's keys, with the credits that are kept. -/
structure NextUpdate (keccak256 : Address → AddressHash) (chain : Chain) (n : Nat)
    (keep : AddressHash → Bool) (update : BlockUpdate) : Prop where
  changes : update.changes = hashed keccak256 (changesFromTrace (chain.block (n + 1)).trace)
  credits : update.credits =
    (hashed keccak256 (chain.block (n + 1)).credits).filter fun e => keep e.1

theorem posted_mem (touched : ∀ addr ∈ chain.touched (n + 1), addr ∈ accounts) :
    ∀ e ∈ changesFromTrace (chain.block (n + 1)).trace, e.1 ∈ accounts := by
  intro e he
  refine touched e.1 (List.mem_append_left _ ?_)
  exact mem_changesFromTrace.mp (List.mem_map_of_mem he)

theorem credited_mem (touched : ∀ addr ∈ chain.touched (n + 1), addr ∈ accounts) :
    ∀ e ∈ (chain.block (n + 1)).credits, e.1 ∈ accounts :=
  fun e he => touched e.1 (List.mem_append_right _ (List.mem_map_of_mem he))

theorem NextUpdate.inPlay (next : NextUpdate keccak256 chain n keep update)
    (live : ∀ k, m k ≠ none → k ∈ keccak256 '' accounts)
    (touched : ∀ addr ∈ chain.touched (n + 1), addr ∈ accounts) :
    InPlay m update ⊆ keccak256 '' accounts := by
  rintro k (stored | mem | mem)
  · exact live k stored
  · rw [next.changes] at mem
    obtain ⟨e, he, same⟩ := mem_named_hashed.mp mem
    exact ⟨e.1, posted_mem touched e he, same⟩
  · rw [next.credits] at mem
    obtain ⟨kept, hkept, rfl⟩ := List.mem_map.mp mem
    obtain ⟨e, he, same⟩ := mem_named_hashed.mp (List.mem_map_of_mem (List.mem_filter.mp hkept).1)
    exact ⟨e.1, credited_mem touched e he, same⟩

theorem NextUpdate.last (next : NextUpdate keccak256 chain n keep update)
    (inj : accounts.InjOn keccak256) (touched : ∀ addr ∈ chain.touched (n + 1), addr ∈ accounts)
    {addr : Address} (known : addr ∈ accounts) :
    lastWrite update.changes (keccak256 addr) = lastWrite (chain.block (n + 1)).posted addr := by
  rw [next.changes, hashed, lastWrite_map fun e he same => inj (posted_mem touched e he) known same,
    changesFromTrace_last, TracedBlock.posted]

theorem NextUpdate.sum (next : NextUpdate keccak256 chain n keep update)
    (inj : accounts.InjOn keccak256) (touched : ∀ addr ∈ chain.touched (n + 1), addr ∈ accounts)
    {addr : Address} (known : addr ∈ accounts) :
    total update.credits (keccak256 addr) =
      if keep (keccak256 addr) then total (chain.block (n + 1)).credits addr else 0 := by
  rw [next.credits, total_filter, hashed,
    total_map fun e he same => inj (credited_mem touched e he) known same]

/-- The next block's update, its credits filtered, advances the store. -/
theorem ExactOn.advanced (h : ExactOn keccak256 chain complete n accounts m)
    (inj : accounts.InjOn keccak256) (touched : ∀ addr ∈ chain.touched (n + 1), addr ∈ accounts)
    (keeps : ∀ addr ∈ accounts, keep (keccak256 addr) = true ↔ Tracked keccak256 chain complete n m addr)
    (next : NextUpdate keccak256 chain n keep update) :
    Advanced keccak256 chain complete n accounts m (ledgerBlock m update) := by
  refine ⟨fun addr known tracked => ?_, fun addr known untracked => ?_,
    fun k hk => next.inPlay h.live touched (ledgerBlock_live hk)⟩
  · rw [amount_ledgerBlock, next.last inj touched known, next.sum inj touched known,
      if_pos ((keeps addr known).mpr tracked), Chain.balance]
    cases hlast : lastWrite (chain.block (n + 1)).posted addr with
    | some v => rfl
    | none =>
        rw [Option.getD_none, Option.getD_none, amount]
        cases hm : m (keccak256 addr) with
        | some b => rw [Option.getD_some, h.present addr known b hm]
        | none =>
            rcases tracked with whole | mem | stored
            · rw [Option.getD_none, h.absent whole addr known hm]
            · exact absurd hlast (mt lastWrite_eq_none.mp (not_not.mpr mem))
            · exact absurd hm stored
  · -- neither a change nor a kept credit names the account
    have unnamed : keccak256 addr ∉ named update.changes := by
      rw [← lastWrite_eq_none, next.last inj touched known, lastWrite_eq_none]
      exact fun mem => untracked (.inr (.inl mem))
    have dropped : keccak256 addr ∉ named update.credits := by
      rw [next.credits]
      intro mem
      obtain ⟨e, he, same⟩ := List.mem_map.mp mem
      have kept : keep e.1 = true := (List.mem_filter.mp he).2
      rw [same, keeps addr known] at kept
      exact untracked kept
    rw [ledgerBlock, credits_of_notMem dropped, writes_of_notMem unnamed]
    exact not_not.mp fun stored => untracked (.inr (.inr stored))

end Update

end Block

section Loop

variable {keccak256 : Address → AddressHash} {chain : Chain} {cfg : FollowConfig} {codec : ValueCodec}
variable {accounts : Set Address} {m m' : Balances} {l : FollowLoop C B}

/-- The loop's store stands for a map that is exact at `last`. -/
structure Tracks (keccak256 : Address → AddressHash) (chain : Chain) (cfg : FollowConfig)
    (codec : ValueCodec) (accounts : Set Address) (l : FollowLoop C B) (m : Balances) : Prop where
  sameCodec : l.node.server.valueCodec = codec
  represents : Represents C codec l.node.server.store.cells m
  exact : ExactOn keccak256 chain cfg.complete l.last accounts m
  quiet : l.corrections = []

theorem Tracks.read (laws : C.PlacementLaws) (apart : Apart C codec keccak256 accounts)
    (h : Tracks keccak256 chain cfg codec accounts l m) {k : AddressHash}
    (known : k ∈ keccak256 '' accounts) : l.node.server.balanceOf k = .ok (m k) := by
  refine balanceOf_eq laws (h.sameCodec ▸ h.represents) ?_
  rw [h.sameCodec]
  exact apart.2.clear h.exact.live known

private theorem keepTracked_eq {node : NodeState C B} {changes credits : List (AddressHash × Balance)}
    (read : ∀ e ∈ credits, node.server.balanceOf e.1 = .ok (m e.1)) :
    keepTracked node changes credits =
      .ok (credits.filter fun e => decide (e.1 ∈ named changes) || (m e.1).isSome) := by
  induction credits with
  | nil => rfl
  | cons e rest ih =>
      rw [keepTracked, ih fun e' he' => read e' (List.mem_cons_of_mem e he'), read e List.mem_cons_self,
        List.filter_cons]
      by_cases changed : e.1 ∈ named changes
      · simp [changed]
      · simp [changed]

/-- The filter keeps the credits of tracked accounts, and all of them in complete mode. -/
theorem filterCredits_eq {node : NodeState C B} {complete : Bool} {update : BlockUpdate}
    (read : ∀ e ∈ update.credits, node.server.balanceOf e.1 = .ok (m e.1)) :
    filterCredits complete node update = .ok { update with
      credits := update.credits.filter fun e =>
        complete || (decide (e.1 ∈ named update.changes) || (m e.1).isSome) } := by
  cases complete with
  | true => simp [filterCredits]
  | false =>
      rw [filterCredits, keepTracked_eq read]
      rfl

/-- Without corrections a fetched block is applied as it stands, its credits filtered. -/
private theorem applyFetched_quiet {update : BlockUpdate} {rng : C.Rng}
    (h : Tracks keccak256 chain cfg codec accounts l m) (label : update.block = l.last + 1)
    (read : ∀ e ∈ update.credits, l.node.server.balanceOf e.1 = .ok (m e.1)) :
    l.applyFetched cfg rng update =
      match l.node.applyBlockReporting rng { update with
        credits := update.credits.filter fun e =>
          cfg.complete || (decide (e.1 ∈ named update.changes) || (m e.1).isSome) } with
      | (node, .error e) => ({ l with node }.stop (.applyFailed (l.last + 1) e), none)
      | (node, .ok (delta, _)) => ({ l with node, last := l.last + 1 }, some delta) := by
  obtain ⟨node, finalized, last, corrections, reservoir, stopped⟩ := l
  obtain rfl : corrections = [] := h.quiet
  rw [FollowLoop.applyFetched, if_neg (not_not.mpr label), filterCredits_eq read]
  rfl

/-- Applying the chain's next block fails, or advances the store by it. -/
theorem applyFetched_spec (laws : C.PlacementLaws) (apart : Apart C codec keccak256 accounts)
    (touched : ∀ addr ∈ chain.touched (l.last + 1), addr ∈ accounts)
    (h : Tracks keccak256 chain cfg codec accounts l m) {fetched : FetchedBlock}
    (fed : blockUpdate keccak256 (l.last + 1) (chain.block (l.last + 1)) = .ok fetched) (rng : C.Rng) :
    (∃ node e, l.applyFetched cfg rng fetched.update =
      ({ l with node }.stop (.applyFailed (l.last + 1) e), none)) ∨
    ∃ node delta m', l.applyFetched cfg rng fetched.update =
        ({ l with node, last := l.last + 1 }, some delta) ∧
      Advanced keccak256 chain cfg.complete l.last accounts m m' ∧
      Tracks keccak256 chain cfg codec accounts { l with node, last := l.last + 1 } m' := by
  obtain rfl := blockUpdate_ok fed
  have credited : ∀ e ∈ hashed keccak256 (chain.block (l.last + 1)).credits,
      l.node.server.balanceOf e.1 = .ok (m e.1) := by
    intro e he
    obtain ⟨e', he', same⟩ := mem_named_hashed.mp (List.mem_map_of_mem (f := Prod.fst) he)
    exact h.read laws apart ⟨e'.1, credited_mem touched e' he', same⟩
  rw [applyFetched_quiet h rfl credited]
  dsimp only
  generalize hupdate : ({ block := l.last + 1, changes := _, credits := _ } : BlockUpdate) = update
  have next : NextUpdate keccak256 chain l.last (fun k => cfg.complete || (decide (k ∈ named
      (hashed keccak256 (changesFromTrace (chain.block (l.last + 1)).trace))) || (m k).isSome)) update := by
    subst hupdate
    exact ⟨rfl, rfl⟩
  cases hr : l.node.applyBlockReporting rng update with
  | mk node r =>
      cases r with
      | error e => exact .inl ⟨node, e, rfl⟩
      | ok out =>
          right
          have separated : Separated C l.node.server.valueCodec (InPlay m update) := by
            rw [h.sameCodec]
            exact apart.2.mono (next.inPlay h.exact.live touched)
          obtain ⟨sameCodec, represents⟩ := apply_represents laws
            (h.sameCodec.symm ▸ h.represents) separated (apply_server hr)
          have keeps : ∀ addr ∈ accounts, (cfg.complete || (decide (keccak256 addr ∈ named
              (hashed keccak256 (changesFromTrace (chain.block (l.last + 1)).trace))) ||
                (m (keccak256 addr)).isSome)) = true ↔
                  Tracked keccak256 chain cfg.complete l.last m addr := by
            intro addr known
            have changed : keccak256 addr ∈ named
                (hashed keccak256 (changesFromTrace (chain.block (l.last + 1)).trace)) ↔
                  addr ∈ named (chain.block (l.last + 1)).posted := by
              rw [← not_iff_not, ← lastWrite_eq_none, ← lastWrite_eq_none,
                ← next.last apart.1 touched known, next.changes]
            rw [Tracked, Bool.or_eq_true, Bool.or_eq_true, decide_eq_true_iff, changed,
              Option.isSome_iff_ne_none]
          have advanced := h.exact.advanced apart.1 touched keeps next
          refine ⟨node, out.1, ledgerBlock m update, rfl, advanced, sameCodec.trans h.sameCodec, ?_,
            h.exact.advance advanced touched, h.quiet⟩
          rw [← h.sameCodec]
          exact represents

theorem checkpoint_keeps (keccak256 : Address → AddressHash) (cfg : FollowConfig) (confirm : ConfirmSource)
    (l : FollowLoop C B) (changed credited : List (Address × Balance)) :
    ∃ reservoir stopped,
      l.checkpoint keccak256 cfg confirm changed credited = { l with reservoir, stopped } := by
  rw [FollowLoop.checkpoint]
  by_cases due : 0 < cfg.reconcileEvery ∧ cfg.reconcileEvery ∣ l.last
  · rw [if_pos due]
    cases reconcile keccak256 l.node l.last confirm (l.finalized - l.last) changed credited
      cfg.complete cfg.reconcileSamples l.reservoir with
    | mk reservoir outcome =>
        cases outcome with
        | continued => exact ⟨reservoir, l.stopped, rfl⟩
        | halted cause => exact ⟨reservoir, some (.reconciled cause), rfl⟩
  · rw [if_neg due]
    exact ⟨l.reservoir, l.stopped, rfl⟩

/-- The loop has stopped on a block that did not apply. -/
def FailedApply (l : FollowLoop C B) : Prop := ∃ n e, l.stopped = some (.applyFailed n e)

theorem step_stopped (keccak256 : Address → AddressHash) (cfg : FollowConfig) {event : Event C}
    (stopped : l.stopped.isSome) (fed : FedEvent keccak256 chain l event) :
    l.step keccak256 cfg event = l := by
  cases event with
  | polled finalized =>
      cases finalized with
      | none => rfl
      | some finalized => rw [FollowLoop.step, if_pos (.inl stopped)]
  | fetched block rng confirm =>
      cases block with
      | none => rfl
      | some block =>
          have running : ¬ (l.stopped.isNone ∧ l.last < l.finalized) := by
            rintro ⟨none, -⟩
            rw [Option.isNone_iff_eq_none.mp none] at stopped
            cases stopped
          rw [FollowLoop.step, if_neg running]
  | queued corrections => exact fed.elim

theorem run_stopped {events : List (Event C)} (stopped : l.stopped.isSome)
    (fed : Fed keccak256 cfg chain l events) :
    events.foldl (FollowLoop.step keccak256 cfg) l = l := by
  induction events with
  | nil => rfl
  | cons event events ih =>
      have same := step_stopped keccak256 cfg stopped fed.1
      rw [List.foldl_cons, same]
      exact ih (same ▸ fed.2)

/-- One event leaves the store exact, unless it is a block that does not apply. -/
theorem step_tracks (laws : C.PlacementLaws) (apart : Apart C codec keccak256 accounts)
    (touched : ∀ addr ∈ chain.touched (l.last + 1), addr ∈ accounts)
    (h : Tracks keccak256 chain cfg codec accounts l m) {event : Event C}
    (fed : FedEvent keccak256 chain l event) :
    FailedApply (l.step keccak256 cfg event) ∨
      l.last ≤ (l.step keccak256 cfg event).last ∧
        ∃ m', Tracks keccak256 chain cfg codec accounts (l.step keccak256 cfg event) m' := by
  cases event with
  | polled finalized =>
      right
      cases finalized with
      | none => exact ⟨le_rfl, m, h⟩
      | some finalized =>
          rw [FollowLoop.step]
          split
          · exact ⟨le_rfl, m, h⟩
          · exact ⟨le_rfl, m, h.sameCodec, h.represents, h.exact, h.quiet⟩
  | queued corrections => exact fed.elim
  | fetched block rng confirm =>
      cases block with
      | none => exact .inr ⟨le_rfl, m, h⟩
      | some block =>
          rw [FollowLoop.step]
          by_cases running : l.stopped.isNone ∧ l.last < l.finalized
          · rw [if_pos running, FollowLoop.follow]
            rcases applyFetched_spec laws apart touched h fed rng with
              ⟨node, e, failed⟩ | ⟨node, delta, m', applied, -, after⟩
            · rw [failed]
              exact .inl ⟨_, e, rfl⟩
            · rw [applied]
              obtain ⟨reservoir, stopped, same⟩ := checkpoint_keeps keccak256 cfg confirm
                { l with node, last := l.last + 1 } block.changed block.credited
              dsimp only at same ⊢
              rw [same]
              exact .inr ⟨Nat.le_succ _, m', after.sameCodec, after.represents, after.exact, after.quiet⟩
          · rw [if_neg running]
            exact .inr ⟨le_rfl, m, h⟩

theorem run_tracks (laws : C.PlacementLaws) (apart : Apart C codec keccak256 accounts)
    (touched : ∀ n, l.last < n → ∀ addr ∈ chain.touched n, addr ∈ accounts)
    (h : Tracks keccak256 chain cfg codec accounts l m) {events : List (Event C)}
    (fed : Fed keccak256 cfg chain l events) :
    FailedApply (events.foldl (FollowLoop.step keccak256 cfg) l) ∨
      ∃ m', Tracks keccak256 chain cfg codec accounts (events.foldl (FollowLoop.step keccak256 cfg) l) m' := by
  induction events generalizing l m with
  | nil => exact .inr ⟨m, h⟩
  | cons event events ih =>
      obtain ⟨now, later⟩ := fed
      rw [List.foldl_cons]
      rcases step_tracks laws apart (touched _ (Nat.lt_succ_self _)) h now with failed | ⟨ahead, m', h'⟩
      · obtain ⟨n, e, stopped⟩ := failed
        rw [run_stopped (by rw [stopped]; rfl) later]
        exact .inl ⟨n, e, stopped⟩
      · exact ih (fun n hn => touched n (Nat.lt_of_le_of_lt ahead hn)) h' later

end Loop

/-- Behind every applied block of a run without hard refresh, what the store holds is the account's
true balance, and in complete mode what it does not hold is zero. -/
theorem followed_exact (laws : C.PlacementLaws) (keccak256 : Address → AddressHash)
    (cfg : FollowConfig) (chain : Chain) (startAt : Nat) (node : NodeState C B) (m₀ : Balances)
    (represents : Represents C node.server.valueCodec node.server.store.cells m₀)
    (exact : Exact keccak256 chain cfg.complete startAt m₀)
    (apart : Apart C node.server.valueCodec keccak256 (inPlay keccak256 chain startAt m₀))
    (events : List (Event C)) (fed : Fed keccak256 cfg chain (.start node startAt) events) :
    let l := events.foldl (FollowLoop.step keccak256 cfg) (.start node startAt)
    ¬ FailedApply l → ∃ m,
      Represents C node.server.valueCodec l.node.server.store.cells m ∧
        Exact keccak256 chain cfg.complete l.last m ∧
          ∀ addr, Apart C node.server.valueCodec keccak256 (insert addr (inPlay keccak256 chain startAt m₀)) →
            l.node.server.balanceOf (keccak256 addr) = .ok (m (keccak256 addr)) := by
  intro l applied
  have start : Tracks keccak256 chain cfg node.server.valueCodec (inPlay keccak256 chain startAt m₀)
      (.start node startAt) m₀ :=
    ⟨rfl, represents, exact.on apart.1 fun addr stored => .inl stored, rfl⟩
  have touched : ∀ n, startAt < n → ∀ addr ∈ chain.touched n, addr ∈ inPlay keccak256 chain startAt m₀ :=
    fun n ahead addr mem => .inr ⟨n, ahead, mem⟩
  rcases run_tracks laws apart touched start fed with failed | ⟨m, tracks⟩
  · exact absurd failed applied
  · refine ⟨m, tracks.represents, tracks.exact.exact, fun addr apart' => ?_⟩
    refine balanceOf_eq laws (tracks.sameCodec ▸ tracks.represents) ?_
    rw [tracks.sameCodec]
    refine apart'.2.clear (fun k live => ?_) ⟨addr, Set.mem_insert addr _, rfl⟩
    obtain ⟨known, hknown, same⟩ := tracks.exact.live k live
    exact ⟨known, Set.mem_insert_of_mem addr hknown, same⟩

/-- `keccak256` on the one account of the run. -/
def oneKey : Address → AddressHash := fun _ => accountKey

private def posts (balance : Balance) : TracedBlock := ⟨[⟨[1], [(1, some balance)]⟩], []⟩

private def twoPosts : Chain :=
  ⟨fun _ => 0, fun n => if n = 1 then posts 5 else if n = 2 then posts 7 else ⟨[], []⟩⟩

private def fetchedPost (n : Nat) (balance : Balance) : FetchedBlock :=
  ⟨⟨n, [(accountKey, balance)], []⟩, [(1, balance)], []⟩

private def silent : ConfirmSource := ⟨fun _ _ _ => none, fun _ _ _ => none⟩

private def twoFetched : List (Event (referenceTable smallParams)) :=
  [.polled none, .polled (some 2), .fetched none (draw 0) silent,
    .fetched (some (fetchedPost 1 5)) (draw 0) silent, .fetched (some (fetchedPost 2 7)) (draw 0) silent]

private theorem touched_one {n : Nat} {addr : Address} (h : addr ∈ twoPosts.touched n) : addr = 1 := by
  simp only [Chain.touched, twoPosts, posts] at h
  by_cases one : n = 1
  · rw [if_pos one] at h
    exact List.mem_singleton.mp h
  · rw [if_neg one] at h
    by_cases two : n = 2
    · rw [if_pos two] at h
      exact List.mem_singleton.mp h
    · rw [if_neg two] at h
      cases h

private theorem twoPosts_apart : Apart (referenceTable smallParams) nodeAtGenesis.server.valueCodec oneKey
    (inPlay oneKey twoPosts 0 fun _ => none) := by
  refine apart_of_one 1 fun addr known => ?_
  rcases known with stored | ⟨n, -, mem⟩
  · exact absurd rfl stored
  · exact touched_one mem

/-- The account's balance is written twice; a poll and a fetch fail on the way. -/
theorem followed_exact_posts : ∃ m,
    Represents (referenceTable smallParams) smallCodec nodeAtTwo.server.store.cells m ∧
      Exact oneKey twoPosts true 2 m := by
  obtain ⟨m, represents, exact, -⟩ := followed_exact (placementLaws smallParams) oneKey ⟨true, 0, 0⟩
    twoPosts 0 nodeAtGenesis (fun _ => none) (smallServer_represents 0)
    ⟨fun k b h => (by cases h), fun _ addr _ => rfl⟩ twoPosts_apart twoFetched
    ⟨trivial, trivial, trivial, rfl, rfl, trivial⟩ (by rintro ⟨n, e, h⟩; cases h)
  exact ⟨m, represents, exact⟩

end RisePir.Rpc.TrueBalances
