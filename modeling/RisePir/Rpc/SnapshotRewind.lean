import RisePir.Rpc.Bootstrap
import RisePir.Rpc.Corrections

set_option autoImplicit false
set_option relaxedAutoImplicit false

/-! The rewind of a snapshot. The store starts at an earlier block than the snapshot is for, and the
replay rewrites what the blocks between them set; credits go on top of whatever the store holds. -/

namespace RisePir.Rpc.SnapshotRewind

open RisePir.Lib
open RisePir.Lib.KeyedAmounts
open RisePir.Lib.Sparse
open RisePir.Lib.Text
open RisePir.Proto.Types
open RisePir.Proto.Value
open RisePir.Upstream.Cuckoo
open RisePir.Upstream.Pir
open RisePir.Upstream.ReferencePir
open RisePir.Upstream.ReferenceTable
open RisePir.Server.Core
open RisePir.Server.Refinement
open RisePir.Server.Ledger
open RisePir.Server.Small
open RisePir.Http.Node
open RisePir.Http.Serving
open RisePir.Feed.Rpc
open RisePir.Feed.Snapshot
open RisePir.Rpc.Bootstrap (sunkRows snapshotSink sinkRows_represents mem_sunkRows)
open RisePir.Rpc.Corrections
open RisePir.Rpc.Front (FrontNode accountKey frontDigest)
open RisePir.Rpc.HardRefresh
open RisePir.Rpc.Mainnet
open RisePir.Rpc.TrueBalances

/-- `rewound_genesis`. -/
def rewoundGenesis (snapshotBlock rewind : Nat) : Except String Nat :=
  if rewind = 0 then .ok snapshotBlock
  else if snapshotBlock ≤ rewind then
    .error (s!"--snapshot-rewind {rewind} >= --snapshot-block {snapshotBlock} (would rewind to " ++
      "block 0 or below, i.e. past genesis) — pick a smaller --snapshot-rewind, or 0 to disable it")
  else .ok (snapshotBlock - rewind)

section Chain

variable (chain : Chain)

/-- Some block behind `genesis` and up to `n` sets the account's balance. -/
def Rewritten (genesis n : Nat) (addr : Address) : Prop :=
  ∃ k, genesis < k ∧ k ≤ n ∧ addr ∈ named (chain.block k).posted

/-- What the blocks behind `genesis` pay the account, `count` of them. -/
def credited (genesis : Nat) (addr : Address) : Nat → Nat
  | 0 => 0
  | count + 1 => credited genesis addr count + total (chain.block (genesis + count + 1)).credits addr

variable {chain} {genesis n : Nat} {addr : Address}

theorem rewritten_succ : Rewritten chain genesis (n + 1) addr ↔
    Rewritten chain genesis n addr ∨ genesis ≤ n ∧ addr ∈ named (chain.block (n + 1)).posted := by
  constructor
  · rintro ⟨k, after, upto, mem⟩
    rcases Nat.lt_or_ge n k with last | earlier
    · obtain rfl : k = n + 1 := by omega
      exact .inr ⟨by omega, mem⟩
    · exact .inl ⟨k, after, earlier, mem⟩
  · rintro (⟨k, after, upto, mem⟩ | ⟨after, mem⟩)
    · exact ⟨k, after, by omega, mem⟩
    · exact ⟨n + 1, by omega, le_rfl, mem⟩

/-- An account that no block sets only gains what it is paid. -/
theorem balance_credited (count : Nat) (kept : ¬ Rewritten chain genesis (genesis + count) addr) :
    chain.balance (genesis + count) addr =
      chain.balance genesis addr + credited chain genesis addr count := by
  induction count with
  | zero => rfl
  | succ count ih =>
      rw [← Nat.add_assoc, rewritten_succ, not_or] at kept
      have unset : addr ∉ named (chain.block (genesis + count + 1)).posted := fun mem =>
        kept.2 ⟨Nat.le_add_right _ _, mem⟩
      rw [← Nat.add_assoc, TrueBalances.Chain.balance, lastWrite_eq_none.mpr unset, Option.getD_none,
        ih kept.1, credited, Nat.add_assoc]

end Chain

variable {p : CuckooParams} {C : SegmentedCuckoo p} {B : PirBackend}
  {keccak256 : Address → AddressHash} {cfg : FollowConfig} {chain : Chain} {codec : ValueCodec}
  {accounts : Set Address} {genesis : Nat} {m₀ m : Balances} {l : FollowLoop C B}

/-- The loop's store behind a replay from `genesis` on: what a block has set is true, and what none
has set is as far from the truth as it was. -/
structure Replayed (keccak256 : Address → AddressHash) (chain : Chain) (codec : ValueCodec)
    (accounts : Set Address) (genesis : Nat) (m₀ : Balances) (l : FollowLoop C B) (m : Balances) :
    Prop where
  stands : Stands codec (keccak256 '' accounts) l m
  quiet : l.corrections = []
  ahead : genesis ≤ l.last
  rewritten : ∀ addr ∈ accounts, Rewritten chain genesis l.last addr →
    amount m (keccak256 addr) = chain.balance l.last addr
  carried : ∀ addr ∈ accounts, ¬ Rewritten chain genesis l.last addr →
    amount m (keccak256 addr) + chain.balance genesis addr =
      amount m₀ (keccak256 addr) + chain.balance l.last addr

/-- In complete mode every credit is kept. -/
theorem amount_next (whole : cfg.complete = true) (inj : accounts.InjOn keccak256) {n : Nat}
    (touched : ∀ addr ∈ chain.touched (n + 1), addr ∈ accounts) {update : BlockUpdate}
    (next : NextUpdate keccak256 chain n (keeps keccak256 cfg chain n m) update) {addr : Address}
    (known : addr ∈ accounts) :
    amount (ledgerBlock m update) (keccak256 addr) =
      (lastWrite (chain.block (n + 1)).posted addr).getD (amount m (keccak256 addr)) +
        total (chain.block (n + 1)).credits addr := by
  rw [amount_ledgerBlock, next.last inj touched known, next.sum inj touched known,
    if_pos (by rw [keeps, whole]; rfl)]

/-- One more block replayed. -/
theorem Replayed.applied (whole : cfg.complete = true) (inj : accounts.InjOn keccak256)
    (touched : ∀ addr ∈ chain.touched (l.last + 1), addr ∈ accounts)
    (h : Replayed keccak256 chain codec accounts genesis m₀ l m) {l' : FollowLoop C B}
    {update : BlockUpdate}
    (next : NextUpdate keccak256 chain l.last (keeps keccak256 cfg chain l.last m) update)
    (after : Stands codec (keccak256 '' accounts) l' (ledgerBlock m update))
    (moved : l'.last = l.last + 1) (quiet : l'.corrections = []) :
    Replayed keccak256 chain codec accounts genesis m₀ l' (ledgerBlock m update) := by
  have ahead := h.ahead
  refine ⟨after, quiet, by omega, fun addr known set => ?_, fun addr known unset => ?_⟩
  · rw [moved] at set ⊢
    rw [amount_next whole inj touched next known, TrueBalances.Chain.balance]
    by_cases here : addr ∈ named (chain.block (l.last + 1)).posted
    · obtain ⟨v, hv⟩ := Option.ne_none_iff_exists'.mp (mt lastWrite_eq_none.mp (not_not.mpr here))
      rw [hv]
      rfl
    · have earlier := (rewritten_succ.mp set).resolve_right fun now => here now.2
      rw [lastWrite_eq_none.mpr here, Option.getD_none, Option.getD_none,
        h.rewritten addr known earlier]
  · rw [moved] at unset ⊢
    rw [rewritten_succ, not_or] at unset
    have here : addr ∉ named (chain.block (l.last + 1)).posted := fun mem => unset.2 ⟨ahead, mem⟩
    have before := h.carried addr known unset.1
    rw [amount_next whole inj touched next known, TrueBalances.Chain.balance,
      lastWrite_eq_none.mpr here, Option.getD_none, Option.getD_none]
    omega

/-- One event keeps the replay as it should be, or stops the loop. -/
theorem Replayed.step (laws : C.PlacementLaws) (whole : cfg.complete = true)
    (apart : Apart C codec keccak256 accounts)
    (touched : ∀ addr ∈ chain.touched (l.last + 1), addr ∈ accounts)
    (h : Replayed keccak256 chain codec accounts genesis m₀ l m) {event : Event C}
    (fed : FedEvent keccak256 chain l event) :
    (l.step keccak256 cfg event).stopped.isSome ∨
      l.last ≤ (l.step keccak256 cfg event).last ∧
        ∃ m', Replayed keccak256 chain codec accounts genesis m₀ (l.step keccak256 cfg event) m' := by
  cases event with
  | polled finalized =>
      right
      cases finalized with
      | none => exact ⟨le_rfl, m, h⟩
      | some finalized =>
          rw [FollowLoop.step]
          split
          · exact ⟨le_rfl, m, h⟩
          · exact ⟨le_rfl, m, ⟨h.stands.sameCodec, h.stands.represents, h.stands.live⟩, h.quiet, h.ahead,
              h.rewritten, h.carried⟩
  | queued corrections => exact fed.elim
  | fetched block rng confirm =>
      cases block with
      | none => exact .inr ⟨le_rfl, m, h⟩
      | some block =>
          rw [FollowLoop.step]
          by_cases running : l.stopped.isNone ∧ l.last < l.finalized
          · rw [if_pos running, FollowLoop.follow]
            have fetches : Fetches keccak256 cfg chain codec (keccak256 '' accounts) l m
                (l.applyFetched cfg rng block.update) :=
              applyFetched_fetches laws apart.2 (fun addr mem => ⟨addr, touched addr mem, rfl⟩)
                h.stands (by rw [h.quiet]; simp) fed rng
            cases outcome : l.applyFetched cfg rng block.update with
            | mk l' delta =>
                rw [outcome] at fetches
                cases fetches with
                | stops stopped last queue => exact .inl stopped
                | applies stand next after =>
                    right
                    dsimp only
                    obtain ⟨reservoir, stopped, same⟩ :=
                      checkpoint_keeps keccak256 cfg confirm _ block.changed block.credited
                    rw [same]
                    rw [h.quiet] at stand
                    obtain rfl := Except.ok.inj stand
                    refine ⟨Nat.le_succ _, _, h.applied whole apart.1 touched next
                      ⟨after.sameCodec, after.represents, after.live⟩ rfl ?_⟩
                    rw [h.quiet]
                    rfl
          · rw [if_neg running]
            exact .inr ⟨le_rfl, m, h⟩

theorem replayed_run (laws : C.PlacementLaws) (whole : cfg.complete = true)
    (apart : Apart C codec keccak256 accounts)
    (touched : ∀ n, l.last < n → ∀ addr ∈ chain.touched n, addr ∈ accounts)
    (h : Replayed keccak256 chain codec accounts genesis m₀ l m) {events : List (Event C)}
    (fed : Fed keccak256 cfg chain l events) :
    (events.foldl (FollowLoop.step keccak256 cfg) l).stopped.isSome ∨
      ∃ m', Replayed keccak256 chain codec accounts genesis m₀
        (events.foldl (FollowLoop.step keccak256 cfg) l) m' := by
  induction events generalizing l m with
  | nil => exact .inr ⟨m, h⟩
  | cons event events ih =>
      obtain ⟨now, later⟩ := fed
      rw [List.foldl_cons]
      rcases h.step laws whole apart (touched _ (Nat.lt_succ_self _)) now with stopped | ⟨ahead, m', h'⟩
      · rw [run_stopped stopped later]
        exact .inl stopped
      · exact ih (fun n hn => touched n (Nat.lt_of_le_of_lt ahead hn)) h' later

section Bootstrapped

variable {debug : List Char → String} {shards : List Shard}

theorem parseRow_length {line : List Char} {row : List UInt8 × Balance}
    (h : parseRow debug line = .ok row) : row.1.length = 20 := by
  unfold parseRow at h
  split at h
  · rename_i addrStr balStr fields
    cases address : parseAddress (trim addrStr) with
    | none =>
        rw [address] at h
        cases h
    | some addr20 =>
        rw [address] at h
        dsimp only at h
        cases wei : parseWei debug (trim balStr) with
        | error e =>
            rw [wei] at h
            cases h
        | ok balance =>
            rw [wei] at h
            cases h
            unfold parseAddress at address
            simp only [Option.bind_eq_bind, Option.bind_eq_some_iff] at address
            obtain ⟨hex, -, bytes⟩ := address
            by_cases count : hex.length ≠ 40
            · rw [if_pos count] at bytes
              cases bytes
            · rw [if_neg count] at bytes
              have := hexBytes_length bytes
              dsimp only
              omega
  · cases h

theorem sunkRows_length {row : List UInt8 × Balance} (mem : row ∈ sunkRows debug shards) :
    row.1.length = 20 := by
  obtain ⟨shard, -, listed⟩ := List.mem_flatMap.mp (mem_sunkRows.mp mem).1
  obtain ⟨numbered, inside, rfl⟩ := List.mem_map.mp listed
  obtain ⟨line, -, parsed⟩ := List.mem_filterMap.mp inside
  cases row : parseRow debug line.2 with
  | error e =>
      rw [row] at parsed
      cases parsed
  | ok found =>
      rw [row] at parsed
      cases parsed
      exact parseRow_length row

/-- The balances that a snapshot's rows put into the store. -/
def snapshotBalances (keccak256 : Address → AddressHash) (debug : List Char → String)
    (shards : List Shard) : Balances :=
  writes (fun _ => none) ((sunkRows debug shards).map fun row => (keccak256 (addressOf row.1), row.2))

theorem mem_of_lastWrite {es : List (AddressHash × Nat)} {k : AddressHash} {v : Nat}
    (h : lastWrite es k = some v) : (k, v) ∈ es := by
  induction es with
  | nil => cases h
  | cons e es ih =>
      rw [lastWrite, Option.or_eq_some_iff] at h
      rcases h with later | ⟨-, here⟩
      · exact List.mem_cons_of_mem _ (ih later)
      · split_ifs at here with same
        rw [← same, ← Option.some.inj here]
        exact List.mem_cons_self

/-- Every row that is sunk is stored. -/
theorem snapshotBalances_ne_none (keccak256 : Address → AddressHash) {row : List UInt8 × Balance}
    (mem : row ∈ sunkRows debug shards) :
    snapshotBalances keccak256 debug shards (keccak256 (addressOf row.1)) ≠ none := by
  have written : keccak256 (addressOf row.1) ∈ named ((sunkRows debug shards).map fun row =>
      (keccak256 (addressOf row.1), row.2)) :=
    List.mem_map_of_mem (List.mem_map_of_mem (f := fun row : List UInt8 × Balance =>
      (keccak256 (addressOf row.1), row.2)) mem)
  obtain ⟨v, last⟩ := Option.ne_none_iff_exists'.mp (mt lastWrite_eq_none.mp (not_not.mpr written))
  obtain ⟨source, inside, same⟩ := List.mem_map.mp (mem_of_lastWrite last)
  rw [snapshotBalances, writes_apply, last]
  dsimp only
  rw [stored, if_neg]
  · exact Option.some_ne_none v
  · exact fun zero => (mem_sunkRows.mp inside).2 ((congrArg Prod.snd same).trans zero)

/-- Only keys of rows are stored. -/
theorem snapshotBalances_live {k : AddressHash}
    (live : snapshotBalances keccak256 debug shards k ≠ none) :
    ∃ row ∈ sunkRows debug shards, keccak256 (addressOf row.1) = k := by
  by_contra absent
  refine live (writes_of_notMem fun mem => absent ?_)
  obtain ⟨entry, inside, rfl⟩ := List.mem_map.mp mem
  obtain ⟨row, source, rfl⟩ := List.mem_map.mp inside
  exact ⟨row, source, rfl⟩

variable {t₀ t : Table C} {stats : SnapshotStats}

/-- The store that a snapshot's ingest builds stands for the snapshot's balances. -/
theorem ingest_represents (laws : C.PlacementLaws) (bits : codec.valueBits = p.valueBits)
    (empty : ∀ s, ¬ Occupied C t₀.store.cells s)
    (accepted : ingest debug (fun bytes => keccak256 (addressOf bytes)) (snapshotSink C codec) shards t₀ =
      .ok (stats, t))
    (once : ((sunkRows debug shards).map Prod.fst).Nodup)
    (apart : Apart C codec keccak256 accounts)
    (listed : ∀ row ∈ sunkRows debug shards, addressOf row.1 ∈ accounts) :
    Represents C codec t.store.cells (snapshotBalances keccak256 debug shards) := by
  obtain ⟨-, -, -, sunk⟩ := ingest_ok accepted
  have keysApart : Bootstrap.Apart C codec (fun bytes => keccak256 (addressOf bytes))
      (fun bytes => bytes.length = 20 ∧ addressOf bytes ∈ accounts) := by
    intro bytes bytes' known known' different
    refine apart.2 _ ⟨_, known.2, rfl⟩ _ ⟨_, known'.2, rfl⟩ fun same => different ?_
    exact addressOf_inj known.1 known'.1 (apart.1 known.2 known'.2 same)
  exact sinkRows_represents laws bits keysApart (represents_empty empty) (by simp)
    (fun row mem => ⟨⟨sunkRows_length mem, listed row mem⟩, (mem_sunkRows.mp mem).2, rfl⟩) once sunk

end Bootstrapped

/-- What the rewind heals. A server starts from a snapshot at the rewound genesis and follows the
chain. An account is answered right exactly if a replayed block has set its balance, or its row is its
balance at the genesis; where the row is the account's balance at some block of the rewound window, that
is if none of the credits that the row already holds was paid in the window. -/
theorem rewind_heals (laws : C.PlacementLaws) (bits : codec.valueBits = p.valueBits)
    (debug : List Char → String) (keccak256 : Address → AddressHash) {shards : List Shard}
    {t₀ t : Table C} {stats : SnapshotStats} (empty : ∀ s, ¬ Occupied C t₀.store.cells s)
    (accepted : ingest debug (fun bytes => keccak256 (addressOf bytes)) (snapshotSink C codec) shards t₀ =
      .ok (stats, t))
    (once : ((sunkRows debug shards).map Prod.fst).Nodup) {snapshotBlock rewind genesis : Nat}
    (rewound : rewoundGenesis snapshotBlock rewind = .ok genesis) (config : B.Config)
    (coins : Nat → B.Coins) (node : NodeState C B)
    (booted : node.server = .new t.store config coins codec genesis bits) (cfg : FollowConfig)
    (whole : cfg.complete = true) (chain : Chain)
    (apart : Apart C codec keccak256
      (inPlay keccak256 chain genesis (snapshotBalances keccak256 debug shards)))
    (events : List (Event C)) (fed : Fed keccak256 cfg chain (.start node genesis) events) :
    let l := events.foldl (FollowLoop.step keccak256 cfg) (.start node genesis)
    let row := fun addr => amount (snapshotBalances keccak256 debug shards) (keccak256 addr)
    l.stopped = none →
      ∀ addr ∈ inPlay keccak256 chain genesis (snapshotBalances keccak256 debug shards),
        ∃ v, l.node.server.balanceOf (keccak256 addr) = .ok v ∧
          (v.getD 0 = chain.balance l.last addr ↔
            Rewritten chain genesis l.last addr ∨ row addr = chain.balance genesis addr) ∧
          ∀ n, snapshotBlock - rewind ≤ n → n ≤ snapshotBlock → snapshotBlock ≤ l.last →
            row addr = chain.balance n addr →
              (v.getD 0 = chain.balance l.last addr ↔
                Rewritten chain genesis l.last addr ∨ credited chain genesis addr (n - genesis) = 0) := by
  intro l row running addr known
  have origin : genesis = snapshotBlock - rewind := by
    unfold rewoundGenesis at rewound
    split_ifs at rewound with off
    · obtain rfl := Except.ok.inj rewound
      omega
    · exact (Except.ok.inj rewound).symm
  have live : ∀ k, snapshotBalances keccak256 debug shards k ≠ none →
      k ∈ keccak256 '' inPlay keccak256 chain genesis (snapshotBalances keccak256 debug shards) := by
    intro k stored
    obtain ⟨row, mem, rfl⟩ := snapshotBalances_live stored
    exact ⟨addressOf row.1, .inl stored, rfl⟩
  have listed : ∀ row ∈ sunkRows debug shards, addressOf row.1 ∈
      inPlay keccak256 chain genesis (snapshotBalances keccak256 debug shards) :=
    fun row mem => .inl (snapshotBalances_ne_none keccak256 mem)
  have represents := ingest_represents laws bits empty accepted once apart listed
  have start : Replayed keccak256 chain codec
      (inPlay keccak256 chain genesis (snapshotBalances keccak256 debug shards)) genesis
      (snapshotBalances keccak256 debug shards) (.start node genesis)
      (snapshotBalances keccak256 debug shards) := by
    refine ⟨⟨?_, ?_, live⟩, rfl, le_rfl, ?_, ?_⟩
    · rw [FollowLoop.start, booted]
      rfl
    · rw [FollowLoop.start, booted]
      exact represents
    · rintro addr - ⟨k, after, upto, -⟩
      have upto : k ≤ genesis := upto
      omega
    · intro addr _ _
      rfl
  have touched : ∀ n, genesis < n → ∀ addr ∈ chain.touched n, addr ∈
      inPlay keccak256 chain genesis (snapshotBalances keccak256 debug shards) :=
    fun n after addr mem => .inr ⟨n, after, mem⟩
  have outcome : l.stopped.isSome ∨ ∃ m, Replayed keccak256 chain codec
      (inPlay keccak256 chain genesis (snapshotBalances keccak256 debug shards)) genesis
      (snapshotBalances keccak256 debug shards) l m :=
    replayed_run laws whole apart touched start fed
  rcases outcome with stopped | ⟨m, replayed⟩
  · rw [running] at stopped
    cases stopped
  · refine ⟨_, replayed.stands.read laws apart.2 ⟨addr, known, rfl⟩, ?_⟩
    have general : amount m (keccak256 addr) = chain.balance l.last addr ↔
        Rewritten chain genesis l.last addr ∨ row addr = chain.balance genesis addr := by
      by_cases set : Rewritten chain genesis l.last addr
      · exact iff_of_true (replayed.rewritten addr known set) (.inl set)
      · have carried : _ = row addr + _ := replayed.carried addr known set
        rw [or_iff_right set]
        omega
    refine ⟨general, fun n low high past dated => ?_⟩
    change amount m (keccak256 addr) = _ ↔ _
    rw [general]
    by_cases set : Rewritten chain genesis l.last addr
    · exact iff_of_true (.inl set) (.inl set)
    · obtain ⟨count, rfl⟩ := Nat.exists_eq_add_of_le (show genesis ≤ n by omega)
      have unset : ¬ Rewritten chain genesis (genesis + count) addr := by
        rintro ⟨k, after, upto, mem⟩
        exact set ⟨k, after, by omega, mem⟩
      rw [or_iff_right set, or_iff_right set, dated, balance_credited count unset,
        Nat.add_sub_cancel_left]
      omega

section Stale

private def ownRow : List UInt8 := List.replicate 19 0 ++ [1]

private def soleAccount : Address := addressOf ownRow

private def soleKey (addr : Address) : AddressHash := if addr = soleAccount then accountKey else 0

/-- The account is listed with what it had before block 2. -/
private def staleShard : Shard :=
  ⟨"a.csv", .ok ("0x0000000000000000000000000000000000000001,5\n".toList, none)⟩

private def staleChain : Chain :=
  ⟨fun addr => if addr = soleAccount then 5 else 0,
    fun n => if n = 2 then ⟨[⟨[soleAccount], [(soleAccount, some 7)]⟩], []⟩ else ⟨[], []⟩⟩

private def unquoted (text : List Char) : String := String.ofList text

private def vacantTable : Table (referenceTable smallParams) := ⟨draw 0, emptyStore smallParams⟩

private def staleIngest :=
  ingest unquoted (fun bytes => soleKey (addressOf bytes))
    (snapshotSink (referenceTable smallParams) smallCodec) [staleShard] vacantTable

private def staleTable : Table (referenceTable smallParams) :=
  (staleIngest.toOption.map Prod.snd).getD vacantTable

private theorem staleIngest_ok : ∃ stats, staleIngest = .ok (stats, staleTable) := by
  have accepted : staleIngest.toOption.isSome = true := by decide +kernel
  cases h : staleIngest with
  | error e =>
      rw [h] at accepted
      cases accepted
  | ok out => exact ⟨out.1, by rw [staleTable, h]; rfl⟩

private def staleServer : SmallServer :=
  .new staleTable.store ⟨1, 1⟩ (fun j => ⟨BitVec.ofNat 128 j, []⟩) smallCodec 1 smallCodec_width

private def staleNode : FrontNode := .new frontDigest staleServer (.new 4 pos_four) true

private def mute : ConfirmSource := ⟨fun _ _ _ => none, fun _ _ _ => none⟩

private def staleEvents : List (Event (referenceTable smallParams)) :=
  [.polled (some 2), .fetched (some ⟨⟨2, [(accountKey, 7)], []⟩, [(soleAccount, 7)], []⟩) (draw 0) mute]

private theorem stale_rows : sunkRows unquoted [staleShard] = [(ownRow, 5)] := by
  have listed : listedRows unquoted [staleShard] = [(ownRow, 5)] := by decide +kernel
  rw [sunkRows, listed]
  rfl

private theorem stale_balances : snapshotBalances soleKey unquoted [staleShard] =
    KeyedAmounts.write (fun _ => none) (accountKey, 5) := by
  rw [snapshotBalances, stale_rows]
  rfl

private theorem stale_inPlay {addr : Address}
    (known : addr ∈ inPlay soleKey staleChain 1 (snapshotBalances soleKey unquoted [staleShard])) :
    addr = soleAccount := by
  by_contra other
  rcases known with stored | ⟨n, -, mem⟩
  · rw [stale_balances, KeyedAmounts.write, soleKey, if_neg other] at stored
    exact stored (Function.update_of_ne (by decide) _ _)
  · simp only [TrueBalances.Chain.touched, staleChain] at mem
    by_cases two : n = 2
    · rw [if_pos two] at mem
      exact other (List.mem_singleton.mp mem)
    · rw [if_neg two] at mem
      cases mem

/-- The row is the account's balance of block 1, one block behind the snapshot's; block 2 sets it. -/
theorem rewind_heals_stale : ∃ v,
    (staleEvents.foldl (FollowLoop.step soleKey ⟨true, 0, 0⟩)
      (.start staleNode 1)).node.server.balanceOf accountKey = .ok v ∧ v.getD 0 = 7 := by
  obtain ⟨stats, accepted⟩ := staleIngest_ok
  have known : soleAccount ∈
      inPlay soleKey staleChain 1 (snapshotBalances soleKey unquoted [staleShard]) :=
    .inr ⟨2, by decide, List.mem_singleton_self _⟩
  have healed := rewind_heals (B := referencePir) (placementLaws smallParams) rfl unquoted soleKey
    (fun s occupied => occupied.2 (emptyStore_vacant occupied.1)) accepted
    (by rw [stale_rows]; exact List.nodup_singleton _) (show rewoundGenesis 2 1 = .ok 1 from rfl) ⟨1, 1⟩
    (fun j => ⟨BitVec.ofNat 128 j, []⟩) staleNode rfl ⟨true, 0, 0⟩ rfl staleChain
    (apart_of_one soleAccount fun addr known => stale_inPlay known) staleEvents ⟨trivial, rfl, trivial⟩
    (Option.isNone_iff_eq_none.mp (by decide +kernel)) soleAccount known
  obtain ⟨v, answers, right, -⟩ := healed
  refine ⟨v, answers, (right.mpr (.inl ⟨2, by decide, by decide +kernel, ?_⟩)).trans ?_⟩
  · exact List.mem_singleton_self _
  · decide +kernel

end Stale

end RisePir.Rpc.SnapshotRewind
