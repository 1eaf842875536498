import RisePir.Rpc.TrueBalances

set_option autoImplicit false
set_option relaxedAutoImplicit false

/-! Checkpoints over whole runs. A comparison at the current block is sound for every address that
is still tracked; a deferred address may have lost a credit since it was queued. -/

namespace RisePir.Rpc.Checkpoints

open RisePir.Lib.Sparse
open RisePir.Lib.KeyedAmounts
open RisePir.Proto.Types
open RisePir.Proto.Value
open RisePir.Upstream.Cuckoo
open RisePir.Upstream.Pir
open RisePir.Upstream.ReferenceTable
open RisePir.Server.Core
open RisePir.Server.Refinement
open RisePir.Server.Ledger
open RisePir.Server.Small
open RisePir.Http.Node
open RisePir.Feed.Rpc
open RisePir.Rpc.Front
open RisePir.Rpc.Mainnet
open RisePir.Rpc.TrueBalances

/-- Since the last transaction that changed the account a withdrawal has reached it while its
balance was zero. -/
def Lost (chain : Chain) (startAt : Nat) : Nat → Address → Prop
  | 0, _ => False
  | n + 1, addr =>
      startAt ≤ n ∧ addr ∉ named (chain.block (n + 1)).posted ∧
        (Lost chain startAt n addr ∨
          chain.balance n addr = 0 ∧ total (chain.block (n + 1)).credits addr ≠ 0)

variable {p : CuckooParams} {C : SegmentedCuckoo p} {B : PirBackend}

/-- The provider may fail, but what it answers is true at the height it is asked for. -/
def Truthful (chain : Chain) (confirm : ConfirmSource) : Prop :=
  ∀ i addr n v, confirm.sampled i addr n = some v ∨ confirm.drained i addr n = some v →
    v = chain.balance n addr

def TruthfulEvent (chain : Chain) : Event C → Prop
  | .fetched _ _ confirm => Truthful chain confirm
  | _ => True

/-- A checkpoint is due behind block `n` and close enough to the head to be run. -/
def Runs (cfg : FollowConfig) (finalized n : Nat) : Prop :=
  0 < cfg.reconcileEvery ∧ cfg.reconcileEvery ∣ n ∧ finalized - n ≤ RECENT_DEPTH_BLOCKS

/-- In partial mode no address that a checkpoint drains and the provider answers for is lost. -/
def Spared (cfg : FollowConfig) (chain : Chain) (startAt : Nat) (l : FollowLoop C B) : Event C → Prop
  | .fetched (some _) _ confirm =>
      cfg.complete = true ∨ (Runs cfg l.finalized (l.last + 1) →
        ∀ i addr, (l.reservoir.addrs.take RESERVOIR_DRAIN_PER_CHECKPOINT)[i]? = some addr →
          (confirm.drained i addr (l.last + 1)).isSome → ¬ Lost chain startAt (l.last + 1) addr)
  | _ => True

def SparedRun (keccak256 : Address → AddressHash) (cfg : FollowConfig) (chain : Chain) (startAt : Nat) :
    FollowLoop C B → List (Event C) → Prop
  | _, [] => True
  | l, event :: events =>
      Spared cfg chain startAt l event ∧
        SparedRun keccak256 cfg chain startAt (l.step keccak256 cfg event) events

section Reservoir

variable {addr : Address}

theorem mem_insertMany {r : DeferredReservoir} {candidates : List Address}
    (h : addr ∈ (r.insertMany candidates).addrs) : addr ∈ r.addrs ∨ addr ∈ candidates := by
  induction candidates generalizing r with
  | nil => exact .inl h
  | cons first rest ih =>
      rw [DeferredReservoir.insertMany] at h
      by_cases full : DEFERRED_RESERVOIR_CAP ≤ r.addrs.length
      · rw [if_pos full] at h
        exact .inl h
      · rw [if_neg full] at h
        by_cases queued : first ∈ r.addrs
        · rw [if_pos queued] at h
          exact (ih h).imp_right (List.mem_cons_of_mem first)
        · rw [if_neg queued] at h
          rcases ih h with old | new
          · rcases List.mem_append.mp old with old | new
            · exact .inl old
            · exact .inr (List.mem_singleton.mp new ▸ List.mem_cons_self)
          · exact .inr (List.mem_cons_of_mem first new)

theorem mem_requeue {r : DeferredReservoir} {again : Address} (h : addr ∈ (r.requeue again).addrs) :
    addr ∈ r.addrs ∨ addr = again := by
  rw [DeferredReservoir.requeue] at h
  split at h
  · exact (List.mem_append.mp h).imp_right List.mem_singleton.mp
  · exact .inl h

end Reservoir

section Loops

variable {keccak256 : Address → AddressHash} {node : NodeState C B} {n : Nat}

theorem candidatesOf_subset {changed credited : List (Address × Balance)} {complete : Bool}
    {addr : Address} (h : addr ∈ candidatesOf changed credited complete) :
    addr ∈ named changed ∨ complete = true ∧ addr ∈ named credited := by
  have mem := (List.destutter_sublist _ _).subset h
  rcases List.mem_append.mp mem with changed | credited
  · exact .inl changed
  · cases complete with
    | true => exact .inr ⟨rfl, credited⟩
    | false => cases credited

/-- What is compared is a candidate with one answer of the provider. -/
theorem mem_zip_sampleFrom {fetch : Nat → Address → Nat → Option Balance} {samples budget : Nat}
    {candidates : List Address} {succeeded attempted : Nat} {addr : Address} {outcome : Option Balance}
    (h : (addr, outcome) ∈
      candidates.zip (sampleFrom fetch n samples budget succeeded attempted candidates)) :
    addr ∈ candidates ∧ ∃ i, outcome = fetch i addr n := by
  induction candidates generalizing succeeded attempted with
  | nil => cases h
  | cons first rest ih =>
      rw [sampleFrom] at h
      by_cases enough : samples ≤ succeeded ∨ budget ≤ attempted
      · rw [if_pos enough] at h
        cases h
      · rw [if_neg enough] at h
        rcases List.mem_cons.mp h with here | later
        · cases here
          exact ⟨List.mem_cons_self, attempted, rfl⟩
        · obtain ⟨mem, answered⟩ := ih later
          exact ⟨List.mem_cons_of_mem first mem, answered⟩

theorem compareSamples_ok {pairs : List (Address × Option Balance)}
    (matched : ∀ addr v, (addr, some v) ∈ pairs → compareOne keccak256 node n addr v = .matched) :
    ∃ results, compareSamples keccak256 node n pairs = .ok results := by
  induction pairs with
  | nil => exact ⟨[], rfl⟩
  | cons pair rest ih =>
      obtain ⟨results, hresults⟩ := ih fun addr v mem => matched addr v (List.mem_cons_of_mem pair mem)
      obtain ⟨addr, outcome⟩ := pair
      cases outcome with
      | none =>
          rw [compareSamples, hresults]
          exact ⟨_, rfl⟩
      | some v =>
          rw [compareSamples, matched addr v List.mem_cons_self, hresults]
          exact ⟨_, rfl⟩

/-- A drain whose answered comparisons all match goes through, and queues nothing new. -/
theorem drainFrom_continued {fetch : Nat → Address → Nat → Option Balance} {popped : List Address}
    {i : Nat} {r : DeferredReservoir}
    (matched : ∀ j addr v, popped[j]? = some addr → fetch (i + j) addr n = some v →
      compareOne keccak256 node n addr v = .matched) :
    ∃ r', drainFrom keccak256 node n fetch i popped r = (r', .continued) ∧
      ∀ addr ∈ r'.addrs, addr ∈ r.addrs ∨ addr ∈ popped := by
  induction popped generalizing i r with
  | nil => exact ⟨r, rfl, fun addr mem => .inl mem⟩
  | cons first rest ih =>
      have later : ∀ j addr v, rest[j]? = some addr → fetch (i + 1 + j) addr n = some v →
          compareOne keccak256 node n addr v = .matched := by
        intro j addr v hj hv
        rw [Nat.add_assoc, Nat.add_comm 1 j] at hv
        exact matched (j + 1) addr v hj hv
      rw [drainFrom]
      cases hfetch : fetch i first n with
      | none =>
          obtain ⟨r', continued, only⟩ := ih (r := r.requeue first) later
          refine ⟨r', continued, fun addr mem => ?_⟩
          rcases only addr mem with queued | popped
          · rcases mem_requeue queued with old | rfl
            · exact .inl old
            · exact .inr List.mem_cons_self
          · exact .inr (List.mem_cons_of_mem first popped)
      | some v =>
          obtain ⟨r', continued, only⟩ := ih (r := r) later
          dsimp only
          rw [matched 0 first v rfl hfetch]
          exact ⟨r', continued, fun addr mem => (only addr mem).imp_right (List.mem_cons_of_mem first)⟩

end Loops

section Runs

variable {keccak256 : Address → AddressHash} {chain : Chain} {cfg : FollowConfig} {codec : ValueCodec}
variable {accounts : Set Address} {startAt : Nat} {m m' : Balances} {l : FollowLoop C B}

/-- Every queued address is in play, and one that is not stored has nothing or is lost. -/
def Watched (keccak256 : Address → AddressHash) (chain : Chain) (cfg : FollowConfig) (startAt : Nat)
    (accounts : Set Address) (l : FollowLoop C B) (m : Balances) : Prop :=
  ∀ addr ∈ l.reservoir.addrs, addr ∈ accounts ∧ (m (keccak256 addr) = none →
    cfg.complete = true ∨ Lost chain startAt l.last addr ∨ chain.balance l.last addr = 0)

/-- A stored address and a watched one that is not lost compare equal to the truth. -/
theorem compareOne_matched (laws : C.PlacementLaws) (apart : Apart C codec keccak256 accounts)
    (h : Tracks keccak256 chain cfg codec accounts l m) {addr : Address} (known : addr ∈ accounts)
    (holds : m (keccak256 addr) = none → chain.balance l.last addr = 0) {n : Nat} :
    compareOne keccak256 l.node n addr (chain.balance l.last addr) = .matched := by
  rw [compareOne, h.read laws apart ⟨addr, known, rfl⟩]
  dsimp only
  rw [if_neg]
  rw [not_not]
  cases hm : m (keccak256 addr) with
  | some b => exact h.exact.present addr known b hm
  | none => exact (holds hm).symm

/-- Being watched survives a block that leaves the reservoir alone. -/
theorem Watched.advance (h : Watched keccak256 chain cfg startAt accounts l m)
    (reached : startAt ≤ l.last)
    (next : Advanced keccak256 chain cfg.complete l.last accounts m m') (node : NodeState C B) :
    Watched keccak256 chain cfg startAt accounts { l with node, last := l.last + 1 } m' := by
  intro addr queued
  obtain ⟨known, before⟩ := h addr queued
  refine ⟨known, fun gone => ?_⟩
  by_cases tracked : Tracked keccak256 chain cfg.complete l.last m addr
  · right
    right
    change chain.balance (l.last + 1) addr = 0
    rw [← next.tracked addr known tracked, amount, gone, Option.getD_none]
  · -- the block's credit to an account that is neither changed nor stored is dropped
    simp only [Tracked, not_or] at tracked
    obtain ⟨partly, notPosted, unstored⟩ := tracked
    have unstored := not_not.mp unstored
    by_cases credited : total (chain.block (l.last + 1)).credits addr = 0
    · rcases before unstored with whole | lost | zero
      · exact absurd whole partly
      · exact .inr (.inl ⟨reached, notPosted, .inl lost⟩)
      · right
        right
        change chain.balance (l.last + 1) addr = 0
        rw [Chain.balance, lastWrite_eq_none.mpr notPosted, credited, Option.getD_none, zero]
    · rcases before unstored with whole | lost | zero
      · exact absurd whole partly
      · exact .inr (.inl ⟨reached, notPosted, .inl lost⟩)
      · exact .inr (.inl ⟨reached, notPosted, .inr ⟨zero, credited⟩⟩)

section Checkpoint

variable {confirm : ConfirmSource} {changed credited : List (Address × Balance)}

/-- With true answers and no lost address among the answered ones a checkpoint goes through. -/
theorem reconcile_continued (laws : C.PlacementLaws) (apart : Apart C codec keccak256 accounts)
    (h : Tracks keccak256 chain cfg codec accounts l m)
    (watched : Watched keccak256 chain cfg startAt accounts l m) (truthful : Truthful chain confirm)
    (candidates : ∀ addr ∈ candidatesOf changed credited cfg.complete, addr ∈ accounts ∧
      (m (keccak256 addr) = none → chain.balance l.last addr = 0)) (lag samples : Nat)
    (spared : cfg.complete = true ∨ (lag ≤ RECENT_DEPTH_BLOCKS →
      ∀ i addr, (l.reservoir.addrs.take RESERVOIR_DRAIN_PER_CHECKPOINT)[i]? = some addr →
        (confirm.drained i addr l.last).isSome → ¬ Lost chain startAt l.last addr)) :
    ∃ reservoir, reconcile keccak256 l.node l.last confirm lag changed credited cfg.complete samples
        l.reservoir = (reservoir, .continued) ∧
      ∀ addr ∈ reservoir.addrs, addr ∈ l.reservoir.addrs ∨
        addr ∈ candidatesOf changed credited cfg.complete := by
  rw [reconcile]
  dsimp only
  by_cases deep : RECENT_DEPTH_BLOCKS < lag
  · rw [classifyCheckpoint, if_pos deep]
    exact ⟨_, rfl, fun addr mem => mem_insertMany mem⟩
  · have samplesMatch : ∃ results, compareSamples keccak256 l.node l.last
        ((candidatesOf changed credited cfg.complete).zip (sampleReference confirm.sampled l.last
          (candidatesOf changed credited cfg.complete) samples (samples * 2))) = .ok results := by
      apply compareSamples_ok
      intro addr v mem
      obtain ⟨candidate, i, answer⟩ := mem_zip_sampleFrom mem
      obtain ⟨known, holds⟩ := candidates addr candidate
      rw [truthful i addr l.last v (.inl answer.symm)]
      exact compareOne_matched laws apart h known holds
    have drains : ∃ reservoir, drainFrom keccak256 l.node l.last confirm.drained 0
        (l.reservoir.addrs.take RESERVOIR_DRAIN_PER_CHECKPOINT)
          ⟨l.reservoir.addrs.drop RESERVOIR_DRAIN_PER_CHECKPOINT⟩ = (reservoir, .continued) ∧
        ∀ addr ∈ reservoir.addrs, addr ∈ l.reservoir.addrs.drop RESERVOIR_DRAIN_PER_CHECKPOINT ∨
          addr ∈ l.reservoir.addrs.take RESERVOIR_DRAIN_PER_CHECKPOINT := by
      apply drainFrom_continued
      intro j addr v popped answer
      rw [Nat.zero_add] at answer
      obtain ⟨known, holds⟩ := watched addr (List.mem_of_mem_take (List.mem_of_getElem? popped))
      rw [truthful j addr l.last v (.inr answer)]
      apply compareOne_matched laws apart h known
      intro gone
      rcases holds gone with whole | lost | zero
      · exact h.exact.absent whole addr known gone
      · rcases spared with whole | spared
        · exact h.exact.absent whole addr known gone
        · exact absurd lost (spared (not_lt.mp deep) j addr popped (by rw [answer]; rfl))
      · exact zero
    obtain ⟨results, sampled⟩ := samplesMatch
    obtain ⟨reservoir, drained, only⟩ := drains
    have classified : ∃ outcome, classifyCheckpoint (candidatesOf changed credited cfg.complete).length []
        lag = outcome ∧ ∀ lag', outcome ≠ .deferred lag' := by
      rw [classifyCheckpoint, if_neg deep]
      split
      · exact ⟨_, rfl, fun _ same => by cases same⟩
      · exact ⟨_, rfl, fun _ same => by cases same⟩
    refine ⟨reservoir, ?_, fun addr mem => ?_⟩
    · obtain ⟨outcome, same, shallow⟩ := classified
      rw [same]
      cases outcome with
      | deferred lag' => exact absurd rfl (shallow lag')
      | _ =>
          dsimp only
          rw [sampled]
          exact drained
    · rcases only addr mem with kept | popped
      · exact .inl (List.mem_of_mem_drop kept)
      · exact .inl (List.mem_of_mem_take popped)

end Checkpoint

/-- Between two events of a run. -/
structure Sound (keccak256 : Address → AddressHash) (chain : Chain) (cfg : FollowConfig)
    (codec : ValueCodec) (accounts : Set Address) (startAt : Nat) (l : FollowLoop C B) (m : Balances) :
    Prop where
  tracks : Tracks keccak256 chain cfg codec accounts l m
  watched : Watched keccak256 chain cfg startAt accounts l m
  reached : startAt ≤ l.last

/-- The loop has stopped at a checkpoint. -/
def Halted (l : FollowLoop C B) : Prop := ∃ cause, l.stopped = some (.reconciled cause)

/-- The checkpoint behind an applied block goes through, and what it queues is watched. -/
theorem checkpoint_sound (laws : C.PlacementLaws) (apart : Apart C codec keccak256 accounts)
    (touched : ∀ addr ∈ chain.touched (l.last + 1), addr ∈ accounts)
    (h : Sound keccak256 chain cfg codec accounts startAt l m) {fetched : FetchedBlock}
    (fed : blockUpdate keccak256 (l.last + 1) (chain.block (l.last + 1)) = .ok fetched)
    {confirm : ConfirmSource} (truthful : Truthful chain confirm) {rng : C.Rng}
    (spared : Spared cfg chain startAt l (.fetched (some fetched) rng confirm)) {node : NodeState C B}
    (next : Advanced keccak256 chain cfg.complete l.last accounts m m')
    (after : Tracks keccak256 chain cfg codec accounts { l with node, last := l.last + 1 } m') :
    ∃ reservoir, FollowLoop.checkpoint keccak256 cfg confirm { l with node, last := l.last + 1 }
        fetched.changed fetched.credited = { l with node, last := l.last + 1, reservoir } ∧
      Sound keccak256 chain cfg codec accounts startAt { l with node, last := l.last + 1, reservoir } m' := by
  have watched := h.watched.advance h.reached next node
  have reached : startAt ≤ l.last + 1 := Nat.le_succ_of_le h.reached
  rw [FollowLoop.checkpoint]
  by_cases due : 0 < cfg.reconcileEvery ∧ cfg.reconcileEvery ∣ l.last + 1
  · have candidates : ∀ addr ∈ candidatesOf fetched.changed fetched.credited cfg.complete,
        addr ∈ accounts ∧ (m' (keccak256 addr) = none → chain.balance (l.last + 1) addr = 0) := by
      intro addr candidate
      rw [blockUpdate_ok fed] at candidate
      have tracked : addr ∈ accounts ∧ Tracked keccak256 chain cfg.complete l.last m addr := by
        rcases candidatesOf_subset candidate with changed | ⟨whole, credited⟩
        · have posted := mem_changesFromTrace.mp changed
          exact ⟨touched addr (List.mem_append_left _ posted), .inr (.inl posted)⟩
        · exact ⟨touched addr (List.mem_append_right _ credited), .inl whole⟩
      refine ⟨tracked.1, fun gone => ?_⟩
      rw [← next.tracked addr tracked.1 tracked.2, amount, gone, Option.getD_none]
    obtain ⟨reservoir, continued, only⟩ := reconcile_continued laws apart after watched truthful
      candidates (l.finalized - (l.last + 1)) cfg.reconcileSamples
      (spared.imp_right fun spared shallow => spared ⟨due.1, due.2, shallow⟩)
    rw [if_pos due]
    dsimp only at continued ⊢
    rw [continued]
    refine ⟨reservoir, rfl, ⟨after.sameCodec, after.represents, after.exact, after.quiet⟩, ?_, reached⟩
    intro addr queued
    rcases only addr queued with old | new
    · exact watched addr old
    · exact ⟨(candidates addr new).1, fun gone => .inr (.inr ((candidates addr new).2 gone))⟩
  · rw [if_neg due]
    exact ⟨l.reservoir, rfl, after, watched, reached⟩

/-- One event does not halt the loop at a checkpoint. -/
theorem step_sound (laws : C.PlacementLaws) (apart : Apart C codec keccak256 accounts)
    (touched : ∀ addr ∈ chain.touched (l.last + 1), addr ∈ accounts)
    (h : Sound keccak256 chain cfg codec accounts startAt l m) (running : ¬ Halted l) {event : Event C}
    (fed : FedEvent keccak256 chain l event) (truthful : TruthfulEvent chain event)
    (spared : Spared cfg chain startAt l event) :
    ¬ Halted (l.step keccak256 cfg event) ∧ (FailedApply (l.step keccak256 cfg event) ∨
      l.last ≤ (l.step keccak256 cfg event).last ∧
        ∃ m', Sound keccak256 chain cfg codec accounts startAt (l.step keccak256 cfg event) m') := by
  cases event with
  | polled finalized =>
      cases finalized with
      | none => exact ⟨running, .inr ⟨le_rfl, m, h⟩⟩
      | some finalized =>
          rw [FollowLoop.step]
          by_cases busy : l.stopped.isSome ∨ l.last < l.finalized
          · rw [if_pos busy]
            exact ⟨running, .inr ⟨le_rfl, m, h⟩⟩
          · rw [if_neg busy]
            exact ⟨running, .inr ⟨le_rfl, m, ⟨h.tracks.sameCodec, h.tracks.represents, h.tracks.exact,
              h.tracks.quiet⟩, h.watched, h.reached⟩⟩
  | queued corrections => exact fed.elim
  | fetched block rng confirm =>
      cases block with
      | none => exact ⟨running, .inr ⟨le_rfl, m, h⟩⟩
      | some block =>
          rw [FollowLoop.step]
          by_cases active : l.stopped.isNone ∧ l.last < l.finalized
          · rw [if_pos active, FollowLoop.follow]
            rcases applyFetched_spec laws apart touched h.tracks fed rng with
              ⟨node, e, failed⟩ | ⟨node, delta, m', applied, next, after⟩
            · rw [failed]
              refine ⟨?_, .inl ⟨_, e, rfl⟩⟩
              rintro ⟨cause, stopped⟩
              cases stopped
            · obtain ⟨reservoir, same, sound⟩ :=
                checkpoint_sound laws apart touched h fed truthful spared next after
              rw [applied]
              dsimp only
              rw [same]
              exact ⟨running, .inr ⟨Nat.le_succ _, m', sound⟩⟩
          · rw [if_neg active]
            exact ⟨running, .inr ⟨le_rfl, m, h⟩⟩

theorem run_sound (laws : C.PlacementLaws) (apart : Apart C codec keccak256 accounts)
    (touched : ∀ n, l.last < n → ∀ addr ∈ chain.touched n, addr ∈ accounts)
    (h : Sound keccak256 chain cfg codec accounts startAt l m) (running : ¬ Halted l)
    {events : List (Event C)} (fed : Fed keccak256 cfg chain l events)
    (truthful : ∀ event ∈ events, TruthfulEvent chain event)
    (spared : SparedRun keccak256 cfg chain startAt l events) :
    ¬ Halted (events.foldl (FollowLoop.step keccak256 cfg) l) := by
  induction events generalizing l m with
  | nil => exact running
  | cons event events ih =>
      have step := step_sound laws apart (touched _ (Nat.lt_succ_self _)) h running fed.1
        (truthful event List.mem_cons_self) spared.1
      rw [List.foldl_cons]
      rcases step.2 with ⟨n, e, stopped⟩ | ⟨ahead, m', h'⟩
      · rw [run_stopped (by rw [stopped]; rfl) fed.2]
        exact step.1
      · exact ih (fun n hn => touched n (Nat.lt_of_le_of_lt ahead hn)) h' step.1 fed.2
          (fun event' mem => truthful event' (List.mem_cons_of_mem event mem)) spared.2

end Runs

/-- On an exact feed, from an exact store and against a truthful provider, no checkpoint halts the
loop, as long as in partial mode no address that a checkpoint drains from the reservoir and has an
answer for is lost. -/
theorem never_halts (laws : C.PlacementLaws) (keccak256 : Address → AddressHash) (cfg : FollowConfig)
    (chain : Chain) (startAt : Nat) (node : NodeState C B) (m₀ : Balances)
    (represents : Represents C node.server.valueCodec node.server.store.cells m₀)
    (exact : Exact keccak256 chain cfg.complete startAt m₀)
    (apart : Apart C node.server.valueCodec keccak256 (inPlay keccak256 chain startAt m₀))
    (events : List (Event C)) (fed : Fed keccak256 cfg chain (.start node startAt) events)
    (truthful : ∀ event ∈ events, TruthfulEvent chain event)
    (spared : SparedRun keccak256 cfg chain startAt (.start node startAt) events) :
    ¬ Halted (events.foldl (FollowLoop.step keccak256 cfg) (.start node startAt)) := by
  have start : Sound keccak256 chain cfg node.server.valueCodec (inPlay keccak256 chain startAt m₀)
      startAt (.start node startAt) m₀ :=
    ⟨⟨rfl, represents, exact.on apart.1 fun addr stored => .inl stored, rfl⟩,
      fun addr queued => (by cases queued), le_rfl⟩
  refine run_sound laws apart (fun n ahead addr mem => .inr ⟨n, ahead, mem⟩) start ?_ fed truthful spared
  rintro ⟨cause, stopped⟩
  cases stopped

/-- The account gets 5 wei, loses them, and then has a withdrawal of one gwei. -/
def emptiedThenCredited : Chain :=
  ⟨fun _ => 0, fun n =>
    if n = 1 then ⟨[⟨[1], [(1, some 5)]⟩], []⟩
    else if n = 2 then ⟨[⟨[1], [(1, some 0)]⟩], []⟩
    else if n = 3 then ⟨[], [(1, 1)]⟩
    else ⟨[], []⟩⟩

def truthfulProvider : ConfirmSource :=
  ⟨fun _ addr n => some (emptiedThenCredited.balance n addr),
    fun _ addr n => some (emptiedThenCredited.balance n addr)⟩

/-- The first two blocks lie deeper than the provider is asked. -/
def threeFetched : List (Event (referenceTable smallParams)) :=
  [.polled (some 67),
    .fetched (some ⟨⟨1, [(accountKey, 5)], []⟩, [(1, 5)], []⟩) (draw 0) truthfulProvider,
    .fetched (some ⟨⟨2, [(accountKey, 0)], []⟩, [(1, 0)], []⟩) (draw 0) truthfulProvider,
    .fetched (some ⟨⟨3, [], [(accountKey, 10 ^ 9)]⟩, [], [(1, 10 ^ 9)]⟩) (draw 0) truthfulProvider]

private theorem emptied_touched {n : Nat} {addr : Address} (h : addr ∈ emptiedThenCredited.touched n) :
    addr = 1 := by
  simp only [Chain.touched, emptiedThenCredited] at h
  by_cases one : n = 1
  · rw [if_pos one] at h
    exact List.mem_singleton.mp h
  · rw [if_neg one] at h
    by_cases two : n = 2
    · rw [if_pos two] at h
      exact List.mem_singleton.mp h
    · rw [if_neg two] at h
      by_cases three : n = 3
      · rw [if_pos three] at h
        exact List.mem_singleton.mp h
      · rw [if_neg three] at h
        cases h

private theorem emptied_apart : Apart (referenceTable smallParams) nodeAtGenesis.server.valueCodec oneKey
    (inPlay oneKey emptiedThenCredited 0 fun _ => none) := by
  refine apart_of_one 1 fun addr known => ?_
  rcases known with stored | ⟨n, -, mem⟩
  · exact absurd rfl stored
  · exact emptied_touched mem

private theorem emptied_exact : Exact oneKey emptiedThenCredited false 0 fun _ => none :=
  ⟨fun k b h => (by cases h), fun whole => (by cases whole)⟩

private theorem provider_truthful : Truthful emptiedThenCredited truthfulProvider := by
  rintro i addr n v (answer | answer)
  · exact (Option.some.inj answer).symm
  · exact (Option.some.inj answer).symm

/-- The first block alone is deferred. -/
def twoFetched : List (Event (referenceTable smallParams)) :=
  [.polled (some 66),
    .fetched (some ⟨⟨1, [(accountKey, 5)], []⟩, [(1, 5)], []⟩) (draw 0) truthfulProvider,
    .fetched (some ⟨⟨2, [(accountKey, 0)], []⟩, [(1, 0)], []⟩) (draw 0) truthfulProvider]

/-- The emptied account is drained while it is in the block's own change set. -/
theorem never_halts_emptied : ¬ Halted (twoFetched.foldl (FollowLoop.step oneKey ⟨false, 1, 8⟩)
    (.start nodeAtGenesis 0)) := by
  refine never_halts (placementLaws smallParams) oneKey ⟨false, 1, 8⟩ emptiedThenCredited 0 nodeAtGenesis
    (fun _ => none) (smallServer_represents 0) emptied_exact emptied_apart twoFetched
    ⟨trivial, rfl, rfl, trivial⟩ (fun event mem => ?_) ⟨trivial, .inr fun _ i addr queued => ?_,
      .inr fun _ i addr queued _ lost => ?_, trivial⟩
  · simp only [twoFetched, List.mem_cons, List.not_mem_nil, or_false] at mem
    rcases mem with rfl | rfl | rfl
    · trivial
    · exact provider_truthful
    · exact provider_truthful
  · cases List.mem_of_getElem? queued
  · have one : addr = 1 := List.mem_singleton.mp (List.mem_of_getElem? queued)
    exact lost.2.1 (one ▸ List.mem_singleton_self _)

/-- The drained account is stored no more and its credit was dropped: the comparison of nothing with
one gwei halts the loop. -/
theorem dropped_credit_halts :
    Represents (referenceTable smallParams) smallCodec nodeAtGenesis.server.store.cells (fun _ => none) ∧
      Exact oneKey emptiedThenCredited false 0 (fun _ => none) ∧
      Apart (referenceTable smallParams) smallCodec oneKey
        (inPlay oneKey emptiedThenCredited 0 fun _ => none) ∧
      Fed oneKey ⟨false, 1, 8⟩ emptiedThenCredited (.start nodeAtGenesis 0) threeFetched ∧
      (∀ event ∈ threeFetched, TruthfulEvent emptiedThenCredited event) ∧
      (threeFetched.foldl (FollowLoop.step oneKey ⟨false, 1, 8⟩) (.start nodeAtGenesis 0)).stopped =
        some (.reconciled (.mismatch 3 1 0 (10 ^ 9))) := by
  refine ⟨smallServer_represents 0, emptied_exact, emptied_apart, ⟨trivial, rfl, rfl, rfl, trivial⟩,
    fun event mem => ?_, by rfl⟩
  simp only [threeFetched, List.mem_cons, List.not_mem_nil, or_false] at mem
  rcases mem with rfl | rfl | rfl | rfl
  · trivial
  · exact provider_truthful
  · exact provider_truthful
  · exact provider_truthful

end RisePir.Rpc.Checkpoints
