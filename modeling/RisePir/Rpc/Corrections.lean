import RisePir.Rpc.TrueBalances

set_option autoImplicit false
set_option relaxedAutoImplicit false

/-! The hard refresh beside the follow loop. A correction carries the balance of the height at which
the run began; its baseline is what the store holds when the check comes in, which may be newer. -/

namespace RisePir.Rpc.Corrections

open RisePir.Lib.KeyedAmounts
open RisePir.Lib.Sparse
open RisePir.Proto.Types
open RisePir.Proto.Value
open RisePir.Upstream.Cuckoo
open RisePir.Upstream.Pir
open RisePir.Upstream.ReferencePir
open RisePir.Upstream.ReferenceTable
open RisePir.Server.Core
open RisePir.Server.Refinement
open RisePir.Server.Ledger
open RisePir.Server.Small
open RisePir.Http.Node
open RisePir.Http.Serving
open RisePir.Feed.Rpc
open RisePir.Rpc.Front
open RisePir.Rpc.HardRefresh
open RisePir.Rpc.Mainnet
open RisePir.Rpc.TrueBalances

variable {p : CuckooParams} {C : SegmentedCuckoo p} {B : PirBackend}

/-- The task of `run`: the height that every read is made at, the addresses whose checks are still
out, and a correction that is decided and not yet pushed. -/
structure Run where
  height : Nat
  unchecked : List Address
  decided : Option Correction

/-- One address's check comes in: the store is read now, and the outcome decided. A failed read
ends the run. -/
def Run.check (keccak256 : Address → AddressHash) (node : NodeState C B) (r : Run) (addr : Address)
    (results : List (Option Balance)) : Run :=
  match node.server.balanceOf (keccak256 addr) with
  | .error _ => { r with unchecked := [] }
  | .ok current =>
      let r := { r with unchecked := r.unchecked.erase addr }
      match decideCorrection (quorum results) (current.getD 0) with
      | .correct newBalance oldBalance =>
          { r with decided := some ⟨keccak256 addr, newBalance, oldBalance⟩ }
      | _ => r

/-- The follow loop with the task beside it; `none` until the task has read the head. -/
structure Refreshing (C : SegmentedCuckoo p) (B : PirBackend) where
  loop : FollowLoop C B
  run : Option Run

/-- What happens next: an event of the loop, or the task's next step between two awaits. -/
inductive Turn (C : SegmentedCuckoo p)
  | follows (event : Event C)
  | starts
  | checks (addr : Address) (results : List (Option Balance))
  | pushes

/-- One turn, with the addresses of the file. -/
def Refreshing.step (keccak256 : Address → AddressHash) (cfg : FollowConfig) (file : List Address)
    (s : Refreshing C B) : Turn C → Refreshing C B
  | .follows event => { s with loop := s.loop.step keccak256 cfg event }
  | .starts =>
      match s.run with
      | none => { s with run := some ⟨s.loop.node.server.block, file, none⟩ }
      | some _ => s
  | .checks addr results =>
      match s.run with
      | some ⟨height, unchecked, none⟩ =>
          if addr ∈ unchecked then
            { s with run := some (Run.check keccak256 s.loop.node ⟨height, unchecked, none⟩ addr results) }
          else s
      | _ => s
  | .pushes =>
      match s.run with
      | some ⟨height, unchecked, some c⟩ =>
          ⟨s.loop.step keccak256 cfg (.queued [c]), some ⟨height, unchecked, none⟩⟩
      | _ => s

/-- A statement about every turn of a run. -/
def Along (step : Refreshing C B → Turn C → Refreshing C B)
    (P : Refreshing C B → Turn C → Prop) : Refreshing C B → List (Turn C) → Prop
  | _, [] => True
  | s, turn :: turns => P s turn ∧ Along step P (step s turn) turns

/-- Two statements that come to the same at every turn an invariant allows come to the same along a
run. -/
theorem along_iff {step : Refreshing C B → Turn C → Refreshing C B}
    {allowed P Q : Refreshing C B → Turn C → Prop} {invariant : Refreshing C B → Prop}
    (keeps : ∀ s turn, invariant s → allowed s turn → invariant (step s turn))
    (same : ∀ s turn, invariant s → allowed s turn → (P s turn ↔ Q s turn))
    {s : Refreshing C B} {turns : List (Turn C)} (start : invariant s)
    (run : Along step allowed s turns) : Along step P s turns ↔ Along step Q s turns := by
  induction turns generalizing s with
  | nil => exact Iff.rfl
  | cons turn turns ih =>
      obtain ⟨now, later⟩ := run
      exact and_congr (same s turn start now) (ih (keeps s turn start now) later)

section Statement

variable (keccak256 : Address → AddressHash) (cfg : FollowConfig) (chain : Chain)
  (file : List Address)

/-- The feed is exact, and a provider that answers answers the true balance at the run's height. -/
def Honest (s : Refreshing C B) : Turn C → Prop
  | .follows event => FedEvent keccak256 chain s.loop event
  | .checks addr results =>
      ∀ r, s.run = some r → ∀ v, some v ∈ results → v = chain.balance r.height addr
  | _ => True

/-- The corrections that ride a fetched block, if it is applied. -/
def riding (rng : C.Rng) (l : FollowLoop C B) (block : FetchedBlock) : List Correction :=
  if l.stopped.isNone ∧ l.last < l.finalized ∧ (l.applyFetched cfg rng block.update).2.isSome then
    (filterStaleCorrections l.node (l.corrections.take MAX_CORRECTIONS_PER_BLOCK)).toOption.getD []
  else []

/-- Every account whose correction rides a block has its true balance behind that block. -/
def RightBehind (s : Refreshing C B) : Turn C → Prop
  | .follows (.fetched (some block) rng confirm) =>
      ∀ c ∈ riding cfg rng s.loop block, ∀ addr ∈ file, keccak256 addr = c.key → ∃ v,
        (s.loop.step keccak256 cfg (.fetched (some block) rng confirm)).node.server.balanceOf
          c.key = .ok v ∧ v.getD 0 = chain.balance (s.loop.last + 1) addr
  | _ => True

/-- The block behind `n` changes the account itself, or finds it where it was at `height` and pays
it no credit that partial mode drops (or these two differences cancel). -/
def Unmoved (height n : Nat) (held : Bool) (addr : Address) : Prop :=
  addr ∈ named (chain.block (n + 1)).posted ∨
    chain.balance height addr +
        (if cfg.complete ∨ held then total (chain.block (n + 1)).credits addr else 0) =
      chain.balance n addr + total (chain.block (n + 1)).credits addr

/-- Every account whose correction rides a block is unmoved; it is held if the store has an entry
for it before the block. -/
def UnmovedBefore (s : Refreshing C B) : Turn C → Prop
  | .follows (.fetched (some block) rng _) =>
      ∀ c ∈ riding cfg rng s.loop block, ∀ addr ∈ file, keccak256 addr = c.key →
        ∀ r, s.run = some r → Unmoved cfg chain r.height s.loop.last
          (decide (s.loop.node.server.balanceOf c.key ≠ .ok none)) addr
  | _ => True

/-- The accounts that the file or a later block names. -/
def concerned (startAt : Nat) : Set Address :=
  {addr | addr ∈ file ∨ ∃ n, startAt < n ∧ addr ∈ chain.touched n}

end Statement

variable {keccak256 : Address → AddressHash} {cfg : FollowConfig} {chain : Chain}
  {file : List Address} {codec : ValueCodec} {accounts : Set Address} {keys : Set AddressHash}
  {l : FollowLoop C B} {m : Balances}

/-- A correction that the run decided: an account of the file, at its balance at the height. -/
def FromRun (keccak256 : Address → AddressHash) (chain : Chain) (file : List Address) (height : Nat)
    (c : Correction) : Prop :=
  ∃ addr ∈ file, c.key = keccak256 addr ∧ c.balance = chain.balance height addr

variable (keccak256) in
theorem Run.check_spec (node : NodeState C B) (r : Run) {addr : Address}
    {results : List (Option Balance)} (known : addr ∈ file) (none_decided : r.decided = none)
    (honest : ∀ v, some v ∈ results → v = chain.balance r.height addr) :
    (r.check keccak256 node addr results).height = r.height ∧
      (r.check keccak256 node addr results).unchecked ⊆ r.unchecked ∧
      ∀ c, (r.check keccak256 node addr results).decided = some c →
        FromRun keccak256 chain file r.height c := by
  have nothing : ∀ c, r.decided = some c → FromRun keccak256 chain file r.height c := by
    intro c h
    rw [none_decided] at h
    cases h
  rw [Run.check]
  cases node.server.balanceOf (keccak256 addr) with
  | error e => exact ⟨rfl, List.nil_subset _, nothing⟩
  | ok current =>
      dsimp only
      cases decision : decideCorrection (quorum results) (current.getD 0) with
      | correct newBalance oldBalance =>
          refine ⟨rfl, List.erase_subset, ?_⟩
          rintro c ⟨rfl⟩
          exact ⟨addr, known, rfl, honest _ (decideCorrection_correct decision).1⟩
      | skipped => exact ⟨rfl, List.erase_subset, nothing⟩
      | skippedDisagreement => exact ⟨rfl, List.erase_subset, nothing⟩
      | alreadyCorrect => exact ⟨rfl, List.erase_subset, nothing⟩

section Block

/-- The loop's store stands for a map whose live keys are known. -/
structure Stands (codec : ValueCodec) (keys : Set AddressHash) (l : FollowLoop C B) (m : Balances) :
    Prop where
  sameCodec : l.node.server.valueCodec = codec
  represents : Represents C codec l.node.server.store.cells m
  live : ∀ k, m k ≠ none → k ∈ keys

theorem Stands.read (laws : C.PlacementLaws) (separated : Separated C codec keys)
    (h : Stands codec keys l m) {k : AddressHash} (known : k ∈ keys) :
    l.node.server.balanceOf k = .ok (m k) := by
  apply balanceOf_eq laws (h.sameCodec ▸ h.represents)
  rw [h.sameCodec]
  exact separated.clear h.live known

/-- Whether the filter keeps an account's credits of the next block. -/
def keeps (keccak256 : Address → AddressHash) (cfg : FollowConfig) (chain : Chain) (n : Nat)
    (m : Balances) (k : AddressHash) : Bool :=
  cfg.complete || (decide (k ∈ named (hashed keccak256 (changesFromTrace (chain.block (n + 1)).trace))) ||
    (m k).isSome)

/-- What a fetched block comes to: the loop stops, or the block and the corrections that still stand
are applied. -/
inductive Fetches (keccak256 : Address → AddressHash) (cfg : FollowConfig) (chain : Chain)
    (codec : ValueCodec) (keys : Set AddressHash) (l : FollowLoop C B) (m : Balances) :
    FollowLoop C B × Option BlockDelta → Prop
  | stops {l' : FollowLoop C B} (stopped : l'.stopped.isSome) (last : l'.last = l.last)
      (queue : l'.corrections ⊆ l.corrections) :
      Fetches keccak256 cfg chain codec keys l m (l', none)
  | applies {node : NodeState C B} {delta : BlockDelta} {valid : List Correction}
      {base : BlockUpdate}
      (stand : filterStaleCorrections l.node (l.corrections.take MAX_CORRECTIONS_PER_BLOCK) =
        .ok valid)
      (next : NextUpdate keccak256 chain l.last (keeps keccak256 cfg chain l.last m) base)
      (after : Stands codec keys { l with node, last := l.last + 1, corrections := l.corrections.drop MAX_CORRECTIONS_PER_BLOCK }
        (ledgerBlock m { base with changes := prependCorrections valid base.changes })) :
      Fetches keccak256 cfg chain codec keys l m
        ({ l with node, last := l.last + 1, corrections := l.corrections.drop MAX_CORRECTIONS_PER_BLOCK }, some delta)

theorem applyFetched_fetches (laws : C.PlacementLaws) (separated : Separated C codec keys)
    (touched : ∀ addr ∈ chain.touched (l.last + 1), keccak256 addr ∈ keys)
    (h : Stands codec keys l m) (queued : ∀ c ∈ l.corrections, c.key ∈ keys)
    {fetched : FetchedBlock}
    (fed : blockUpdate keccak256 (l.last + 1) (chain.block (l.last + 1)) = .ok fetched)
    (rng : C.Rng) :
    Fetches keccak256 cfg chain codec keys l m (l.applyFetched cfg rng fetched.update) := by
  obtain rfl := blockUpdate_ok fed
  have changed : ∀ k ∈ named (hashed keccak256 (changesFromTrace (chain.block (l.last + 1)).trace)),
      k ∈ keys := by
    intro k hk
    obtain ⟨e, he, rfl⟩ := mem_named_hashed.mp hk
    exact touched e.1 (List.mem_append_left _ (mem_changesFromTrace.mp (List.mem_map_of_mem he)))
  have credited : ∀ k ∈ named (hashed keccak256 (chain.block (l.last + 1)).credits), k ∈ keys := by
    intro k hk
    obtain ⟨e, he, rfl⟩ := mem_named_hashed.mp hk
    exact touched e.1 (List.mem_append_right _ (List.mem_map_of_mem he))
  have read : ∀ e ∈ hashed keccak256 (chain.block (l.last + 1)).credits,
      l.node.server.balanceOf e.1 = .ok (m e.1) := fun e he =>
    h.read laws separated (credited e.1 (List.mem_map_of_mem he))
  rw [FollowLoop.applyFetched, if_neg (not_not.mpr rfl), filterCredits_eq read]
  dsimp only
  rw [FollowLoop.applyCorrected]
  dsimp only
  cases stand : filterStaleCorrections l.node (l.corrections.take MAX_CORRECTIONS_PER_BLOCK) with
  | error e => exact .stops rfl rfl (List.drop_subset _ _)
  | ok valid =>
      dsimp only
      generalize hupdate :
        (⟨l.last + 1, prependCorrections valid _, _⟩ : BlockUpdate) = update
      obtain ⟨base, next, rfl⟩ : ∃ base,
          NextUpdate keccak256 chain l.last (keeps keccak256 cfg chain l.last m) base ∧
            update = { base with changes := prependCorrections valid base.changes } :=
        ⟨⟨l.last + 1, _, _⟩, ⟨rfl, rfl⟩, hupdate.symm⟩
      have inPlay : ∀ k ∈ InPlay m { base with changes := prependCorrections valid base.changes },
          k ∈ keys := by
        rintro k (live | change | credit)
        · exact h.live k live
        · rw [prependCorrections, named, List.map_append, List.mem_append, List.map_map] at change
          rcases change with corrected | change
          · obtain ⟨c, hc, rfl⟩ := List.mem_map.mp corrected
            exact queued c (List.take_subset _ _ (filterStale_subset stand hc))
          · exact changed k (next.changes ▸ change)
        · rw [next.credits] at credit
          obtain ⟨e, he, rfl⟩ := List.mem_map.mp credit
          exact credited e.1 (List.mem_map_of_mem (List.mem_filter.mp he).1)
      cases hr : l.node.applyBlockReporting rng
          { base with changes := prependCorrections valid base.changes } with
      | mk node r =>
          cases r with
          | error e => exact .stops rfl rfl (List.drop_subset _ _)
          | ok out =>
              have apart : Separated C l.node.server.valueCodec
                  (InPlay m { base with changes := prependCorrections valid base.changes }) := by
                rw [h.sameCodec]
                exact separated.mono inPlay
              obtain ⟨sameCodec, represents⟩ := apply_represents laws
                (h.sameCodec.symm ▸ h.represents) apart (apply_server hr)
              refine .applies stand next ⟨sameCodec.trans h.sameCodec, ?_, ?_⟩
              · rw [← h.sameCodec]
                exact represents
              · exact fun k live => inPlay k (ledgerBlock_live live)

/-- What a corrected account holds behind the block: what the block writes, or the corrected balance,
and the credits that are kept. -/
theorem corrected_amount (inj : accounts.InjOn keccak256)
    (touched : ∀ addr ∈ chain.touched (l.last + 1), addr ∈ accounts) {base : BlockUpdate}
    (next : NextUpdate keccak256 chain l.last (keeps keccak256 cfg chain l.last m) base)
    {valid : List Correction} {height : Nat}
    (fromRun : ∀ c ∈ valid, FromRun keccak256 chain file height c)
    (listed : ∀ addr ∈ file, addr ∈ accounts) {c : Correction} (hc : c ∈ valid) {addr : Address}
    (known : addr ∈ file) (same : keccak256 addr = c.key) :
    amount (ledgerBlock m { base with changes := prependCorrections valid base.changes }) c.key =
      (lastWrite (chain.block (l.last + 1)).posted addr).getD (chain.balance height addr) +
        if keeps keccak256 cfg chain l.last m c.key then
          total (chain.block (l.last + 1)).credits addr else 0 := by
  have corrected : lastWrite (valid.map fun c => (c.key, c.balance)) c.key =
      some (chain.balance height addr) := by
    apply lastWrite_of_forall
    · exact List.mem_map_of_mem (List.mem_map_of_mem (f := fun c => (c.key, c.balance)) hc)
    · rintro e he key
      obtain ⟨c', hc', rfl⟩ := List.mem_map.mp he
      obtain ⟨addr', known', key', balance⟩ := fromRun c' hc'
      have key : c'.key = c.key := key
      have one : addr' = addr := by
        apply inj (listed addr' known') (listed addr known)
        rw [← key', key, same]
      rw [← one]
      exact balance
  rw [amount_ledgerBlock, ← same]
  dsimp only
  rw [next.sum inj touched (listed addr known), prependCorrections, lastWrite_append,
    next.last inj touched (listed addr known), same, corrected]
  cases lastWrite (chain.block (l.last + 1)).posted addr <;> rfl

/-- That is the true balance exactly when the account is unmoved. -/
theorem corrected_right_iff {height : Nat} {addr : Address} {k : AddressHash} {held : Bool}
    (posted : k ∈ named (hashed keccak256 (changesFromTrace (chain.block (l.last + 1)).trace)) ↔
      addr ∈ named (chain.block (l.last + 1)).posted) (entry : held = (m k).isSome) :
    (lastWrite (chain.block (l.last + 1)).posted addr).getD (chain.balance height addr) +
        (if keeps keccak256 cfg chain l.last m k then total (chain.block (l.last + 1)).credits addr
          else 0) = chain.balance (l.last + 1) addr ↔
      Unmoved cfg chain height l.last held addr := by
  rw [Unmoved, Chain.balance]
  by_cases mem : addr ∈ named (chain.block (l.last + 1)).posted
  · have kept : keeps keccak256 cfg chain l.last m k = true := by
      simp [keeps, posted.mpr mem]
    obtain ⟨v, hv⟩ := Option.ne_none_iff_exists'.mp (mt lastWrite_eq_none.mp (not_not.mpr mem))
    rw [if_pos kept, hv]
    exact iff_of_true rfl (.inl mem)
  · have kept : keeps keccak256 cfg chain l.last m k = (cfg.complete || held) := by
      simp [keeps, mt posted.mp mem, entry]
    simp only [kept, lastWrite_eq_none.mpr mem, or_iff_right mem, Bool.or_eq_true, Option.getD_none]

end Block

section Runs

variable {startAt : Nat} {s : Refreshing C B} {turn : Turn C}

/-- What holds between two turns: while the loop runs its store stands for a map, and every pending
correction is the run's. -/
structure Pending (keccak256 : Address → AddressHash) (chain : Chain) (file : List Address)
    (codec : ValueCodec) (keys : Set AddressHash) (startAt : Nat) (s : Refreshing C B) : Prop where
  stands : s.loop.stopped = none → ∃ m, Stands codec keys s.loop m
  ahead : startAt ≤ s.loop.last
  queued : ∀ c ∈ s.loop.corrections, ∃ r, s.run = some r ∧ FromRun keccak256 chain file r.height c
  decided : ∀ r, s.run = some r → ∀ c, r.decided = some c → FromRun keccak256 chain file r.height c
  unchecked : ∀ r, s.run = some r → ∀ addr ∈ r.unchecked, addr ∈ file

/-- A loop that has only moved on and taken from the queue. -/
theorem Pending.moves {l' : FollowLoop C B}
    (h : Pending keccak256 chain file codec keys startAt s)
    (stands : l'.stopped = none → ∃ m, Stands codec keys l' m) (ahead : s.loop.last ≤ l'.last)
    (queue : l'.corrections ⊆ s.loop.corrections) :
    Pending keccak256 chain file codec keys startAt { s with loop := l' } :=
  ⟨stands, le_trans h.ahead ahead, fun c hc => h.queued c (queue hc), h.decided, h.unchecked⟩

variable (cfg) in
theorem Pending.fetches (laws : C.PlacementLaws) (separated : Separated C codec keys)
    (known : ∀ addr ∈ concerned chain file startAt, keccak256 addr ∈ keys)
    (h : Pending keccak256 chain file codec keys startAt s) (running : s.loop.stopped = none)
    {block : FetchedBlock}
    (fed : blockUpdate keccak256 (s.loop.last + 1) (chain.block (s.loop.last + 1)) = .ok block)
    (rng : C.Rng) : ∃ m, Stands codec keys s.loop m ∧
      Fetches keccak256 cfg chain codec keys s.loop m (s.loop.applyFetched cfg rng block.update) := by
  obtain ⟨m, stands⟩ := h.stands running
  refine ⟨m, stands, applyFetched_fetches laws separated ?_ stands ?_ fed rng⟩
  · intro addr touched
    exact known addr (.inr ⟨_, Nat.lt_succ_of_le h.ahead, touched⟩)
  · intro c hc
    obtain ⟨r, -, addr, listed, key, -⟩ := h.queued c hc
    rw [key]
    exact known addr (.inl listed)

theorem Pending.step_fetched (laws : C.PlacementLaws) (separated : Separated C codec keys)
    (known : ∀ addr ∈ concerned chain file startAt, keccak256 addr ∈ keys)
    (h : Pending keccak256 chain file codec keys startAt s) {block : FetchedBlock}
    (fed : blockUpdate keccak256 (s.loop.last + 1) (chain.block (s.loop.last + 1)) = .ok block)
    (rng : C.Rng) (confirm : ConfirmSource) :
    Pending keccak256 chain file codec keys startAt
      { s with loop := s.loop.step keccak256 cfg (.fetched (some block) rng confirm) } := by
  rw [FollowLoop.step]
  by_cases running : s.loop.stopped.isNone ∧ s.loop.last < s.loop.finalized
  · rw [if_pos running, FollowLoop.follow]
    obtain ⟨m, -, fetches⟩ :=
      h.fetches cfg laws separated known (Option.isNone_iff_eq_none.mp running.1) fed rng
    cases outcome : s.loop.applyFetched cfg rng block.update with
    | mk l' delta =>
        rw [outcome] at fetches
        cases fetches with
        | stops stopped last queue =>
            refine h.moves (fun none => ?_) (le_of_eq last.symm) queue
            rw [none] at stopped
            cases stopped
        | applies stand next after =>
            dsimp only
            obtain ⟨reservoir, stopped, same⟩ :=
              checkpoint_keeps keccak256 cfg confirm _ block.changed block.credited
            rw [same]
            exact h.moves (fun _ => ⟨_, after.sameCodec, after.represents, after.live⟩)
              (Nat.le_succ _) (List.drop_subset _ _)
  · rw [if_neg running]
    exact h

theorem Pending.step (laws : C.PlacementLaws) (separated : Separated C codec keys)
    (known : ∀ addr ∈ concerned chain file startAt, keccak256 addr ∈ keys)
    (h : Pending keccak256 chain file codec keys startAt s)
    (honest : Honest keccak256 chain s turn) :
    Pending keccak256 chain file codec keys startAt (s.step keccak256 cfg file turn) := by
  cases turn with
  | follows event =>
      cases event with
      | queued corrections => exact honest.elim
      | polled finalized =>
          cases finalized with
          | none => exact h
          | some finalized =>
              rw [Refreshing.step, FollowLoop.step]
              split
              · exact h
              · refine h.moves (fun running => ?_) le_rfl (List.Subset.refl _)
                obtain ⟨m, stands⟩ := h.stands running
                exact ⟨m, stands.sameCodec, stands.represents, stands.live⟩
      | fetched block rng confirm =>
          cases block with
          | none => exact h
          | some block => exact h.step_fetched laws separated known honest rng confirm
  | starts =>
      cases run : s.run with
      | some r =>
          rw [Refreshing.step, run]
          exact h
      | none =>
          rw [Refreshing.step, run]
          refine ⟨h.stands, h.ahead, fun c hc => ?_, ?_, ?_⟩
          · obtain ⟨r, begun, -⟩ := h.queued c hc
            rw [run] at begun
            cases begun
          · rintro r ⟨rfl⟩ c decided
            cases decided
          · rintro r ⟨rfl⟩ addr listed
            exact listed
  | checks addr results =>
      obtain ⟨loop, run⟩ := s
      cases run with
      | none => exact h
      | some r =>
          obtain ⟨height, unchecked, decided⟩ := r
          cases decided with
          | some c => exact h
          | none =>
              rw [Refreshing.step]
              dsimp only
              split
              · rename_i listed
                obtain ⟨sameHeight, fewer, fromRun⟩ := Run.check_spec keccak256 loop.node
                  ⟨height, unchecked, none⟩ (h.unchecked _ rfl addr listed) rfl (honest _ rfl)
                refine ⟨h.stands, h.ahead, fun c hc => ?_, ?_, ?_⟩
                · obtain ⟨r, begun, hfrom⟩ := h.queued c hc
                  cases Option.some.inj begun
                  exact ⟨_, rfl, sameHeight.symm ▸ hfrom⟩
                · rintro r ⟨rfl⟩ c hc
                  rw [sameHeight]
                  exact fromRun c hc
                · rintro r ⟨rfl⟩ addr' listed'
                  exact h.unchecked _ rfl addr' (fewer listed')
              · exact h
  | pushes =>
      obtain ⟨loop, run⟩ := s
      cases run with
      | none => exact h
      | some r =>
          obtain ⟨height, unchecked, decided⟩ := r
          cases decided with
          | none => exact h
          | some c =>
              rw [Refreshing.step]
              dsimp only
              rw [FollowLoop.step]
              refine ⟨fun running => ?_, h.ahead, fun c' hc => ?_, ?_, ?_⟩
              · obtain ⟨m, stands⟩ := h.stands running
                exact ⟨m, stands.sameCodec, stands.represents, stands.live⟩
              · rcases List.mem_append.mp hc with earlier | last
                · obtain ⟨r, begun, hfrom⟩ := h.queued c' earlier
                  cases Option.some.inj begun
                  exact ⟨_, rfl, hfrom⟩
                · rw [List.mem_singleton.mp last]
                  exact ⟨_, rfl, h.decided _ rfl c rfl⟩
              · rintro r ⟨rfl⟩ c' hc
                cases hc
              · rintro r ⟨rfl⟩ addr listed
                exact h.unchecked _ rfl addr listed

theorem Pending.begun (h : Pending keccak256 chain file codec keys startAt s) {rng : C.Rng}
    {block : FetchedBlock} {c : Correction} (rides : c ∈ riding cfg rng s.loop block) :
    ∃ r, s.run = some r := by
  rw [riding] at rides
  split_ifs at rides
  · cases stand : filterStaleCorrections s.loop.node
        (s.loop.corrections.take MAX_CORRECTIONS_PER_BLOCK) with
    | error e =>
        rw [stand] at rides
        cases rides
    | ok valid =>
        rw [stand] at rides
        obtain ⟨r, begun, -⟩ := h.queued c (List.take_subset _ _ (filterStale_subset stand rides))
        exact ⟨r, begun⟩
  · cases rides

/-- At a block of the chain, what rides it is right behind it exactly when it is unmoved before. -/
theorem Pending.fetched_iff (laws : C.PlacementLaws) (separated : Separated C codec keys)
    (known : ∀ addr ∈ concerned chain file startAt, keccak256 addr ∈ keys)
    (inj : (concerned chain file startAt).InjOn keccak256)
    (h : Pending keccak256 chain file codec keys startAt s) {block : FetchedBlock}
    (fed : blockUpdate keccak256 (s.loop.last + 1) (chain.block (s.loop.last + 1)) = .ok block)
    {rng : C.Rng} {confirm : ConfirmSource} {c : Correction} (rides : c ∈ riding cfg rng s.loop block)
    {addr : Address} (listed : addr ∈ file) (same : keccak256 addr = c.key) {r : Run}
    (begun : s.run = some r) :
    (∃ v, (s.loop.step keccak256 cfg (.fetched (some block) rng confirm)).node.server.balanceOf
        c.key = .ok v ∧ v.getD 0 = chain.balance (s.loop.last + 1) addr) ↔
      Unmoved cfg chain r.height s.loop.last
        (decide (s.loop.node.server.balanceOf c.key ≠ .ok none)) addr := by
  have touched : ∀ addr ∈ chain.touched (s.loop.last + 1), addr ∈ concerned chain file startAt :=
    fun addr mem => .inr ⟨_, Nat.lt_succ_of_le h.ahead, mem⟩
  have inFile : ∀ addr ∈ file, addr ∈ concerned chain file startAt := fun addr mem => .inl mem
  rw [riding] at rides
  split_ifs at rides with applied
  · obtain ⟨running, behind, delta⟩ := applied
    obtain ⟨m, stands, fetches⟩ :=
      h.fetches cfg laws separated known (Option.isNone_iff_eq_none.mp running) fed rng
    rw [FollowLoop.step, if_pos ⟨running, behind⟩, FollowLoop.follow]
    have key : c.key ∈ keys := same ▸ known addr (inFile addr listed)
    have before := stands.read laws separated key
    cases outcome : s.loop.applyFetched cfg rng block.update with
    | mk l' out =>
        rw [outcome] at fetches delta
        cases fetches with
        | stops stopped last queue => cases delta
        | @applies node delta valid base stand next after =>
            dsimp only
            obtain ⟨reservoir, stopped, kept⟩ :=
              checkpoint_keeps keccak256 cfg confirm _ block.changed block.credited
            rw [kept]
            rw [stand] at rides
            have fromRun : ∀ c ∈ valid, FromRun keccak256 chain file r.height c := by
              intro c' hc'
              obtain ⟨r', begun', hfrom⟩ :=
                h.queued c' (List.take_subset _ _ (filterStale_subset stand hc'))
              rw [begun] at begun'
              cases Option.some.inj begun'
              exact hfrom
            have holds := corrected_amount inj touched next fromRun inFile rides listed same
            have reads : node.server.balanceOf c.key = _ := after.read laws separated key
            have posted : c.key ∈ named (hashed keccak256
                (changesFromTrace (chain.block (s.loop.last + 1)).trace)) ↔
                  addr ∈ named (chain.block (s.loop.last + 1)).posted := by
              rw [← not_iff_not, ← lastWrite_eq_none, ← lastWrite_eq_none, ← next.changes, ← same,
                next.last inj touched (inFile addr listed)]
            have entry : decide (s.loop.node.server.balanceOf c.key ≠ .ok none) =
                (m c.key).isSome := by
              rw [before]
              cases m c.key <;> simp
            rw [← corrected_right_iff posted entry, ← holds]
            constructor
            · rintro ⟨v, read, right⟩
              have read : node.server.balanceOf c.key = .ok v := read
              rw [reads] at read
              cases Except.ok.inj read
              exact right
            · intro right
              exact ⟨_, reads, right⟩
  · cases rides

theorem Pending.right_iff (laws : C.PlacementLaws) (separated : Separated C codec keys)
    (known : ∀ addr ∈ concerned chain file startAt, keccak256 addr ∈ keys)
    (inj : (concerned chain file startAt).InjOn keccak256)
    (h : Pending keccak256 chain file codec keys startAt s)
    (honest : Honest keccak256 chain s turn) :
    RightBehind keccak256 cfg chain file s turn ↔ UnmovedBefore keccak256 cfg chain file s turn := by
  cases turn with
  | starts => exact Iff.rfl
  | checks addr results => exact Iff.rfl
  | pushes => exact Iff.rfl
  | follows event =>
      cases event with
      | polled finalized => exact Iff.rfl
      | queued corrections => exact Iff.rfl
      | fetched block rng confirm =>
          cases block with
          | none => exact Iff.rfl
          | some block =>
              constructor
              · intro right c rides addr listed same r begun
                exact (h.fetched_iff laws separated known inj honest rides listed same begun).mp
                  (right c rides addr listed same)
              · intro unmoved c rides addr listed same
                obtain ⟨r, begun⟩ := h.begun rides
                exact (h.fetched_iff laws separated known inj honest rides listed same begun).mpr
                  (unmoved c rides addr listed same r begun)

end Runs

/-- Beside an exact feed and honest providers: along every run of the loop and the hard refresh,
every account is true behind each block that a correction of it rides, exactly when before each
such block the account is still where it was at the run's height, or the block changes it itself. -/
theorem hard_refresh_exact_iff (laws : C.PlacementLaws) (keccak256 : Address → AddressHash)
    (cfg : FollowConfig) (chain : Chain) (file : List Address) (startAt : Nat) (node : NodeState C B)
    (m₀ : Balances)
    (represents : Represents C node.server.valueCodec node.server.store.cells m₀)
    (inj : (concerned chain file startAt).InjOn keccak256)
    (separated : Separated C node.server.valueCodec
      ({k | m₀ k ≠ none} ∪ keccak256 '' concerned chain file startAt))
    (turns : List (Turn C))
    (honest : Along (Refreshing.step keccak256 cfg file) (Honest keccak256 chain)
      ⟨.start node startAt, none⟩ turns) :
    Along (Refreshing.step keccak256 cfg file) (RightBehind keccak256 cfg chain file)
        ⟨.start node startAt, none⟩ turns ↔
      Along (Refreshing.step keccak256 cfg file) (UnmovedBefore keccak256 cfg chain file)
        ⟨.start node startAt, none⟩ turns := by
  have known : ∀ addr ∈ concerned chain file startAt,
      keccak256 addr ∈ {k | m₀ k ≠ none} ∪ keccak256 '' concerned chain file startAt :=
    fun addr mem => .inr ⟨addr, mem, rfl⟩
  have start : Pending keccak256 chain file node.server.valueCodec
      ({k | m₀ k ≠ none} ∪ keccak256 '' concerned chain file startAt) startAt
      (⟨.start node startAt, none⟩ : Refreshing C B) := by
    refine ⟨fun _ => ⟨m₀, rfl, represents, fun k live => .inl live⟩, le_rfl, ?_, ?_, ?_⟩
    · intro c hc
      cases hc
    · intro r begun
      cases begun
    · intro r begun
      cases begun
  exact along_iff (fun s turn h now => h.step laws separated known now)
    (fun s turn h now => h.right_iff laws separated known inj now) start honest

section Small

private abbrev SmallTurns : Type := List (Turn (referenceTable smallParams))

private def mute : ConfirmSource := ⟨fun _ _ _ => none, fun _ _ _ => none⟩

/-- The account's balance is five, and changes to seven in block 2. -/
private def risen : Chain :=
  ⟨fun _ => 5, fun n => if n = 2 then ⟨[⟨[1], [(1, some 7)]⟩], []⟩ else ⟨[], []⟩⟩

private theorem risen_concerned {startAt : Nat} {addr : Address}
    (h : addr ∈ concerned risen [1] startAt) : addr = 1 := by
  rcases h with listed | ⟨n, -, touched⟩
  · exact List.mem_singleton.mp listed
  · simp only [Chain.touched, risen] at touched
    by_cases two : n = 2
    · rw [if_pos two] at touched
      exact List.mem_singleton.mp touched
    · rw [if_neg two] at touched
      cases touched

private def emptyFetched (n : Nat) (rng : (referenceTable smallParams).Rng) :
    Event (referenceTable smallParams) := .fetched (some ⟨⟨n, [], []⟩, [], []⟩) rng mute

/-- An account that the store has lost is found and put back. -/
private def healing : SmallTurns :=
  [.starts, .checks 1 [some 5, some 5], .pushes, .follows (.polled (some 1)),
    .follows (emptyFetched 1 (draw 0))]

/-- The run begins at block 0; the check comes in behind block 2. -/
private def overtaken : SmallTurns :=
  [.follows (.polled (some 3)), .starts, .follows (emptyFetched 1 (draw 0)),
    .follows (.fetched (some ⟨⟨2, [(accountKey, 7)], []⟩, [(1, 7)], []⟩) (draw 0) mute),
    .checks 1 [some 5, some 5], .pushes, .follows (emptyFetched 3 (draw 0))]

private abbrev turned : Refreshing (referenceTable smallParams) referencePir →
    Turn (referenceTable smallParams) → Refreshing (referenceTable smallParams) referencePir :=
  Refreshing.step oneKey ⟨true, 0, 0⟩ [1]

private abbrev begins : Refreshing (referenceTable smallParams) referencePir :=
  ⟨.start nodeAtGenesis 0, none⟩

private theorem answers_five {results : List (Option Balance)} (same : ∀ v, some v ∈ results → v = 5)
    {s : Refreshing (referenceTable smallParams) referencePir} (height : ∀ r, s.run = some r → r.height = 0) :
    ∀ r, s.run = some r → ∀ v, some v ∈ results → v = risen.balance r.height 1 := by
  intro r begun v answered
  rw [height r begun, same v answered]
  rfl

private theorem both_five : ∀ v, some v ∈ [some 5, some 5] → v = 5 := by simp

/-- An account that the store had lost has its true balance again. -/
theorem hard_refresh_exact_iff_healing :
    Along turned (RightBehind oneKey ⟨true, 0, 0⟩ risen [1]) begins healing := by
  refine (hard_refresh_exact_iff (placementLaws smallParams) oneKey ⟨true, 0, 0⟩ risen [1] 0
    nodeAtGenesis (fun _ => none) (smallServer_represents 0) ?_ ?_ healing ?_).mpr ?_
  · exact (@apart_of_one _ (referenceTable smallParams) smallCodec _ _ 1
      fun addr => risen_concerned).1
  · refine separated_of_list (l := [accountKey]) ?_ (by decide)
    rintro k (stored | ⟨addr, -, rfl⟩)
    · exact absurd rfl stored
    · exact List.mem_singleton.mpr rfl
  · exact ⟨trivial, answers_five both_five (by rintro r ⟨rfl⟩; rfl), trivial, trivial, rfl, trivial⟩
  · refine ⟨trivial, trivial, trivial, trivial, ?_, trivial⟩
    intro c _ addr listed _ r begun
    have height : r.height = 0 := by
      have run : ((healing.take 4).foldl turned begins).run.map Run.height = some 0 := by
        decide +kernel
      rw [show ((healing.take 4).foldl turned begins).run = some r from begun] at run
      exact Option.some.inj run
    rw [List.mem_singleton.mp listed, height]
    exact .inr rfl

/-- The feed and the providers are right throughout. The store follows the account to seven; the
correction that came in behind it puts the older five back. -/
theorem older_balance_restored :
    Along turned (Honest oneKey risen) begins overtaken ∧
      ((overtaken.take 6).foldl turned begins).loop.node.server.balanceOf accountKey =
        .ok (some 7) ∧
      risen.balance 3 1 = 7 ∧
      (overtaken.foldl turned begins).loop.node.server.balanceOf accountKey = .ok (some 5) ∧
      ¬ Along turned (RightBehind oneKey ⟨true, 0, 0⟩ risen [1]) begins overtaken := by
  have now : (overtaken.foldl turned begins).loop.node.server.balanceOf accountKey =
      .ok (some 5) := by decide +kernel
  have rides : (riding ⟨true, 0, 0⟩ (draw 0) ((overtaken.take 6).foldl turned begins).loop
      ⟨⟨3, [], []⟩, [], []⟩) = [⟨accountKey, 5, 7⟩] := by decide +kernel
  refine ⟨⟨trivial, trivial, rfl, rfl, answers_five both_five ?_, trivial, rfl, trivial⟩,
    by decide +kernel, rfl, now, ?_⟩
  · intro r begun
    have run : ((overtaken.take 4).foldl turned begins).run.map Run.height = some 0 := by
      decide +kernel
    rw [show ((overtaken.take 4).foldl turned begins).run = some r from begun] at run
    exact Option.some.inj run
  · rintro ⟨-, -, -, -, -, -, right, -⟩
    obtain ⟨v, read, true_balance⟩ := right ⟨accountKey, 5, 7⟩ (rides ▸ List.mem_singleton.mpr rfl) 1
      (List.mem_singleton.mpr rfl) rfl
    have last : ((overtaken.take 6).foldl turned begins).loop.last = 2 := by decide +kernel
    have read : (overtaken.foldl turned begins).loop.node.server.balanceOf accountKey = .ok v := read
    rw [now] at read
    obtain rfl := Except.ok.inj read
    have true_balance : 5 = risen.balance
        (((overtaken.take 6).foldl turned begins).loop.last + 1) 1 := true_balance
    rw [last] at true_balance
    exact absurd true_balance (by decide)

end Small

end RisePir.Rpc.Corrections
