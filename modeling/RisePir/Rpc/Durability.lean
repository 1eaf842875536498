import RisePir.Rpc.Recovery
import RisePir.Rpc.TrueBalances

set_option autoImplicit false
set_option relaxedAutoImplicit false

/-! What the disk stands for while a deployment runs: a state file of a server it has been live with,
beside it nothing, the journal of an older base or its own up to some byte, and a saver whose writer
stands at the end of that journal. The loop's steps keep it. -/

namespace RisePir.Rpc.Durability

open RisePir.Lib.Digits
open RisePir.Proto.Codec
open RisePir.Proto.Types
open RisePir.Proto.Value
open RisePir.Upstream.Cuckoo
open RisePir.Upstream.Pir
open RisePir.Server.Core
open RisePir.Server.Run
open RisePir.Server.Telescope
open RisePir.Http.Node
open RisePir.Http.Serving
open RisePir.Http.SetupWindow
open RisePir.Feed.Rpc
open RisePir.Rpc.Autosave
open RisePir.Rpc.Journal
open RisePir.Rpc.Mainnet
open RisePir.Rpc.Recovery
open RisePir.Rpc.Replay
open RisePir.Rpc.Restore
open RisePir.Rpc.State
open RisePir.Rpc.StateFile
open RisePir.Rpc.TrueBalances

variable {p : CuckooParams} {C : SegmentedCuckoo p} {B : PirBackend}

section Loop

variable {cfg : FollowConfig} {rng : C.Rng} {l l' : FollowLoop C B} {update : BlockUpdate}

/-- A fetched block that is applied is the next one, and what the loop goes on with is the server
behind it. -/
theorem applyFetched_some {delta : BlockDelta}
    (h : l.applyFetched cfg rng update = (l', some delta)) :
    ∃ applied report, applied.block = l.last + 1 ∧
      l.node.server.applyBlockReporting rng applied = (l'.node.server, .ok (delta, report)) ∧
      l.node.applyBlockReporting rng applied = (l'.node, .ok (delta, report)) ∧
      l'.last = l.last + 1 ∧ l'.stopped = l.stopped := by
  rw [FollowLoop.applyFetched] at h
  split_ifs at h with label
  · cases h
  · cases filtered : filterCredits cfg.complete l.node update with
    | error e =>
        rw [filtered] at h
        cases h
    | ok kept =>
        rw [filtered] at h
        have block : kept.block = update.block := by
          rw [filterCredits] at filtered
          split_ifs at filtered with complete
          · exact congrArg BlockUpdate.block (Except.ok.inj filtered).symm
          · cases tracked : keepTracked l.node update.changes update.credits with
            | error e =>
                rw [tracked] at filtered
                cases filtered
            | ok credits =>
                rw [tracked] at filtered
                cases filtered
                rfl
        dsimp only at h
        rw [FollowLoop.applyCorrected] at h
        dsimp only at h
        split at h
        · cases h
        · rename_i valid _
          generalize hu : ({ kept with changes := HardRefresh.prependCorrections valid kept.changes } :
            BlockUpdate) = applied at h
          cases hr : l.node.applyBlockReporting rng applied with
          | mk node r =>
              rw [hr] at h
              cases r with
              | error e => cases h
              | ok out =>
                  obtain ⟨delta', report⟩ := out
                  cases h
                  refine ⟨applied, report, ?_, apply_server hr, hr, rfl, rfl⟩
                  rw [← hu]
                  exact block.trans (not_not.mp label)

/-- A fetched block that is not applied stops the loop where it was, and the server is as before
unless the block has failed in it. -/
theorem applyFetched_none (h : l.applyFetched cfg rng update = (l', none)) :
    l'.last = l.last ∧ l'.stopped.isSome ∧
      (FailedApply l' ∨ l'.node = l.node) := by
  rw [FollowLoop.applyFetched] at h
  split_ifs at h with label
  · cases h
    exact ⟨rfl, rfl, .inr rfl⟩
  · cases filtered : filterCredits cfg.complete l.node update with
    | error e =>
        rw [filtered] at h
        cases h
        exact ⟨rfl, rfl, .inr rfl⟩
    | ok kept =>
        rw [filtered] at h
        dsimp only at h
        rw [FollowLoop.applyCorrected] at h
        dsimp only at h
        split at h
        · cases h
          exact ⟨rfl, rfl, .inr rfl⟩
        · rename_i valid _
          generalize ({ kept with changes := HardRefresh.prependCorrections valid kept.changes } :
            BlockUpdate) = applied at h
          cases hr : l.node.applyBlockReporting rng applied with
          | mk node r =>
              rw [hr] at h
              cases r with
              | error e =>
                  cases h
                  exact ⟨rfl, rfl, .inl ⟨_, _, rfl⟩⟩
              | ok out => cases h

/-- A poll and queued corrections leave the node, the last block and the stop as they are. -/
theorem step_heard {keccak256 : Address → AddressHash} {event : Event C}
    (quiet : ∀ block rng confirm, event ≠ .fetched block rng confirm) :
    (l.step keccak256 cfg event).node = l.node ∧ (l.step keccak256 cfg event).last = l.last ∧
      (l.step keccak256 cfg event).stopped = l.stopped := by
  cases event with
  | polled finalized =>
      cases finalized with
      | none => exact ⟨rfl, rfl, rfl⟩
      | some finalized =>
          rw [FollowLoop.step]
          split_ifs <;> exact ⟨rfl, rfl, rfl⟩
  | fetched block rng confirm => exact absurd rfl (quiet block rng confirm)
  | queued corrections => exact ⟨rfl, rfl, rfl⟩

/-- A checkpoint leaves the node, and stops the loop only as refuted. -/
theorem checkpoint_stopped (keccak256 : Address → AddressHash) (cfg : FollowConfig)
    (confirm : ConfirmSource) (l : FollowLoop C B) (changed credited : List (Address × Balance)) :
    (l.checkpoint keccak256 cfg confirm changed credited).node = l.node ∧
      (l.checkpoint keccak256 cfg confirm changed credited).last = l.last ∧
      ((l.checkpoint keccak256 cfg confirm changed credited).stopped = l.stopped ∨
        ∃ cause, (l.checkpoint keccak256 cfg confirm changed credited).stopped =
          some (.reconciled cause)) := by
  rw [FollowLoop.checkpoint]
  split_ifs with due
  · cases reconcile keccak256 l.node l.last confirm (l.finalized - l.last) changed credited
      cfg.complete cfg.reconcileSamples l.reservoir with
    | mk reservoir outcome =>
        cases outcome with
        | continued => exact ⟨rfl, rfl, .inl rfl⟩
        | halted cause => exact ⟨rfl, rfl, .inr ⟨cause, rfl⟩⟩
  · exact ⟨rfl, rfl, .inl rfl⟩

end Loop

section Records

variable (S : Setting) (trace : List (Label C B))

/-- A block of the follow loop leads from one server to another, which a state file can bring back
if it could the first. -/
structure Applied (s : RisePirServer C B) (delta : BlockDelta) (s' : RisePirServer C B) : Prop where
  step : ∃ rng update report, update.block = s.block + 1 ∧
    s.applyBlockReporting rng update = (s', .ok (delta, report))
  word : s'.block < 2 ^ 64
  items : s'.store.numItems < 2 ^ 64

/-- Blocks that the deployment applied and began to record in the journal of the state file of
`base`. -/
inductive Logged (base : RisePirServer C B) :
    List (BlockDelta × Nat) → RisePirServer C B → JournalWriter → Prop
  | nil : Logged base [] base (journalOf S.xxh3 base S.cfg.complete)
  | snoc {recs : List (BlockDelta × Nat)} {s s' : RisePirServer C B} {w w' : JournalWriter}
      {delta : BlockDelta} (logged : Logged base recs s w) (applied : Applied s delta s')
      (appended : w.append S.xxh3 delta s'.store.numItems = .ok w') (reached : .reached s' ∈ trace)
      (recording : .recording s' (delta, s'.store.numItems) ∈ trace) :
      Logged base (recs ++ [(delta, s'.store.numItems)]) s' w'

/-- What stands in the journal beside the state file of `base`, and the block that a restore comes
to: nothing, the journal of an older base, or its own one up to some byte. -/
inductive JournalFor (base : RisePirServer C B) : Option (List UInt8) → Nat → Prop
  | absent : JournalFor base none base.block
  | older {digest block : Nat} {rest : List UInt8} (word : digest < 2 ^ 64)
      (before : block < base.block) :
      JournalFor base (some (headerBytes S.xxh3 digest block ++ rest)) base.block
  | own {recs : List (BlockDelta × Nat)} {tip : RisePirServer C B} {w : JournalWriter} {n : Nat}
      (logged : Logged S trace base recs tip w) (past : HEADER_LEN ≤ n) :
      JournalFor base (some (w.bytes.take n)) (base.block + (seen recs n).length)

/-- The state file is that of a server the deployment has been live with, and with the journal
beside it a restore comes to block `height`. -/
structure Filed (disk : Disk) (base : RisePirServer C B) (height : Nat) : Prop where
  file : disk.state = some (save S.xxh3 base S.codec S.cfg.complete)
  fine : Fine S.code base
  codec : base.valueCodec = S.codec
  reached : .reached base ∈ trace
  journal : JournalFor S trace base disk.journal height

end Records

section Recorded

variable {S : Setting} {trace shown : List (Label C B)} {base s s' : RisePirServer C B}
  {recs : List (BlockDelta × Nat)} {w : JournalWriter} {delta : BlockDelta}

theorem Applied.published (laws : C.LogLaws) (h : Applied s delta s') :
    Published s s' delta ∧ delta.block = s.block + 1 ∧ s'.block = s.block + 1 := by
  obtain ⟨rng, update, report, next, step⟩ := h.step
  obtain ⟨published, block⟩ := apply_published laws step
  exact ⟨published, block.trans next, published.head.trans (block.trans next)⟩

theorem Applied.run (h : Applied s delta s') : BlockRun s [delta] s' := by
  obtain ⟨rng, update, report, next, step⟩ := h.step
  exact .cons next step (.nil s')

theorem Applied.fine (laws : C.LogLaws) (pir : B.ServerLaws) (h : Applied s delta s')
    (fine : Fine S.code s) : Fine S.code s' :=
  fine_published pir (h.published laws).1 fine h.word h.items

namespace Logged

theorem mono (h : Logged S trace base recs s w) : Logged S (trace ++ shown) base recs s w := by
  induction h with
  | nil => exact .nil
  | snoc logged applied appended reached recording ih =>
      exact .snoc ih applied appended (List.mem_append_left _ reached)
        (List.mem_append_left _ recording)

theorem journalled (laws : C.LogLaws) (h : Logged S trace base recs s w) :
    Journalled S.xxh3 base (journalOf S.xxh3 base S.cfg.complete) recs s w := by
  induction h with
  | nil => exact .nil _ _
  | snoc logged applied appended reached recording ih =>
      obtain ⟨rng, update, report, next, step⟩ := applied.step
      have block := (apply_published laws step).1.head
      exact journalled_append ih
        (.cons next step (block ▸ applied.word) applied.items appended (.nil _ _))

theorem take (h : Logged S trace base recs s w) (k : Nat) :
    ∃ mid between, Logged S trace base (recs.take k) mid between := by
  induction h with
  | nil => exact ⟨_, _, by rw [List.take_nil]; exact .nil⟩
  | @snoc recs s s' w w' delta logged applied appended reached recording ih =>
      by_cases within : k ≤ recs.length
      · rw [List.take_append_of_le_length within]
        exact ih
      · rw [List.take_of_length_le (by simp; omega)]
        exact ⟨s', w', .snoc logged applied appended reached recording⟩

theorem fine (laws : C.LogLaws) (pir : B.ServerLaws) (h : Logged S trace base recs s w)
    (fine : Fine S.code base) : Fine S.code s := by
  induction h with
  | nil => exact fine
  | snoc logged applied appended reached recording ih => exact applied.fine laws pir ih

theorem reached (h : Logged S trace base recs s w) (first : .reached base ∈ trace) :
    .reached s ∈ trace := by
  cases h with
  | nil => exact first
  | snoc logged applied appended reached recording => exact reached

theorem recorded (h : Logged S trace base recs s w) :
    ∀ rec ∈ recs, ∃ s', .recording s' rec ∈ trace := by
  induction h with
  | nil => intro rec mem; cases mem
  | snoc logged applied appended reached recording ih =>
      intro rec mem
      rcases List.mem_append.mp mem with before | last
      · exact ih rec before
      · obtain rfl := List.mem_singleton.mp last
        exact ⟨_, recording⟩

theorem nil_inv (h : Logged S trace base [] s w) : s = base ∧ w = journalOf S.xxh3 base S.cfg.complete := by
  generalize none : ([] : List (BlockDelta × Nat)) = recs at h
  cases h with
  | nil => exact ⟨rfl, rfl⟩
  | snoc logged applied appended reached recording => exact absurd none.symm (by simp)

theorem block (laws : C.LogLaws) (h : Logged S trace base recs s w) :
    s.block = base.block + recs.length := by
  rw [(h.journalled laws).run.block laws, List.length_map]

theorem length (laws : C.LogLaws) (h : Logged S trace base recs s w) :
    w.bytes.length = HEADER_LEN + (recordsBytes S.xxh3 recs).length := by
  rw [(h.journalled laws).bytes, List.length_append]
  exact congrArg (· + _) (headerBytes_length _ _)

end Logged

theorem JournalFor.mono {journal : Option (List UInt8)} {height : Nat}
    (h : JournalFor S trace base journal height) : JournalFor S (trace ++ shown) base journal height := by
  cases h with
  | absent => exact .absent
  | older word before => exact .older word before
  | own logged past => exact .own logged.mono past

theorem JournalFor.height_le {journal : Option (List UInt8)} {height : Nat}
    (h : JournalFor S trace base journal height) : base.block ≤ height := by
  cases h with
  | absent => exact le_rfl
  | older word before => exact le_rfl
  | own logged past => exact Nat.le_add_right _ _

theorem Filed.mono {disk : Disk} {height : Nat} (h : Filed S trace disk base height) :
    Filed S (trace ++ shown) disk base height :=
  ⟨h.file, h.fine, h.codec, List.mem_append_left _ h.reached, h.journal.mono⟩

/-- What a restore of the disk comes to, and the writer that it would adopt. -/
structure ComesTo (S : Setting) (trace : List (Label C B)) (disk : Disk) (base : RisePirServer C B)
    (restored : RestoredState) (recs : List (BlockDelta × Nat)) (mid : RisePirServer C B)
    (between : JournalWriter) : Prop where
  loads : ∀ file, disk.state = some file → loadWithJournalRestore B S.code S.xxh3 S.codec
    S.ringCapacity file disk.journal = some (.ok restored)
  loaded : restored.loaded =
    ⟨.of mid, S.cfg.complete, saveDigest S.xxh3 base base.valueCodec S.cfg.complete⟩
  logged : Logged S trace base recs mid between
  capped : recs.takeWhile withinCap = recs
  baseBlock : restored.baseBlock = base.block
  replayed : restored.replayed = recs.length
  tail : restored.tailDeltas = lastOf S.ringCapacity (recs.map Prod.fst)
  adopts : ∀ endOffset endHeight, restored.adoptAt = some (endOffset, endHeight) →
    endHeight = mid.block ∧ ∃ bytes, disk.journal = some bytes ∧
      JournalWriter.adopt bytes p.plaintextBits endOffset endHeight = between

/-- What is on the disk is restored to a server that a state file's own journal leads to. -/
theorem Filed.comesTo (loader : S.code.Laws) (rebuilds : S.code.Rebuilds C) (laws : C.LogLaws)
    {disk : Disk} {height : Nat} (filed : Filed S trace disk base height) :
    ∃ restored recs mid between, ComesTo S trace disk base restored recs mid between ∧
      mid.block = height := by
  have file := filed.file
  rw [← filed.codec] at file
  have unread : openedFor S.xxh3 (rawOf S.xxh3 base S.cfg.complete) disk.journal = none →
      height = base.block → ∃ restored recs mid between,
        ComesTo S trace disk base restored recs mid between ∧ mid.block = height := by
    intro unopened here
    have loads := @restore_unopened _ _ _ _ S.xxh3 _ _ S.ringCapacity loader rebuilds filed.fine.valid
      filed.fine.storable filed.fine.lineage _ unopened
    refine ⟨⟨⟨.of base, S.cfg.complete, saveDigest S.xxh3 base base.valueCodec S.cfg.complete⟩, 0,
      base.block, [], none, none⟩, [], base, _, ⟨fun bytes present => ?_, rfl, .nil, rfl, rfl, rfl,
      (lastOf_nil _).symm, nofun⟩, here.symm⟩
    rw [file] at present
    cases present
    rw [← filed.codec]
    exact loads
  have journal := filed.journal
  generalize hj : disk.journal = J at journal
  cases journal with
  | absent => exact unread (by rw [hj]; rfl) rfl
  | @older digest block rest word before =>
      apply unread _ rfl
      rw [hj]
      exact unopened_older word filed.fine.storable.setup.block before rest
  | @own recs tip w n logged past =>
      obtain ⟨mid, between, here⟩ := logged.take (seen recs n).length
      rw [← List.prefix_iff_eq_take.mp (seen_prefix_of recs n)] at here
      obtain ⟨⟨stop, loads⟩, adopt⟩ := restores_seen loader rebuilds laws filed.fine
        (logged.journalled laws) past (here.journalled laws) S.ringCapacity
      refine ⟨⟨⟨.of mid, S.cfg.complete, saveDigest S.xxh3 base base.valueCodec S.cfg.complete⟩,
        (seen recs n).length, base.block, lastOf S.ringCapacity ((seen recs n).map Prod.fst),
        some (between.bytes.length, mid.block), some stop⟩, seen recs n, mid, between,
        ⟨fun bytes present => ?_, rfl, here, seen_self recs n, rfl, rfl, rfl,
          fun endOffset endHeight at_ => ?_⟩, here.block laws⟩
      · rw [file] at present
        cases present
        rw [hj, ← filed.codec]
        exact loads
      · cases at_
        exact ⟨rfl, _, hj, adopt⟩

/-- What a start with `--no-journal-restore` makes of the disk, if no other base's journal has this
file's digest: it loads the file's own server; and the report, if there is one, is of the block that
a restore would come to, and otherwise a restore would come to no other. -/
theorem Filed.reports (loader : S.code.Laws) (rebuilds : S.code.Rebuilds C) (laws : C.LogLaws)
    {disk : Disk} {height : Nat} (filed : Filed S trace disk base height) {bytes : List UInt8}
    {loaded : LoadedState} (present : disk.state = some bytes)
    (loads : load S.code S.xxh3 S.codec bytes = some (.ok loaded)) :
    loaded.server = .of base ∧
      ∀ report, (disk.journal.bind fun bytes =>
          scanReportOnly S.xxh3 bytes loaded.digest p.plaintextBits p.arity) = report →
        (report = none → height = base.block) ∧
        ∀ header found, report = some (header, found) → header.baseBlock = base.block →
          found.endHeight = height ∧ (height = base.block → ∃ bytes, disk.journal = some bytes ∧
            JournalWriter.adopt bytes p.plaintextBits found.endOffset found.endHeight =
              journalOf S.xxh3 base S.cfg.complete) := by
  have file := filed.file
  rw [← filed.codec] at file loads
  obtain rfl := Option.some.inj (file.symm.trans present)
  have parsed : (parseRaw S.code S.xxh3 base.valueCodec
      (save S.xxh3 base base.valueCodec S.cfg.complete)).outcome = .ok (rawOf S.xxh3 base S.cfg.complete) :=
    parseRaw_save loader filed.fine.valid filed.fine.storable filed.fine.lineage _
  rw [load_saved loader rebuilds filed.fine] at loads
  obtain rfl := Except.ok.inj (Option.some.inj loads)
  have digest : (rawOf S.xxh3 base S.cfg.complete).digest =
      saveDigest S.xxh3 base base.valueCodec S.cfg.complete := rfl
  have bits : (rawOf S.xxh3 base S.cfg.complete).setup.params.plaintextBits = p.plaintextBits := rfl
  have arity : (rawOf S.xxh3 base S.cfg.complete).setup.params.arity = p.arity := rfl
  have named : (rawOf S.xxh3 base S.cfg.complete).setup.block = base.block := rfl
  generalize rawOf S.xxh3 base S.cfg.complete = raw at parsed digest bits arity named
  obtain ⟨restored, recs, mid, between, comes, block⟩ := filed.comesTo loader rebuilds laws
  have restores := comes.loads _ present
  rw [← filed.codec] at restores
  have grown := comes.logged.block laws
  refine ⟨rfl, fun report reports => ?_⟩
  dsimp only at reports
  rw [← digest, ← bits, ← arity] at reports
  refine ⟨?_, ?_⟩
  · rintro rfl
    have unopened : openedFor S.xxh3 raw disk.journal = none := unopened_of_unreported reports
    have few := comes.replayed.symm.trans (replayed_unopened parsed unopened restores)
    omega
  · rintro header found rfl own
    cases journal : disk.journal with
    | none =>
        rw [journal] at reports
        cases reports
    | some bytes =>
        rw [journal, Option.bind_some] at reports
        rw [journal] at restores
        obtain ⟨reader, opened, offset, ends⟩ := opened_of_reported reports (own.trans named.symm)
        have at_ := adoptAt_opened parsed opened restores
        rw [offset, ends] at at_
        obtain ⟨last, bytes', same, adopts⟩ := comes.adopts _ _ at_
        refine ⟨last.trans block, fun bare => ⟨bytes, rfl, ?_⟩⟩
        obtain rfl := Option.some.inj (journal.symm.trans same)
        have none : recs = [] := List.length_eq_zero_iff.mp (by omega)
        rw [adopts]
        have logged := comes.logged
        rw [none] at logged
        exact logged.nil_inv.2

end Recorded

section Invariant

variable (S : Setting) (trace : List (Label C B))

/-- The journal is let alone. -/
def Quiet : Stage → Prop
  | .free | .stateWrite | .stateSync | .stateRename => True
  | _ => False

theorem Quiet.of_free {stage : Stage} (free : stage = .free) : Quiet stage := by
  rw [free]
  trivial

theorem Quiet.of_reads {stage : Stage} (reads : stage.Reads) : Quiet stage := by
  cases stage <;> first | exact reads.elim | trivial

theorem Quiet.ne_append {stage : Stage} (quiet : Quiet stage) (written : JournalWriter)
    (left : List (List UInt8)) : stage ≠ .append written left := by
  rintro rfl
  exact quiet

theorem rotation_ne_append {stage : Stage} {digest block : Nat}
    (rotation : stage.rotation = some (digest, block)) (written : JournalWriter)
    (left : List (List UInt8)) : stage ≠ .append written left := by
  rintro rfl
  cases rotation

/-- A restart that leaves records of the journal unread. -/
def Overlooks : Label C B → Prop
  | .reported server _ endHeight => endHeight ≠ server.block
  | _ => False

/-- The block was made durable, and no restart since then has left records of the journal unread. -/
def Standing (block : Nat) : Prop :=
  ∃ before after, trace = before ++ .durable block :: after ∧ ∀ l ∈ after, ¬ Overlooks l

/-- As long as no record is beyond the reader's cap, no durable block is above the height. -/
def Durable (height : Nat) : Prop :=
  (∀ s rec, .recording s rec ∈ trace → withinCap rec = true) →
    ∀ block, Standing trace block → block ≤ height

/-- Neither file is on the disk, or a state file with what a restore comes to. -/
inductive OnDisk (disk : Disk) : Option (RisePirServer C B × Nat) → Prop
  | nothing (state : disk.state = none) (journal : disk.journal = none)
      (never : ∀ block, .durable block ∉ trace) : OnDisk disk none
  | file {base : RisePirServer C B} {height : Nat} (filed : Filed S trace disk base height)
      (durable : Durable trace height) : OnDisk disk (some (base, height))

/-- `front` is the server that the process is live with, or was before a block tore it. -/
structure Fronts (proc : Process C B) (front : RisePirServer C B) : Prop where
  server : ¬ FailedApply proc.loop → proc.server = front
  last : proc.loop.last = front.block
  fine : Fine S.code front
  codec : front.valueCodec = S.codec
  reached : .reached front ∈ trace
  whole : proc.phase ≠ .top → ¬ FailedApply proc.loop
  applied : ∀ delta fetched confirm, proc.phase = .applied delta fetched confirm →
    ∃ before, Applied before delta front

/-- The front, or the server that the block at hand was applied to. -/
def Behind (phase : Phase) (front tip : RisePirServer C B) : Prop :=
  tip = front ∨ ∃ delta fetched confirm, phase = .applied delta fetched confirm ∧
    Applied tip delta front

/-- How far the saver has come with the disk. -/
structure Saves (disk : Disk) (proc : Process C B) (front : RisePirServer C B)
    (file : Option (RisePirServer C B × Nat)) : Prop where
  reads : proc.saver.stage.Reads → ¬ FailedApply proc.loop
  staged : proc.saver.stage = .stateSync ∨ proc.saver.stage = .stateRename →
    disk.stateTmp = some (save S.xxh3 front S.codec S.cfg.complete)
  broken : proc.saver.journalBroken = true → proc.saver.journal = none
  ahead : ∀ base height, file = some (base, height) → ∃ ds, BlockRun base ds front
  durable : Durable trace front.block
  writer : Quiet proc.saver.stage → ∀ w, proc.saver.journal = some w → ∃ base recs tip,
    file = some (base, base.block + (recs.takeWhile withinCap).length) ∧
      Logged S trace base recs tip w ∧ disk.journal = some w.bytes ∧ Behind proc.phase front tip
  rotating : ∀ digest block, proc.saver.stage.rotation = some (digest, block) → ∃ base height,
    file = some (base, height) ∧ Durable trace base.block ∧
      digest = saveDigest S.xxh3 base S.codec S.cfg.complete ∧ block = base.block ∧
      Behind proc.phase front base ∧ proc.saver.journalBroken = false
  headed : ∀ digest block, proc.saver.stage = .headerSync digest block ∨
    proc.saver.stage = .headerRename digest block →
      disk.journalTmp = some (headerBytes S.xxh3 digest block)
  reopened : ∀ digest block, proc.saver.stage = .reopen digest block →
    disk.journal = some (headerBytes S.xxh3 digest block) ∧
      ∀ base height, file = some (base, height) → height = base.block
  appending : ∀ written left, proc.saver.stage = .append written left →
    proc.saver.journalBroken = false ∧
    (∃ delta fetched confirm, proc.phase = .applied delta fetched confirm) ∧
      ∃ base recs n, file = some (base, base.block + (seen recs n).length) ∧
        Logged S trace base recs front written ∧ HEADER_LEN ≤ n ∧ n ≤ written.bytes.length ∧
        disk.journal = some (written.bytes.take n) ∧ left.flatten = written.bytes.drop n

/-- What holds of a deployment behind a run that has shown `trace`. -/
inductive Inv : Deployment C B → Prop
  | down {disk : Disk} {file : Option (RisePirServer C B × Nat)} (onDisk : OnDisk S trace disk file) :
      Inv ⟨disk, none⟩
  | up {disk : Disk} {proc : Process C B} {front : RisePirServer C B}
      {file : Option (RisePirServer C B × Nat)} (onDisk : OnDisk S trace disk file)
      (fronts : Fronts S trace proc front) (saves : Saves S trace disk proc front file) :
      Inv ⟨disk, some proc⟩

end Invariant

section Keeping

variable {S : Setting} {trace shown : List (Label C B)} {disk disk' : Disk}
  {proc proc' : Process C B} {front front' base tip : RisePirServer C B}
  {file : Option (RisePirServer C B × Nat)} {height : Nat}

/-- A standing block is one of the last step's, or stood before it. -/
theorem standing_append {block : Nat} (h : Standing (trace ++ shown) block) :
    (Standing trace block ∧ ∀ l ∈ shown, ¬ Overlooks l) ∨ .durable block ∈ shown := by
  obtain ⟨before, after, split, since⟩ := h
  rcases List.append_eq_append_iff.mp split with ⟨left, -, now⟩ | ⟨left, was, now⟩
  · exact .inr (by rw [now]; simp)
  · cases left with
    | nil => exact .inr (by rw [← List.nil_append shown, ← now]; exact List.mem_cons_self)
    | cons l left =>
        rw [List.cons_append, List.cons.injEq] at now
        obtain ⟨rfl, rfl⟩ := now
        exact .inl ⟨⟨before, left, was, fun l mem => since l (List.mem_append_left _ mem)⟩,
          fun l mem => since l (List.mem_append_right _ mem)⟩

theorem durable_of_standing {block : Nat} (h : Standing trace block) : .durable block ∈ trace := by
  obtain ⟨before, after, rfl, -⟩ := h
  simp

/-- Where every restart has replayed the journal, every durable block stands. -/
theorem standing_of_durable (replayed : ∀ l ∈ trace, ¬ Overlooks l) {block : Nat}
    (h : .durable block ∈ trace) : Standing trace block := by
  obtain ⟨before, after, rfl⟩ := List.append_of_mem h
  exact ⟨before, after, rfl, fun l mem => replayed l (by simp [mem])⟩

theorem Durable.mono (h : Durable trace height) {height' : Nat} (higher : height ≤ height')
    (below : ∀ block, .durable block ∈ shown → block ≤ height') : Durable (trace ++ shown) height' := by
  intro capped block stands
  rcases standing_append stands with ⟨before, -⟩ | now
  · exact (h (fun s rec mem => capped s rec (List.mem_append_left _ mem)) block before).trans higher
  · exact below block now

theorem Durable.silent (h : Durable trace height) (silent : ∀ block, .durable block ∉ shown) :
    Durable (trace ++ shown) height :=
  h.mono le_rfl fun block mem => absurd mem (silent block)

/-- Behind a restart that leaves records unread nothing stands. -/
theorem durable_overlooked (silent : ∀ block, .durable block ∉ shown)
    (overlooks : ∃ l ∈ shown, Overlooks l) : Durable (trace ++ shown) height := by
  intro _ block stands
  obtain ⟨l, mem, ahead⟩ := overlooks
  rcases standing_append stands with ⟨-, since⟩ | now
  · exact absurd ahead (since l mem)
  · exact absurd now (silent block)

/-- A step that leaves the state file and the journal. -/
theorem OnDisk.same (h : OnDisk S trace disk file) (state : disk'.state = disk.state)
    (journal : disk'.journal = disk.journal) : OnDisk S trace disk' file := by
  cases h with
  | nothing missing unjournalled never =>
      exact .nothing (state.trans missing) (journal.trans unjournalled) never
  | file filed durable =>
      refine .file ⟨state.trans filed.file, filed.fine, filed.codec, filed.reached, ?_⟩ durable
      rw [journal]
      exact filed.journal

theorem OnDisk.mono (h : OnDisk S trace disk file) (silent : ∀ block, .durable block ∉ shown) :
    OnDisk S (trace ++ shown) disk file := by
  cases h with
  | nothing missing unjournalled never =>
      refine .nothing missing unjournalled fun block mem => ?_
      rcases List.mem_append.mp mem with before | now
      · exact never block before
      · exact silent block now
  | file filed durable =>
      exact .file filed.mono (durable.silent silent)

theorem Fronts.mono (h : Fronts S trace proc front) : Fronts S (trace ++ shown) proc front :=
  ⟨h.server, h.last, h.fine, h.codec, List.mem_append_left _ h.reached, h.whole, h.applied⟩

theorem Saves.mono (h : Saves S trace disk proc front file)
    (silent : ∀ block, .durable block ∉ shown) : Saves S (trace ++ shown) disk proc front file := by
  refine ⟨h.reads, h.staged, h.broken, h.ahead, h.durable.silent silent, ?_, ?_, h.headed,
    h.reopened, ?_⟩
  · intro quiet w has
    obtain ⟨base, recs, tip, at_, logged, rest⟩ := h.writer quiet w has
    exact ⟨base, recs, tip, at_, logged.mono, rest⟩
  · intro digest block rotates
    obtain ⟨base, height, at_, durable, rest⟩ := h.rotating digest block rotates
    exact ⟨base, height, at_, durable.silent silent, rest⟩
  · intro written left appends
    obtain ⟨broken, phase, base, recs, n, at_, logged, rest⟩ := h.appending written left appends
    exact ⟨broken, phase, base, recs, n, at_, logged.mono, rest⟩

/-- Labels that make nothing durable change nothing. -/
theorem Inv.mono {d : Deployment C B} (h : Inv S trace d) (silent : ∀ block, .durable block ∉ shown) :
    Inv S (trace ++ shown) d := by
  cases h with
  | down onDisk => exact .down (onDisk.mono silent)
  | up onDisk fronts saves => exact .up (onDisk.mono silent) fronts.mono (saves.mono silent)

theorem Fronts.follow (h : Fronts S trace proc front) (server : proc'.server = proc.server)
    (last : proc'.loop.last = proc.loop.last) (torn : FailedApply proc'.loop ↔ FailedApply proc.loop)
    (top : proc'.phase ≠ .top → proc.phase ≠ .top)
    (phase : ∀ delta fetched confirm, proc'.phase = .applied delta fetched confirm →
      proc.phase = .applied delta fetched confirm) : Fronts S trace proc' front where
  server whole := server.trans (h.server fun failed => whole (torn.mpr failed))
  last := last.trans h.last
  fine := h.fine
  codec := h.codec
  reached := h.reached
  whole busy failed := h.whole (top busy) (torn.mp failed)
  applied delta fetched confirm here := h.applied delta fetched confirm (phase _ _ _ here)

theorem Behind.follow {phase phase' : Phase} (h : Behind phase front tip)
    (keeps : ∀ delta fetched confirm, phase = .applied delta fetched confirm →
      phase' = .applied delta fetched confirm) : Behind phase' front tip := by
  rcases h with rfl | ⟨delta, fetched, confirm, here, applied⟩
  · exact .inl rfl
  · exact .inr ⟨delta, fetched, confirm, keeps _ _ _ here, applied⟩

/-- A step that the saver has no part in, and that applies no block. -/
theorem Saves.follow (h : Saves S trace disk proc front file) (saver : proc'.saver = proc.saver)
    (keeps : ∀ delta fetched confirm, proc.phase = .applied delta fetched confirm →
      proc'.phase = .applied delta fetched confirm)
    (whole : proc.saver.stage.Reads → FailedApply proc'.loop → FailedApply proc.loop) :
    Saves S trace disk proc' front file where
  reads reading failed := h.reads (saver ▸ reading) (whole (saver ▸ reading) failed)
  staged := saver ▸ h.staged
  broken := saver ▸ h.broken
  ahead := h.ahead
  durable := h.durable
  writer quiet w has := by
    rw [saver] at quiet has
    obtain ⟨base, recs, tip, at_, logged, bytes, behind⟩ := h.writer quiet w has
    exact ⟨base, recs, tip, at_, logged, bytes, behind.follow keeps⟩
  rotating digest block rotates := by
    rw [saver] at rotates
    obtain ⟨base, height, at_, durable, named, here, behind, broken⟩ := h.rotating digest block rotates
    exact ⟨base, height, at_, durable, named, here, behind.follow keeps, saver ▸ broken⟩
  headed := saver ▸ h.headed
  reopened := saver ▸ h.reopened
  appending written left appends := by
    rw [saver] at appends
    obtain ⟨broken, ⟨delta, fetched, confirm, phase⟩, base, recs, n, at_, logged, rest⟩ :=
      h.appending written left appends
    exact ⟨saver ▸ broken, ⟨delta, fetched, confirm, keeps _ _ _ phase⟩, base, recs, n, at_,
      logged, rest⟩

/-- The loop applies a block. -/
theorem Saves.applied (h : Saves S trace disk proc front file) (top : proc.phase = .top)
    (unlocked : ¬ proc.saver.stage.Reads) {delta : BlockDelta} {fetched : FetchedBlock}
    {confirm : ConfirmSource} {loop : FollowLoop C B} (laws : C.LogLaws)
    (applied : Applied front delta front') :
    Saves S trace disk { proc with loop, phase := .applied delta fetched confirm } front'
      file := by
  have now : ∀ tip, Behind proc.phase front tip →
      Behind (.applied delta fetched confirm) front' tip := by
    intro tip behind
    rcases behind with rfl | ⟨_, _, _, phase, -⟩
    · exact .inr ⟨delta, fetched, confirm, rfl, applied⟩
    · rw [top] at phase
      cases phase
  have next := (applied.published laws).2.2
  refine ⟨fun reading => absurd reading unlocked, fun staged => ?_, h.broken, ?_, ?_, ?_, ?_,
    h.headed, h.reopened, ?_⟩
  · rcases staged with here | here
    · exact absurd (by rw [here]; trivial) unlocked
    · exact absurd (by rw [here]; trivial) unlocked
  · intro base height at_
    obtain ⟨ds, run⟩ := h.ahead base height at_
    exact ⟨_, run.append applied.run⟩
  · intro capped block stands
    exact (h.durable capped block stands).trans (by omega)
  · intro quiet w has
    obtain ⟨base, recs, tip, at_, logged, bytes, behind⟩ := h.writer quiet w has
    exact ⟨base, recs, tip, at_, logged, bytes, now tip behind⟩
  · intro digest block rotates
    obtain ⟨base, height, at_, durable, named, here, behind, broken⟩ := h.rotating digest block rotates
    exact ⟨base, height, at_, durable, named, here, now base behind, broken⟩
  · intro written left appends
    obtain ⟨-, ⟨_, _, _, phase⟩, -⟩ := h.appending written left appends
    rw [top] at phase
    cases phase

/-- A saver that is free, with its writer at the end of the journal. -/
theorem Saves.idle (ahead : ∀ base height, file = some (base, height) → ∃ ds, BlockRun base ds front)
    (durable : Durable trace front.block) (free : proc.saver.stage = .free)
    (broken : proc.saver.journalBroken = true → proc.saver.journal = none)
    (writer : ∀ w, proc.saver.journal = some w → ∃ base recs tip,
      file = some (base, base.block + (recs.takeWhile withinCap).length) ∧
        Logged S trace base recs tip w ∧ disk.journal = some w.bytes ∧
        Behind proc.phase front tip) : Saves S trace disk proc front file where
  reads reading := by
    rw [free] at reading
    exact reading.elim
  staged stage := by
    rw [free] at stage
    rcases stage with here | here <;> cases here
  broken := broken
  ahead := ahead
  durable := durable
  writer _ := writer
  rotating _ _ rotates := by
    rw [free] at rotates
    cases rotates
  headed _ _ stage := by
    rw [free] at stage
    rcases stage with here | here <;> cases here
  reopened _ _ stage := by
    rw [free] at stage
    cases stage
  appending _ _ stage := by
    rw [free] at stage
    cases stage

/-- The saver goes from one stage that lets the journal alone to another. -/
theorem Saves.turned (h : Saves S trace disk proc front file) (quiet : Quiet proc.saver.stage)
    {stage : Stage} (quiet' : Quiet stage) (journal : disk'.journal = disk.journal)
    (saver : proc'.saver = { proc.saver with stage })
    (keeps : ∀ delta fetched confirm, proc.phase = .applied delta fetched confirm →
      proc'.phase = .applied delta fetched confirm)
    (reads : stage.Reads → ¬ FailedApply proc'.loop)
    (staged : stage = .stateSync ∨ stage = .stateRename →
      disk'.stateTmp = some (save S.xxh3 front S.codec S.cfg.complete)) :
    Saves S trace disk' proc' front file where
  reads reading := by
    rw [saver] at reading
    exact reads reading
  staged here := by
    rw [saver] at here
    exact staged here
  broken := by
    rw [saver]
    exact h.broken
  ahead := h.ahead
  durable := h.durable
  writer _ w has := by
    rw [saver] at has
    obtain ⟨base, recs, tip, at_, logged, bytes, behind⟩ := h.writer quiet w has
    exact ⟨base, recs, tip, at_, logged, journal.trans bytes, behind.follow keeps⟩
  rotating _ _ rotates := by
    rw [saver] at rotates
    cases stage <;> first | exact quiet'.elim | cases rotates
  headed _ _ here := by
    rw [saver] at here
    rcases here with rfl | rfl <;> exact quiet'.elim
  reopened _ _ here := by
    rw [saver] at here
    obtain rfl := here
    exact quiet'.elim
  appending _ _ here := by
    rw [saver] at here
    obtain rfl := here
    exact quiet'.elim

/-- The saver goes on with the rotation, by which a restore may come to another block. -/
theorem Saves.rotated (h : Saves S trace disk proc front (some (base, height))) {digest block : Nat}
    (rotation : proc.saver.stage.rotation = some (digest, block)) {stage : Stage}
    (rotation' : stage.rotation = some (digest, block)) {height' : Nat}
    (saver : proc'.saver = { proc.saver with stage })
    (keeps : ∀ delta fetched confirm, proc.phase = .applied delta fetched confirm →
      proc'.phase = .applied delta fetched confirm)
    (headed : stage = .headerSync digest block ∨ stage = .headerRename digest block →
      disk'.journalTmp = some (headerBytes S.xxh3 digest block))
    (reopened : stage = .reopen digest block →
      disk'.journal = some (headerBytes S.xxh3 digest block) ∧ height' = base.block) :
    Saves S trace disk' proc' front (some (base, height')) where
  reads reading := by
    rw [saver] at reading
    cases stage <;> first | exact reading.elim | cases rotation'
  staged here := by
    rw [saver] at here
    rcases here with rfl | rfl <;> cases rotation'
  broken := by
    rw [saver]
    exact h.broken
  ahead _ _ at_ := by
    cases at_
    exact h.ahead base height rfl
  durable := h.durable
  writer quiet := by
    rw [saver] at quiet
    cases stage <;> first | exact quiet.elim | cases rotation'
  rotating digest' block' rotates := by
    rw [saver] at rotates ⊢
    obtain ⟨rfl, rfl⟩ := Prod.mk.inj (Option.some.inj (rotation'.symm.trans rotates))
    obtain ⟨base, height, at_, durable, named, here, behind, broken⟩ := h.rotating _ _ rotation
    cases at_
    exact ⟨base, height', rfl, durable, named, here, behind.follow keeps, broken⟩
  headed digest' block' here := by
    rw [saver] at here
    rcases here with rfl | rfl
    · cases rotation'
      exact headed (.inl rfl)
    · cases rotation'
      exact headed (.inr rfl)
  reopened digest' block' here := by
    rw [saver] at here
    obtain rfl := here
    cases rotation'
    obtain ⟨journal, same⟩ := reopened rfl
    refine ⟨journal, fun _ _ at_ => ?_⟩
    cases at_
    exact same
  appending _ _ here := by
    rw [saver] at here
    obtain rfl := here
    cases rotation'

/-- What `append_delta` does with the writer. -/
inductive Appends (S : Setting) (saver : StateSaver) (delta : BlockDelta) (numItems : Nat) :
    StateSaver → Prop
  | off (none : saver.journal = none) : Appends S saver delta numItems saver
  | behind {w : JournalWriter} (has : saver.journal = some w) (older : delta.block < w.last + 1) :
      Appends S saver delta numItems saver
  | refused {w : JournalWriter} (has : saver.journal = some w) (other : w.last + 1 ≤ delta.block) :
      Appends S saver delta numItems saver.disable
  | begun {w written : JournalWriter} (has : saver.journal = some w)
      (appended : w.append S.xxh3 delta numItems = .ok written) :
      Appends S saver delta numItems
        { saver with stage := .append written (recordPieces S.xxh3 delta numItems) }

theorem appendDelta_cases (S : Setting) {saver : StateSaver} {delta : BlockDelta} {numItems : Nat}
    (broken : saver.journalBroken = true → saver.journal = none) :
    Appends S saver delta numItems (saver.appendDelta S.xxh3 delta numItems) := by
  obtain ⟨saved, journal, off, count, stage⟩ := saver
  rw [StateSaver.appendDelta]
  cases off with
  | true =>
      rw [if_pos rfl]
      exact .off (broken rfl)
  | false =>
      rw [if_neg Bool.false_ne_true]
      cases journal with
      | none => exact .off rfl
      | some w =>
          dsimp only
          rw [JournalWriter.append]
          by_cases gap : delta.block ≠ w.last + 1
          · rw [if_pos gap]
            dsimp only
            by_cases older : delta.block < w.last + 1
            · rw [if_pos older]
              exact .behind rfl older
            · rw [if_neg older]
              exact .refused rfl (by omega)
          · rw [if_neg gap]
            by_cases long : 2 ^ 32 ≤ (encodeBlockDelta delta).length
            · rw [if_pos long]
              exact .refused rfl (by omega)
            · rw [if_neg long]
              refine .begun rfl ?_
              rw [JournalWriter.append, if_neg gap, if_neg long]

theorem Logged.last (laws : C.LogLaws) {recs : List (BlockDelta × Nat)} {w : JournalWriter}
    (h : Logged S trace base recs tip w) : w.last = tip.block :=
  (journalled_writer laws (h.journalled laws) rfl).2

/-- A saver in the middle of a record. -/
theorem Saves.writing {written : JournalWriter} {left : List (List UInt8)}
    (ahead : ∀ base height, file = some (base, height) → ∃ ds, BlockRun base ds front)
    (durable : Durable trace front.block) (stage : proc.saver.stage = .append written left)
    (broken : proc.saver.journalBroken = false)
    (phase : ∃ delta fetched confirm, proc.phase = .applied delta fetched confirm)
    (begun : ∃ base recs n, file = some (base, base.block + (seen recs n).length) ∧
      Logged S trace base recs front written ∧ HEADER_LEN ≤ n ∧ n ≤ written.bytes.length ∧
      disk.journal = some (written.bytes.take n) ∧ left.flatten = written.bytes.drop n) :
    Saves S trace disk proc front file where
  reads reading := by
    rw [stage] at reading
    exact reading.elim
  staged here := by
    rw [stage] at here
    rcases here with here | here <;> cases here
  broken off := by
    rw [broken] at off
    cases off
  ahead := ahead
  durable := durable
  writer quiet := by
    rw [stage] at quiet
    exact quiet.elim
  rotating _ _ rotates := by
    rw [stage] at rotates
    cases rotates
  headed _ _ here := by
    rw [stage] at here
    rcases here with here | here <;> cases here
  reopened _ _ here := by
    rw [stage] at here
    cases here
  appending _ _ here := by
    rw [stage] at here
    cases here
    exact ⟨broken, phase, begun⟩

section Appending

variable {delta : BlockDelta} {fetched : FetchedBlock} {confirm : ConfirmSource} {w : JournalWriter}

/-- The writer of a free saver, while its block is at hand: it stands behind that block, or before
it. -/
theorem Saves.writer_applied (laws : C.LogLaws) (h : Saves S trace disk proc front file)
    (phase : proc.phase = .applied delta fetched confirm) (free : proc.saver.stage = .free)
    (has : proc.saver.journal = some w) : ∃ base recs tip,
      file = some (base, base.block + (recs.takeWhile withinCap).length) ∧
        Logged S trace base recs tip w ∧ disk.journal = some w.bytes ∧ w.last = tip.block ∧
        (tip = front ∨ Applied tip delta front) := by
  obtain ⟨base, recs, tip, at_, logged, bytes, standing⟩ := h.writer (.of_free free) w has
  refine ⟨base, recs, tip, at_, logged, bytes, logged.last laws, ?_⟩
  rcases standing with same | ⟨_, _, _, here, applied⟩
  · exact .inl same
  · rw [phase] at here
    cases here
    exact .inr applied

/-- A block that the writer has behind it is left. -/
theorem Saves.passed (laws : C.LogLaws) (h : Saves S trace disk proc front file)
    (phase : proc.phase = .applied delta fetched confirm) (free : proc.saver.stage = .free)
    (has : proc.saver.journal = some w) (older : delta.block < w.last + 1)
    (saver : proc'.saver = proc.saver) : Saves S trace disk proc' front file := by
  have free' : proc'.saver.stage = .free := by rw [saver, free]
  refine .idle h.ahead h.durable free' (saver ▸ h.broken) fun w' has' => ?_
  rw [saver, has] at has'
  cases has'
  obtain ⟨base, recs, tip, at_, logged, bytes, last, standing⟩ := h.writer_applied laws phase free has
  rcases standing with rfl | applied
  · exact ⟨base, recs, tip, at_, logged, bytes, .inl rfl⟩
  · have next := (applied.published laws).2.1
    omega

/-- The record of the next block is begun. -/
theorem Saves.begun (laws : C.LogLaws) (h : Saves S trace disk proc front file)
    (fronts : Fronts S trace proc front) (phase : proc.phase = .applied delta fetched confirm)
    (free : proc.saver.stage = .free) (has : proc.saver.journal = some w) {written : JournalWriter}
    (appended : w.append S.xxh3 delta front.store.numItems = .ok written)
    (recorded : .recording front (delta, front.store.numItems) ∈ trace)
    (phase' : proc'.phase = proc.phase) (saver : proc'.saver = { proc.saver with
      stage := .append written (recordPieces S.xxh3 delta front.store.numItems) }) :
    Saves S trace disk proc' front file := by
  obtain ⟨before, applied⟩ := fronts.applied delta fetched confirm phase
  have head : delta.block = front.block := (applied.published laws).1.head.symm
  obtain ⟨next, -, grown⟩ := append_ok appended
  obtain ⟨base, recs, tip, at_, logged, bytes, last, standing⟩ := h.writer_applied laws phase free has
  have broken : proc'.saver.journalBroken = false := by
    rw [saver]
    cases off : proc.saver.journalBroken with
    | false => rfl
    | true =>
        rw [h.broken off] at has
        cases has
  rcases standing with rfl | applied
  · omega
  · have logged' : Logged S trace base (recs ++ [(delta, front.store.numItems)]) front written :=
      .snoc logged applied appended fronts.reached recorded
    have whole : written.bytes = w.bytes ++ recordBytes S.xxh3 delta front.store.numItems := by
      rw [grown]
    refine .writing h.ahead h.durable (by rw [saver]) broken ⟨delta, fetched, confirm, phase'.trans phase⟩
      ⟨base, recs ++ [(delta, front.store.numItems)], w.bytes.length, ?_, logged', ?_, ?_, ?_, ?_⟩
    · rw [logged.length laws, seen_append]
      exact at_
    · rw [logged.length laws]
      omega
    · rw [whole, List.length_append]
      omega
    · rw [whole, List.take_left' rfl]
      exact bytes
    · rw [whole, List.drop_left' rfl, recordPieces_flatten]

/-- `append_delta` takes its block. -/
theorem Saves.appended (laws : C.LogLaws) (h : Saves S trace disk proc front file)
    (fronts : Fronts S trace proc front) (phase : proc.phase = .applied delta fetched confirm)
    (free : proc.saver.stage = .free)
    (recording : (proc.appendDelta S).saver.stage ≠ .free →
      .recording proc.server (delta, proc.server.store.numItems) ∈ trace) :
    Saves S trace disk (proc.appendDelta S) front file := by
  have server := fronts.server (fronts.whole (by rw [phase]; nofun))
  have taken : Appends S proc.saver delta proc.server.store.numItems _ :=
    appendDelta_cases S h.broken
  have out : (proc.appendDelta S).saver =
      proc.saver.appendDelta S.xxh3 delta proc.server.store.numItems := by
    rw [Process.appendDelta, phase]
  have after : (proc.appendDelta S).phase =
      if (proc.appendDelta S).saver.stage = .free then .journalled fetched confirm
      else .applied delta fetched confirm := by
    rw [Process.appendDelta, phase]
  generalize hs : (proc.appendDelta S).saver = saver' at out
  rw [← out] at taken
  rw [hs] at after recording
  cases taken with
  | off none =>
      refine .idle h.ahead h.durable (by rw [hs, free]) (hs ▸ h.broken) fun w has => ?_
      rw [hs, none] at has
      cases has
  | behind has older => exact h.passed laws phase free has older hs
  | refused has other =>
      refine .idle h.ahead h.durable (by rw [hs]; rfl) (fun _ => by rw [hs]; rfl) fun w has => ?_
      rw [hs] at has
      cases has
  | begun has appended =>
      have recorded := recording nofun
      rw [server] at appended recorded hs
      exact h.begun laws fronts phase free has appended recorded
        (by rw [after, phase, if_neg nofun]) hs

end Appending

end Keeping

end RisePir.Rpc.Durability
