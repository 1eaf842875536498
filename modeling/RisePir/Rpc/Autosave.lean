import RisePir.Rpc.Mainnet
import RisePir.Rpc.Restore

set_option autoImplicit false
set_option relaxedAutoImplicit false

/-! The state saver and the process around it. A save, a rotation and an append go to the disk in
single file-system steps, each of which may fail or be the process's last; the follow loop and the
shutdown task take turns on the saver's mutex. -/

namespace RisePir.Rpc.Autosave

open RisePir.Lib.Digits
open RisePir.Proto.Codec
open RisePir.Proto.Types
open RisePir.Proto.Value
open RisePir.Upstream.Cuckoo
open RisePir.Upstream.Pir
open RisePir.Server.Core
open RisePir.Server.DeltaRing
open RisePir.Http.Node
open RisePir.Feed.Rpc
open RisePir.Rpc.HardRefresh
open RisePir.Rpc.Journal
open RisePir.Rpc.Mainnet
open RisePir.Rpc.Restore
open RisePir.Rpc.State

/-- The files of a state path: the state file and the journal, each with its staging file. -/
structure Disk where
  state : Option (List UInt8)
  stateTmp : Option (List UInt8)
  journal : Option (List UInt8)
  journalTmp : Option (List UInt8)
  deriving DecidableEq, Repr

/-- The next file-system step of whoever holds the saver's mutex. -/
inductive Stage
  | free
  | stateWrite
  | stateSync
  | stateRename
  | headerWrite (digest block : Nat)
  | headerSync (digest block : Nat)
  | headerRename (digest block : Nat)
  | reopen (digest block : Nat)
  | append (written : JournalWriter) (left : List (List UInt8))
  deriving DecidableEq, Repr

namespace Stage

/-- The node's read lock is held: no block can be applied. -/
def Reads : Stage → Prop
  | stateWrite | stateSync | stateRename => True
  | _ => False

/-- The digest and the block of the base that the journal is being replaced for. -/
def rotation : Stage → Option (Nat × Nat)
  | headerWrite digest block | headerSync digest block | headerRename digest block
  | reopen digest block => some (digest, block)
  | _ => none

end Stage

/-- `StateSaver`: what its mutex guards, and how far the holder has come. -/
structure StateSaver where
  lastSavedBlock : Option Nat
  journal : Option JournalWriter
  journalBroken : Bool
  journalRecordsSinceSave : Nat
  stage : Stage
  deriving DecidableEq, Repr

/-- The four writes of `JournalWriter::append`. -/
def recordPieces (xxh3 : List UInt8 → BitVec 64) (delta : BlockDelta) (numItemsAfter : Nat) :
    List (List UInt8) :=
  [leBytes 4 (encodeBlockDelta delta).length, leBytes 8 numItemsAfter, encodeBlockDelta delta,
    leBytes 8 (xxh3 (leBytes 8 numItemsAfter ++ encodeBlockDelta delta)).toNat]

theorem recordPieces_flatten (xxh3 : List UInt8 → BitVec 64) (delta : BlockDelta) (numItems : Nat) :
    (recordPieces xxh3 delta numItems).flatten = recordBytes xxh3 delta numItems := by
  simp [recordPieces, recordBytes]

namespace StateSaver

def new (lastSavedBlock : Option Nat) (initialJournal : Option JournalWriter) : StateSaver :=
  ⟨lastSavedBlock, initialJournal, false, 0, .free⟩

/-- Journaling is off for the rest of the run. -/
def disable (saver : StateSaver) : StateSaver :=
  { saver with journal := none, journalBroken := true, stage := .free }

/-- `append_delta`, up to its first write. -/
def appendDelta (xxh3 : List UInt8 → BitVec 64) (saver : StateSaver) (delta : BlockDelta)
    (numItemsAfter : Nat) : StateSaver :=
  if saver.journalBroken then saver
  else
    match saver.journal with
    | none => saver
    | some writer =>
        match writer.append xxh3 delta numItemsAfter with
        | .ok written => { saver with stage := .append written (recordPieces xxh3 delta numItemsAfter) }
        | .error (.gap expected found) => if found < expected then saver else saver.disable
        | .error _ => saver.disable

/-- `save_with`, up to its first write: an unforced save of the saved height does nothing. -/
def saveWith (saver : StateSaver) (block : Nat) (force : Bool) : StateSaver :=
  if !force ∧ saver.lastSavedBlock = some block then saver else { saver with stage := .stateWrite }

/-- `save_now`, with the mutex at hand. -/
def saveNow (saver : StateSaver) (block : Nat) : StateSaver := saver.saveWith block true

/-- `maybe_save`. -/
def maybeSave (interval : Nat) (elapsed : Bool) (saver : StateSaver) (block : Nat) : StateSaver :=
  if interval = 0 then saver
  else if saver.stage ≠ .free then saver
  else if !elapsed then saver
  else saver.saveWith block false

end StateSaver

/-- How a file-system step goes: it is done, or it fails with some bytes of its write done. -/
inductive Outcome
  | done
  | failed (bytes : Nat)
  deriving DecidableEq, Repr

section Filing

variable {p : CuckooParams} {C : SegmentedCuckoo p} {B : PirBackend}
variable (xxh3 : List UInt8 → BitVec 64) (codec : ValueCodec) (complete : Bool)

/-- A failed step of the rotation. -/
def StateSaver.unrotated (saver : StateSaver) : StateSaver :=
  { saver with journal := none, stage := .free }

/-- The holder's next file-system step: of `state::save` on the server, of `JournalWriter::create`
behind it, or of `JournalWriter::append`. -/
def fileStep (server : RisePirServer C B) (disk : Disk) (saver : StateSaver) (outcome : Outcome) :
    Disk × StateSaver :=
  match saver.stage, outcome with
  | .free, _ => (disk, saver)
  | .stateWrite, .done =>
      ({ disk with stateTmp := some (save xxh3 server codec complete) },
        { saver with stage := .stateSync })
  | .stateWrite, .failed n =>
      ({ disk with stateTmp := some ((save xxh3 server codec complete).take n) },
        { saver with stage := .free })
  | .stateSync, .done => (disk, { saver with stage := .stateRename })
  | .stateSync, .failed _ => (disk, { saver with stage := .free })
  | .stateRename, .done =>
      ({ disk with state := disk.stateTmp, stateTmp := none },
        { saver with
          lastSavedBlock := some server.block
          stage :=
            if saver.journalBroken then .free
            else .headerWrite (saveDigest xxh3 server codec complete) server.block })
  | .stateRename, .failed _ => (disk, { saver with stage := .free })
  | .headerWrite digest block, .done =>
      ({ disk with journalTmp := some (headerBytes xxh3 digest block) },
        { saver with stage := .headerSync digest block })
  | .headerWrite digest block, .failed n =>
      ({ disk with journalTmp := some ((headerBytes xxh3 digest block).take n) }, saver.unrotated)
  | .headerSync digest block, .done => (disk, { saver with stage := .headerRename digest block })
  | .headerSync _ _, .failed _ => (disk, saver.unrotated)
  | .headerRename digest block, .done =>
      ({ disk with journal := disk.journalTmp, journalTmp := none },
        { saver with stage := .reopen digest block })
  | .headerRename _ _, .failed _ => (disk, saver.unrotated)
  | .reopen digest block, .done =>
      (disk, { saver with
        journal := some (.create xxh3 digest block p.plaintextBits)
        journalRecordsSinceSave := 0
        stage := .free })
  | .reopen _ _, .failed _ => (disk, saver.unrotated)
  | .append written (piece :: left), .done =>
      ({ disk with journal := disk.journal.map (· ++ piece) },
        { saver with stage := .append written left })
  | .append _ (piece :: _), .failed n =>
      ({ disk with journal := disk.journal.map (· ++ piece.take n) }, saver.disable)
  | .append written [], .done =>
      (disk, { saver with
        journal := some written
        journalRecordsSinceSave := saver.journalRecordsSinceSave + 1
        stage := .free })
  | .append _ [], .failed _ => (disk, saver.disable)

/-- The height that the step makes durable: its `save` or `append` has returned `Ok`. -/
def durableBlock (server : RisePirServer C B) (saver : StateSaver) (outcome : Outcome) : Option Nat :=
  match saver.stage, outcome with
  | .stateRename, .done => some server.block
  | .append written [], .done => some written.last
  | _, _ => none

end Filing

/-- What a deployment is started with, and the functions it takes from elsewhere. -/
structure Setting where
  cfg : FollowConfig
  codec : ValueCodec
  saveInterval : Nat
  ringCapacity : Nat
  ring_pos : 0 < ringCapacity
  addressKey : Address → AddressHash
  keccak256 : List UInt8 → List UInt8
  xxh3 : List UInt8 → BitVec 64
  code : LoaderCode

/-- Where the follow loop stands: at the top of a loop body, in its own save, with a block applied
that `append_delta` has still to take, or before the checkpoint. -/
inductive Phase
  | top
  | saving
  | applied (delta : BlockDelta) (fetched : FetchedBlock) (confirm : ConfirmSource)
  | journalled (fetched : FetchedBlock) (confirm : ConfirmSource)

variable {p : CuckooParams} {C : SegmentedCuckoo p} {B : PirBackend}

/-- A live process. `signalled` is set once the shutdown task is saving. -/
structure Process (C : SegmentedCuckoo p) (B : PirBackend) where
  loop : FollowLoop C B
  phase : Phase
  saver : StateSaver
  signalled : Bool

/-- The phase behind a step after which the mutex is free again. -/
def Phase.released (stage : Stage) : Phase → Phase
  | .top => .top
  | .saving => .top
  | .applied delta fetched confirm =>
      match stage with
      | .append _ _ => .journalled fetched confirm
      | _ => .applied delta fetched confirm
  | .journalled fetched confirm => .journalled fetched confirm

namespace Process

def server (proc : Process C B) : RisePirServer C B := proc.loop.node.server

/-- A process that has just built its server. From a snapshot it saves before it does anything
else; a partial deployment does not. -/
def bootstrap (S : Setting) (server : RisePirServer C B) : Process C B :=
  let node := NodeState.new S.keccak256 server (.new S.ringCapacity S.ring_pos) S.cfg.complete
  let saver := StateSaver.new none none
  if S.cfg.complete then ⟨.start node server.block, .saving, { saver with stage := .stateWrite }, false⟩
  else ⟨.start node server.block, .top, saver, false⟩

/-- A process that has its server from a state file. -/
def restarted (S : Setting) (server : RisePirServer C B) (onDiskHeight : Nat)
    (initialJournal : Option JournalWriter) (tailDeltas : List BlockDelta) : Process C B :=
  let node := NodeState.new S.keccak256 server (.new S.ringCapacity S.ring_pos) S.cfg.complete
  ⟨.start (node.seedHistory tailDeltas) server.block, .top,
    .new (some onDiskHeight) initialJournal, false⟩

/-- `append_delta` with the applied block. -/
def appendDelta (S : Setting) (proc : Process C B) : Process C B :=
  match proc.phase with
  | .applied delta fetched confirm =>
      let saver := proc.saver.appendDelta S.xxh3 delta proc.server.store.numItems
      { proc with
        saver
        phase := if saver.stage = .free then .journalled fetched confirm else proc.phase }
  | _ => proc

/-- `maybe_save` at the top of a loop body. -/
def maybeSave (S : Setting) (proc : Process C B) (elapsed : Bool) : Process C B :=
  let saver := proc.saver.maybeSave S.saveInterval elapsed proc.server.block
  { proc with saver, phase := if saver.stage = .free then .top else .saving }

/-- Behind a file-system step of whoever holds the mutex. -/
def filed (proc : Process C B) (saver : StateSaver) : Process C B :=
  { proc with
    saver
    phase := if saver.stage = .free then proc.phase.released proc.saver.stage else proc.phase }

/-- The shutdown task's save. -/
def shutdown (proc : Process C B) : Process C B :=
  { proc with saver := proc.saver.saveNow proc.server.block, signalled := true }

end Process

/-- The journal that a restored process goes on with: what the restore vouched for, unless it cannot
be opened. -/
def adoptJournal (plaintextBits : Nat) (disk : Disk) (adoptAt : Option (Nat × Nat)) (opens : Bool) :
    Option JournalWriter :=
  match opens, adoptAt, disk.journal with
  | true, some (endOffset, endHeight), some bytes => some (.adopt bytes plaintextBits endOffset endHeight)
  | _, _, _ => none

/-- What a start with `--no-journal-restore` may adopt the reported journal at: its end, if that is
the loaded block. -/
def adoptReported (block : Nat) (report : Option (JournalHeader × JournalReportOnly)) :
    Option (Nat × Nat) :=
  match report with
  | some (_, found) => if found.endHeight = block then some (found.endOffset, found.endHeight) else none
  | none => none

/-- Adopting cuts the journal at its end. -/
def Disk.adopted (disk : Disk) : Option JournalWriter → Disk
  | some writer => { disk with journal := some writer.bytes }
  | none => disk

/-- A `GET` whose body the node may answer with: a block's delta, a range of blocks, the bundle. -/
inductive Request
  | delta (block : Nat)
  | sync (fromBlock toBlock : Nat)
  | setup (block : Nat)
  deriving DecidableEq, Repr

/-- What can be seen of a deployment: the servers it was live with, the journal that a start without
the restore reports by the block of its header and its end, what its writers begin with, the block
they have made durable, and the bodies it hands out under an epoch. -/
inductive Label {p : CuckooParams} (C : SegmentedCuckoo p) (B : PirBackend)
  | reached (server : RisePirServer C B)
  | reported (server : RisePirServer C B) (baseBlock endHeight : Nat)
  | saving (server : RisePirServer C B) (stopped : Option Stop)
  | recording (server : RisePirServer C B) (record : BlockDelta × Nat)
  | durable (block : Nat)
  | served (epoch : String) (request : Request) (body : List UInt8)

/-- The disk, and the process while there is one. -/
structure Deployment (C : SegmentedCuckoo p) (B : PirBackend) where
  disk : Disk
  process : Option (Process C B)

namespace Deployment

/-- Neither file is there, and nothing has been started. -/
def fresh : Deployment C B := ⟨⟨none, none, none, none⟩, none⟩

end Deployment

/-- The servers that a state file can bring back, with every number within its type. -/
structure Fine (code : LoaderCode) (s : RisePirServer C B) : Prop where
  wellFormed : Server.Telescope.WellFormed s
  hints : Server.Telescope.HintsMatch (p := p) s.segments s.store.cells
  valid : s.valueCodec.ValidWidths
  storable : StateFile.Storable s
  lineage : StateFile.OwnLineage code s.valueCodec (.of p)

section Stepping

variable (S : Setting)

/-- One step of a deployment. -/
inductive Step : Deployment C B → List (Label C B) → Deployment C B → Prop
  | bootstrapped {disk : Disk} {server : RisePirServer C B} (missing : disk.state = none)
      (codec : server.valueCodec = S.codec) (fine : Fine S.code server) :
      Step ⟨disk, none⟩ (.reached server :: if S.cfg.complete then [.saving server none] else [])
        ⟨disk, some (.bootstrap S server)⟩
  | restarted {disk : Disk} {file : List UInt8} {restored : RestoredState}
      {server : RisePirServer C B} {opens : Bool} (present : disk.state = some file)
      (loads : loadWithJournalRestore B S.code S.xxh3 S.codec S.ringCapacity file
        disk.journal = some (.ok restored))
      (loaded : LoadedServer.of server = restored.loaded.server)
      (expanded : ∀ seg ∈ server.segments, seg.material = B.expandHintMaterial seg.params)
      {journal : Option JournalWriter}
      (adopts : adoptJournal p.plaintextBits disk restored.adoptAt opens = journal) :
      Step ⟨disk, none⟩ [.reached server]
        ⟨disk.adopted journal,
          some (.restarted S server restored.baseBlock journal restored.tailDeltas)⟩
  | reloaded {disk : Disk} {file : List UInt8} {loaded : LoadedState}
      {server : RisePirServer C B} {opens : Bool} (present : disk.state = some file)
      (loads : load S.code S.xxh3 S.codec file = some (.ok loaded))
      (same : LoadedServer.of server = loaded.server)
      (expanded : ∀ seg ∈ server.segments, seg.material = B.expandHintMaterial seg.params)
      {report : Option (JournalHeader × JournalReportOnly)} {journal : Option JournalWriter}
      (reports : (disk.journal.bind fun bytes =>
        scanReportOnly S.xxh3 bytes loaded.digest p.plaintextBits p.arity) = report)
      (adopts : adoptJournal p.plaintextBits disk (adoptReported server.block report) opens =
        journal) :
      Step ⟨disk, none⟩ (.reached server :: report.toList.map fun found =>
          .reported server found.1.baseBlock found.2.endHeight)
        ⟨disk.adopted journal, some (.restarted S server server.block journal [])⟩
  | heard {disk : Disk} {proc : Process C B} {event : Event C}
      (quiet : ∀ block rng confirm, event ≠ .fetched block rng confirm) :
      Step ⟨disk, some proc⟩ []
        ⟨disk, some { proc with loop := proc.loop.step S.addressKey S.cfg event }⟩
  | applied {disk : Disk} {proc : Process C B} {fetched : FetchedBlock} {rng : C.Rng}
      {confirm : ConfirmSource} {loop : FollowLoop C B} {delta : BlockDelta}
      (top : proc.phase = .top) (running : proc.loop.stopped = none)
      (behind : proc.loop.last < proc.loop.finalized) (unlocked : ¬ proc.saver.stage.Reads)
      (applies : proc.loop.applyFetched S.cfg rng fetched.update = (loop, some delta))
      (word : loop.node.server.block < 2 ^ 64) (items : loop.node.server.store.numItems < 2 ^ 64) :
      Step ⟨disk, some proc⟩ [.reached loop.node.server]
        ⟨disk, some { proc with loop, phase := .applied delta fetched confirm }⟩
  | failed {disk : Disk} {proc : Process C B} {fetched : FetchedBlock} {rng : C.Rng}
      {loop : FollowLoop C B} (top : proc.phase = .top) (running : proc.loop.stopped = none)
      (behind : proc.loop.last < proc.loop.finalized) (unlocked : ¬ proc.saver.stage.Reads)
      (applies : proc.loop.applyFetched S.cfg rng fetched.update = (loop, none)) :
      Step ⟨disk, some proc⟩ [] ⟨disk, some { proc with loop }⟩
  | appending {disk : Disk} {proc : Process C B} {delta : BlockDelta} {fetched : FetchedBlock}
      {confirm : ConfirmSource} (phase : proc.phase = .applied delta fetched confirm)
      (free : proc.saver.stage = .free) :
      Step ⟨disk, some proc⟩
        (if (proc.appendDelta S).saver.stage = .free then []
          else [.recording proc.server (delta, proc.server.store.numItems)])
        ⟨disk, some (proc.appendDelta S)⟩
  | checked {disk : Disk} {proc : Process C B} {fetched : FetchedBlock} {confirm : ConfirmSource}
      {loop : FollowLoop C B} (phase : proc.phase = .journalled fetched confirm)
      (checks : proc.loop.checkpoint S.addressKey S.cfg confirm fetched.changed fetched.credited =
        loop) :
      Step ⟨disk, some proc⟩ [] ⟨disk, some { proc with loop, phase := .top }⟩
  | due {disk : Disk} {proc : Process C B} {elapsed : Bool} (top : proc.phase = .top)
      (running : proc.loop.stopped = none) (free : proc.saver.stage = .free) :
      Step ⟨disk, some proc⟩
        (if (proc.maybeSave S elapsed).saver.stage = .free then []
          else [.saving proc.server proc.loop.stopped])
        ⟨disk, some (proc.maybeSave S elapsed)⟩
  | shutdown {disk : Disk} {proc : Process C B} (first : proc.signalled = false)
      (free : proc.saver.stage = .free) :
      Step ⟨disk, some proc⟩ [.saving proc.server proc.loop.stopped] ⟨disk, some proc.shutdown⟩
  | filed {disk : Disk} {proc : Process C B} {outcome : Outcome} {disk' : Disk} {saver : StateSaver}
      (held : proc.saver.stage ≠ .free)
      (files : fileStep S.xxh3 S.codec S.cfg.complete proc.server disk proc.saver outcome = (disk', saver)) :
      Step ⟨disk, some proc⟩ ((durableBlock proc.server proc.saver outcome).toList.map .durable)
        ⟨disk', some (proc.filed saver)⟩
  | servedDelta {disk : Disk} {proc : Process C B} {block : Nat} {body : List UInt8}
      (answers : proc.loop.node.deltaByBlock block (some proc.loop.node.epoch) = .ok body) :
      Step ⟨disk, some proc⟩ [.served proc.loop.node.epoch (.delta block) body] ⟨disk, some proc⟩
  | servedSync {disk : Disk} {proc : Process C B} {fromBlock toBlock : Nat} {body : List UInt8}
      (answers : proc.loop.node.sync (some proc.loop.node.epoch) (some (fromBlock, toBlock)) =
        .ok body) :
      Step ⟨disk, some proc⟩ [.served proc.loop.node.epoch (.sync fromBlock toBlock) body]
        ⟨disk, some proc⟩
  | servedSetup {disk : Disk} {proc : Process C B} {node : NodeState C B} {body : List UInt8}
      {epoch : String} {block : Nat} (answers : proc.loop.node.setup = (node, body, epoch, block)) :
      Step ⟨disk, some proc⟩ [.served epoch (.setup block) body]
        ⟨disk, some { proc with loop := { proc.loop with node } }⟩
  | crashed {disk : Disk} {proc : Process C B} : Step ⟨disk, some proc⟩ [] ⟨disk, none⟩

end Stepping

end RisePir.Rpc.Autosave
