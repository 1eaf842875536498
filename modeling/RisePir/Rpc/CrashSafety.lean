import RisePir.Lib.Transitions
import RisePir.Rpc.Durability

set_option autoImplicit false
set_option relaxedAutoImplicit false

/-! Crash safety. Whatever the process was doing when it died, in whichever file-system step, what is
on the disk is restored to a server the deployment has been live with, and to no block before the
last one that a save or an append had made durable, unless the process was started since without the
journal's restore and left records unread. A save of a server that a failed block has torn has to be
ruled out, and a journal with another file's digest. -/

namespace RisePir.Rpc.CrashSafety

open RisePir.Lib.Digits
open RisePir.Lib.Transitions
open RisePir.Proto.Codec
open RisePir.Proto.Types
open RisePir.Proto.Value
open RisePir.Upstream.Cuckoo
open RisePir.Upstream.Pir
open RisePir.Upstream.ReferencePir
open RisePir.Upstream.ReferenceTable
open RisePir.Server.Small
open RisePir.Server.Core
open RisePir.Server.Run
open RisePir.Server.Telescope
open RisePir.Http.Node
open RisePir.Http.Serving
open RisePir.Http.SetupWindow
open RisePir.Feed.Rpc
open RisePir.Rpc.Autosave
open RisePir.Rpc.Durability
open RisePir.Rpc.Journal
open RisePir.Rpc.Mainnet
open RisePir.Rpc.Recovery
open RisePir.Rpc.Replay
open RisePir.Rpc.Restore
open RisePir.Rpc.State
open RisePir.Rpc.StateFile
open RisePir.Rpc.TrueBalances

variable {p : CuckooParams} {C : SegmentedCuckoo p} {B : PirBackend}

section Filing

variable {S : Setting} {trace shown : List (Label C B)} {disk disk' : Disk} {proc : Process C B}
  {front base : RisePirServer C B} {file file' : Option (RisePirServer C B × Nat)}
  {saver : StateSaver}

theorem filed_applied {delta : BlockDelta} {fetched : FetchedBlock} {confirm : ConfirmSource}
    (h : (proc.filed saver).phase = .applied delta fetched confirm) :
    proc.phase = .applied delta fetched confirm := by
  dsimp only [Process.filed] at h
  split_ifs at h with free
  · cases phase : proc.phase with
    | applied d f c =>
        unfold Phase.released at h
        rw [phase] at h
        dsimp only at h
        split at h <;> cases h
        rfl
    | top =>
        rw [phase] at h
        cases h
    | saving =>
        rw [phase] at h
        cases h
    | journalled f c =>
        rw [phase] at h
        cases h
  · exact h

theorem filed_keeps (other : ∀ written left, proc.saver.stage ≠ .append written left)
    (delta : BlockDelta) (fetched : FetchedBlock) (confirm : ConfirmSource)
    (h : proc.phase = .applied delta fetched confirm) :
    (proc.filed saver).phase = .applied delta fetched confirm := by
  dsimp only [Process.filed]
  split_ifs with free
  · rw [h]
    unfold Phase.released
    dsimp only
    split
    · rename_i written left here
      exact absurd here (other written left)
    · rfl
  · exact h

theorem filed_top (h : (proc.filed saver).phase ≠ .top) : proc.phase ≠ .top := by
  intro top
  apply h
  dsimp only [Process.filed]
  rw [top]
  split_ifs <;> rfl

theorem fronts_filed (h : Fronts S trace proc front) (saver : StateSaver) :
    Fronts S trace (proc.filed saver) front :=
  h.follow rfl rfl .rfl filed_top fun _ _ _ => filed_applied

/-- A step of a save before its rename, or one that fails. -/
theorem inv_turned (onDisk : OnDisk S trace disk file) (fronts : Fronts S trace proc front)
    (saves : Saves S trace disk proc front file) (quiet : Quiet proc.saver.stage) {stage : Stage}
    (quiet' : Quiet stage) (state : disk'.state = disk.state) (journal : disk'.journal = disk.journal)
    (reads : stage.Reads → ¬ FailedApply proc.loop)
    (staged : stage = .stateSync ∨ stage = .stateRename →
      disk'.stateTmp = some (save S.xxh3 front S.codec S.cfg.complete)) :
    Inv S trace ⟨disk', some (proc.filed { proc.saver with stage })⟩ := by
  exact .up (onDisk.same state journal) (fronts_filed fronts _)
    (saves.turned quiet quiet' journal rfl (filed_keeps quiet.ne_append) reads staged)

/-- A failed step of a save leaves the saver as it was. -/
theorem inv_unsaved (onDisk : OnDisk S trace disk file) (fronts : Fronts S trace proc front)
    (saves : Saves S trace disk proc front file) (reads : proc.saver.stage.Reads)
    (state : disk'.state = disk.state) (journal : disk'.journal = disk.journal) :
    Inv S trace ⟨disk', some (proc.filed { proc.saver with stage := .free })⟩ := by
  apply inv_turned onDisk fronts saves (.of_reads reads) (.of_free rfl) state journal
  · intro reading
    exact reading.elim
  · rintro (here | here) <;> cases here

/-- A step of the rotation before its rename. -/
theorem inv_rotated (onDisk : OnDisk S trace disk file) (fronts : Fronts S trace proc front)
    (saves : Saves S trace disk proc front file) {digest block : Nat}
    (rotation : proc.saver.stage.rotation = some (digest, block)) {stage : Stage}
    (rotation' : stage.rotation = some (digest, block)) (state : disk'.state = disk.state)
    (journal : disk'.journal = disk.journal) (here : ∀ digest block, stage ≠ .reopen digest block)
    (headed : disk'.journalTmp = some (headerBytes S.xxh3 digest block)) :
    Inv S trace ⟨disk', some (proc.filed { proc.saver with stage })⟩ := by
  obtain ⟨base, height, rfl, -⟩ := saves.rotating digest block rotation
  exact .up (onDisk.same state journal) (fronts_filed fronts _)
    (saves.rotated rotation rotation' rfl (filed_keeps (rotation_ne_append rotation)) (fun _ => headed)
      fun reopens => absurd reopens (here digest block))

/-- A failed step of the rotation leaves the saver without a writer. -/
theorem inv_unrotated (onDisk : OnDisk S trace disk file) (fronts : Fronts S trace proc front)
    (saves : Saves S trace disk proc front file) (state : disk'.state = disk.state)
    (journal : disk'.journal = disk.journal) :
    Inv S trace ⟨disk', some (proc.filed proc.saver.unrotated)⟩ := by
  refine .up (onDisk.same state journal) (fronts_filed fronts _)
    (.idle saves.ahead saves.durable rfl (fun _ => rfl) ?_)
  intro w none
  cases none

/-- The journal behind the rename of the state file: the new base's own, if the base is the old one,
and otherwise an older one. -/
theorem journalFor_renamed (laws : C.LogLaws) {ds : List BlockDelta} {journal : Option (List UInt8)}
    {height : Nat} (h : JournalFor S trace base journal height) (run : BlockRun base ds front)
    (durable : Durable trace height) (durable' : Durable trace front.block) :
    ∃ height', front.block ≤ height' ∧ JournalFor S trace front journal height' ∧
      Durable trace height' := by
  have block := run.block laws
  by_cases none : ds = []
  · subst none
    cases run
    exact ⟨height, h.height_le, h, durable⟩
  · have later : base.block < front.block := by
      have := List.length_pos_iff.mpr none
      omega
    refine ⟨front.block, le_rfl, ?_, durable'⟩
    cases h with
    | absent => exact .absent
    | older word before => exact .older word (before.trans later)
    | @own recs tip w n logged past =>
        have bytes := (logged.journalled laws).bytes
        have header : (journalOf S.xxh3 base S.cfg.complete).bytes =
            headerBytes S.xxh3 (saveDigest S.xxh3 base base.valueCodec S.cfg.complete) base.block := rfl
        rw [header] at bytes
        have whole : w.bytes.take n =
            headerBytes S.xxh3 (saveDigest S.xxh3 base base.valueCodec S.cfg.complete) base.block ++
              (recordsBytes S.xxh3 recs).take (n - HEADER_LEN) := by
          rw [bytes, List.take_append, headerBytes_length, List.take_of_length_le]
          rw [headerBytes_length]
          exact past
        rw [whole]
        exact .older (S.xxh3 _).isLt later

/-- The journal that the renamed state file has beside it. -/
theorem filed_renamed (laws : C.LogLaws) (onDisk : OnDisk S trace disk file)
    (fronts : Fronts S trace proc front) (saves : Saves S trace disk proc front file)
    (staged : disk.stateTmp = some (save S.xxh3 front S.codec S.cfg.complete)) :
    ∃ height, front.block ≤ height ∧ Durable trace height ∧
      Filed S trace { disk with state := disk.stateTmp, stateTmp := none } front height := by
  cases onDisk with
  | nothing missing unjournalled never =>
      refine ⟨front.block, le_rfl, saves.durable, staged, fronts.fine, fronts.codec, fronts.reached, ?_⟩
      show JournalFor S trace front disk.journal front.block
      rw [unjournalled]
      exact .absent
  | @file base height filed durable =>
      obtain ⟨ds, run⟩ := saves.ahead base height rfl
      obtain ⟨height', low, journal, durable'⟩ :=
        journalFor_renamed laws filed.journal run durable saves.durable
      exact ⟨height', low, durable', staged, fronts.fine, fronts.codec, fronts.reached, journal⟩

/-- The state file is replaced by that of the server the process is live with. -/
theorem inv_renamed (laws : C.LogLaws) (onDisk : OnDisk S trace disk file)
    (fronts : Fronts S trace proc front) (saves : Saves S trace disk proc front file)
    (stage : proc.saver.stage = .stateRename) :
    Inv S (trace ++ [.durable proc.server.block])
      ⟨{ disk with state := disk.stateTmp, stateTmp := none }, some (proc.filed { proc.saver with
        lastSavedBlock := some proc.server.block
        stage :=
          if proc.saver.journalBroken then .free
          else .headerWrite (saveDigest S.xxh3 proc.server S.codec S.cfg.complete)
            proc.server.block })⟩ := by
  have whole := saves.reads (by rw [stage]; trivial)
  have server := fronts.server whole
  rw [server]
  obtain ⟨height, low, durable, filed⟩ :=
    filed_renamed laws onDisk fronts saves (saves.staged (.inr stage))
  have now : ∀ {height}, front.block ≤ height →
      ∀ block, (.durable block : Label C B) ∈ [.durable front.block] → block ≤ height := by
    intro height low block mem
    cases List.mem_singleton.mp mem
    exact low
  have behind : Durable (trace ++ [.durable front.block]) front.block :=
    saves.durable.mono le_rfl (now le_rfl)
  refine .up (.file filed.mono (durable.mono le_rfl (now low))) (fronts_filed fronts.mono _) ?_
  have ahead : ∀ base height', some (front, height) = some (base, height') →
      ∃ ds, BlockRun base ds front := by
    intro base height' at_
    cases at_
    exact ⟨[], .nil front⟩
  cases off : proc.saver.journalBroken with
  | true =>
      refine .idle ahead behind rfl (fun _ => saves.broken off) ?_
      intro w has
      have none := saves.broken off
      rw [show proc.saver.journal = some w from has] at none
      cases none
  | false =>
      refine ⟨fun reading => reading.elim, ?_, ?_, ahead, behind, fun quiet => quiet.elim, ?_, ?_,
        nofun, nofun⟩
      · rintro (here | here) <;> cases here
      · intro broken
        exact saves.broken broken
      · intro digest block rotates
        cases rotates
        exact ⟨front, height, rfl, behind, rfl, rfl, .inl rfl, off⟩
      · intro digest block here
        rcases here with here | here <;> cases here

/-- The journal is replaced by a fresh one of the base. -/
theorem inv_headed (onDisk : OnDisk S trace disk file)
    (fronts : Fronts S trace proc front) (saves : Saves S trace disk proc front file)
    {digest block : Nat} (stage : proc.saver.stage = .headerRename digest block) :
    Inv S trace ⟨{ disk with journal := disk.journalTmp, journalTmp := none },
      some (proc.filed { proc.saver with stage := .reopen digest block })⟩ := by
  have rotation : proc.saver.stage.rotation = some (digest, block) := by
    rw [stage]
    rfl
  obtain ⟨base, height, rfl, low, named, here, -⟩ := saves.rotating digest block rotation
  have headed := saves.headed digest block (.inr stage)
  have rotated : Saves S trace { disk with journal := disk.journalTmp, journalTmp := none }
      (proc.filed { proc.saver with stage := .reopen digest block }) front
      (some (base, base.block)) :=
    saves.rotated rotation rfl rfl (filed_keeps (rotation_ne_append rotation))
      (by rintro (reopens | reopens) <;> cases reopens) fun _ => ⟨headed, rfl⟩
  refine .up ?_ (fronts_filed fronts _) rotated
  cases onDisk with
  | file filed durable =>
      have bytes : disk.journalTmp =
          some ((journalOf S.xxh3 base S.cfg.complete).bytes.take HEADER_LEN) := by
        have length : (journalOf S.xxh3 base S.cfg.complete).bytes.length = HEADER_LEN :=
          headerBytes_length _ _
        rw [List.take_of_length_le length.le, headed, named, here, ← filed.codec]
        rfl
      refine .file ⟨filed.file, filed.fine, filed.codec, filed.reached, ?_⟩ low
      have empty : Logged S trace base [] base (journalOf S.xxh3 base S.cfg.complete) := .nil
      have own := JournalFor.own empty (le_refl HEADER_LEN)
      rw [← bytes] at own
      exact own

/-- The fresh journal is opened for appending. -/
theorem inv_reopened (onDisk : OnDisk S trace disk file)
    (fronts : Fronts S trace proc front) (saves : Saves S trace disk proc front file)
    {digest block : Nat} (stage : proc.saver.stage = .reopen digest block) :
    Inv S trace ⟨disk, some (proc.filed { proc.saver with
      journal := some (.create S.xxh3 digest block p.plaintextBits)
      journalRecordsSinceSave := 0
      stage := .free })⟩ := by
  have rotation : proc.saver.stage.rotation = some (digest, block) := by
    rw [stage]
    rfl
  obtain ⟨base, height, rfl, low, named, here, behind, broken⟩ := saves.rotating digest block rotation
  obtain ⟨journal, same⟩ := saves.reopened digest block stage
  obtain rfl := same base height rfl
  refine .up onDisk (fronts_filed fronts _)
    (.idle saves.ahead saves.durable rfl (fun off => ?_) fun w has => ?_)
  · rw [show proc.saver.journalBroken = true from off] at broken
    cases broken
  · cases has
    have codec : base.valueCodec = S.codec := by
      cases onDisk with
      | file filed durable => exact filed.codec
    have writer : JournalWriter.create S.xxh3 digest block p.plaintextBits =
        journalOf S.xxh3 base S.cfg.complete := by
      rw [journalOf, codec, named, here]
    refine ⟨base, [], base, rfl, ?_, journal, behind.follow (filed_keeps (rotation_ne_append rotation))⟩
    rw [writer]
    exact .nil

/-- Some more bytes of a record are written. -/
theorem onDisk_grown {recs : List (BlockDelta × Nat)} {n m : Nat}
    {written : JournalWriter}
    (h : OnDisk S trace disk (some (base, base.block + (seen recs n).length)))
    (logged : Logged S trace base recs front written) (past : HEADER_LEN ≤ n) (longer : n ≤ m)
    (journal : disk'.journal = some (written.bytes.take m)) (state : disk'.state = disk.state) :
    OnDisk S trace disk' (some (base, base.block + (seen recs m).length)) := by
  cases h with
  | file filed durable =>
      have higher := (seen_mono recs longer).length_le
      refine .file ⟨state.trans filed.file, filed.fine, filed.codec, filed.reached, ?_⟩ ?_
      · rw [journal]
        exact .own logged (past.trans longer)
      · intro capped block stands
        exact (durable capped block stands).trans (Nat.add_le_add_left higher _)

theorem ahead_grown {height height' : Nat}
    (ahead : ∀ base' height₀, some (base, height) = some (base', height₀) →
      ∃ ds, BlockRun base' ds front) :
    ∀ base' height₀, some (base, height') = some (base', height₀) → ∃ ds, BlockRun base' ds front := by
  intro base' height₀ at_
  cases at_
  exact ahead _ _ rfl

/-- One of the record's writes is done. -/
theorem inv_pieced (onDisk : OnDisk S trace disk file)
    (fronts : Fronts S trace proc front) (saves : Saves S trace disk proc front file)
    {written : JournalWriter} {piece : List UInt8} {left : List (List UInt8)}
    (stage : proc.saver.stage = .append written (piece :: left)) :
    Inv S trace ⟨{ disk with journal := disk.journal.map (· ++ piece) },
      some (proc.filed { proc.saver with stage := .append written left })⟩ := by
  obtain ⟨broken, phase, base, recs, n, rfl, logged, past, within, journal, rest⟩ :=
    saves.appending written (piece :: left) stage
  rw [List.flatten_cons] at rest
  have length := congrArg List.length rest
  rw [List.length_append, List.length_drop] at length
  have grown : disk.journal.map (· ++ piece) = some (written.bytes.take (n + piece.length)) := by
    rw [journal, Option.map_some, List.take_add, ← rest, List.take_left' rfl]
  have ends : left.flatten = written.bytes.drop (n + piece.length) := by
    rw [← List.drop_drop, ← rest, List.drop_left' rfl]
  have longer : n ≤ n + piece.length := Nat.le_add_right _ _
  exact .up (onDisk_grown onDisk logged past longer grown rfl) (fronts_filed fronts _)
    (.writing (ahead_grown saves.ahead) saves.durable rfl broken phase
      ⟨base, recs, n + piece.length, rfl, logged, past.trans longer, by omega, grown, ends⟩)

/-- One of the record's writes fails, with some of its bytes written. -/
theorem inv_disabled (onDisk : OnDisk S trace disk file)
    (fronts : Fronts S trace proc front) (saves : Saves S trace disk proc front file)
    {written : JournalWriter} {piece : List UInt8} {left : List (List UInt8)}
    (stage : proc.saver.stage = .append written (piece :: left)) (bytes : Nat) :
    Inv S trace ⟨{ disk with journal := disk.journal.map (· ++ piece.take bytes) },
      some (proc.filed proc.saver.disable)⟩ := by
  obtain ⟨-, -, base, recs, n, rfl, logged, past, within, journal, rest⟩ :=
    saves.appending written (piece :: left) stage
  rw [List.flatten_cons] at rest
  have grown : disk.journal.map (· ++ piece.take bytes) =
      some (written.bytes.take (n + (piece.take bytes).length)) := by
    have begun : (piece ++ left.flatten).take (piece.take bytes).length = piece.take bytes := by
      have short : (piece.take bytes).length ≤ piece.length := by
        rw [List.length_take]
        omega
      rw [List.take_append_of_le_length short, List.length_take, ← List.take_eq_take_min]
    rw [journal, Option.map_some, List.take_add, ← rest, begun]
  have longer : n ≤ n + (piece.take bytes).length := Nat.le_add_right _ _
  refine .up (onDisk_grown onDisk logged past longer grown rfl) (fronts_filed fronts _)
    (.idle (ahead_grown saves.ahead) saves.durable rfl (fun _ => rfl) ?_)
  intro w none
  cases none

/-- The record stands in the journal, and its block is durable. -/
theorem inv_recorded (laws : C.LogLaws) (onDisk : OnDisk S trace disk file)
    (fronts : Fronts S trace proc front) (saves : Saves S trace disk proc front file)
    {written : JournalWriter} (stage : proc.saver.stage = .append written []) :
    Inv S (trace ++ [.durable written.last]) ⟨disk, some (proc.filed { proc.saver with
      journal := some written
      journalRecordsSinceSave := proc.saver.journalRecordsSinceSave + 1
      stage := .free })⟩ := by
  obtain ⟨broken, -, base, recs, n, rfl, logged, past, within, journal, rest⟩ :=
    saves.appending written [] stage
  have whole : n = written.bytes.length := by
    have := List.drop_eq_nil_iff.mp rest.symm
    omega
  subst whole
  have taken : seen recs written.bytes.length = recs.takeWhile withinCap := by
    have := @seen_append S.xxh3 recs []
    rwa [List.append_nil, ← logged.length laws] at this
  rw [List.take_length] at journal
  rw [taken] at onDisk saves
  have unbroken : ¬ proc.saver.journalBroken = true := by
    rw [broken]
    exact Bool.false_ne_true
  have behind : Durable (trace ++ [.durable written.last]) front.block := by
    refine saves.durable.mono le_rfl fun block mem => ?_
    cases List.mem_singleton.mp mem
    exact (logged.last laws).le
  refine .up ?_ (fronts_filed fronts.mono _)
    (.idle saves.ahead behind rfl (fun off => absurd off unbroken) fun w has => ?_)
  · cases onDisk with
    | file filed durable =>
        refine .file filed.mono ?_
        intro capped block stands
        have old : (∀ s rec, .recording s rec ∈ trace → withinCap rec = true) :=
          fun s rec mem => capped s rec (List.mem_append_left _ mem)
        rcases standing_append stands with ⟨before, -⟩ | now
        · exact durable old block before
        · cases List.mem_singleton.mp now
          have all : recs.takeWhile withinCap = recs := by
            apply List.takeWhile_eq_self_iff.mpr
            intro rec mem
            obtain ⟨s, recording⟩ := logged.recorded rec mem
            exact old s rec recording
          rw [all, logged.last laws, logged.block laws]
  · cases has
    exact ⟨base, recs, front, rfl, logged.mono, journal, .inl rfl⟩

/-- The holder's next step keeps the invariant, however it goes. -/
def Survives (S : Setting) (trace : List (Label C B)) (disk : Disk) (proc : Process C B) : Prop :=
  ∀ outcome disk' saver, fileStep S.xxh3 S.codec S.cfg.complete proc.server disk proc.saver outcome =
    (disk', saver) →
      Inv S (trace ++ (durableBlock proc.server proc.saver outcome).toList.map .durable)
        ⟨disk', some (proc.filed saver)⟩

theorem survives_stateWrite (onDisk : OnDisk S trace disk file) (fronts : Fronts S trace proc front)
    (saves : Saves S trace disk proc front file) (stage : proc.saver.stage = .stateWrite) :
    Survives S trace disk proc := by
  intro outcome disk' saver files
  have reads : proc.saver.stage.Reads := by rw [stage]; trivial
  unfold fileStep at files
  unfold durableBlock
  rw [stage] at files ⊢
  cases outcome with
  | done =>
      cases files
      rw [Option.toList_none, List.map_nil, List.append_nil]
      exact inv_turned onDisk fronts saves (.of_reads reads) trivial rfl rfl
        (fun _ => saves.reads reads) fun _ => by rw [← fronts.server (saves.reads reads)]
  | failed n =>
      cases files
      rw [Option.toList_none, List.map_nil, List.append_nil]
      exact inv_unsaved onDisk fronts saves reads rfl rfl

theorem survives_stateSync (onDisk : OnDisk S trace disk file) (fronts : Fronts S trace proc front)
    (saves : Saves S trace disk proc front file) (stage : proc.saver.stage = .stateSync) :
    Survives S trace disk proc := by
  intro outcome disk' saver files
  have reads : proc.saver.stage.Reads := by rw [stage]; trivial
  unfold fileStep at files
  unfold durableBlock
  rw [stage] at files ⊢
  cases outcome with
  | done =>
      cases files
      rw [Option.toList_none, List.map_nil, List.append_nil]
      exact inv_turned onDisk fronts saves (.of_reads reads) trivial rfl rfl
        (fun _ => saves.reads reads) fun _ => saves.staged (.inl stage)
  | failed n =>
      cases files
      rw [Option.toList_none, List.map_nil, List.append_nil]
      exact inv_unsaved onDisk fronts saves reads rfl rfl

theorem survives_stateRename (laws : C.LogLaws) (onDisk : OnDisk S trace disk file)
    (fronts : Fronts S trace proc front) (saves : Saves S trace disk proc front file)
    (stage : proc.saver.stage = .stateRename) : Survives S trace disk proc := by
  intro outcome disk' saver files
  have reads : proc.saver.stage.Reads := by rw [stage]; trivial
  unfold fileStep at files
  unfold durableBlock
  rw [stage] at files ⊢
  cases outcome with
  | done =>
      cases files
      exact inv_renamed laws onDisk fronts saves stage
  | failed n =>
      cases files
      rw [Option.toList_none, List.map_nil, List.append_nil]
      exact inv_unsaved onDisk fronts saves reads rfl rfl

theorem survives_headerWrite (onDisk : OnDisk S trace disk file) (fronts : Fronts S trace proc front)
    (saves : Saves S trace disk proc front file) {digest block : Nat}
    (stage : proc.saver.stage = .headerWrite digest block) : Survives S trace disk proc := by
  intro outcome disk' saver files
  have rotation : proc.saver.stage.rotation = some (digest, block) := by rw [stage]; rfl
  unfold fileStep at files
  unfold durableBlock
  rw [stage] at files ⊢
  cases outcome with
  | done =>
      cases files
      rw [Option.toList_none, List.map_nil, List.append_nil]
      exact inv_rotated onDisk fronts saves rotation rfl rfl rfl nofun rfl
  | failed n =>
      cases files
      rw [Option.toList_none, List.map_nil, List.append_nil]
      exact inv_unrotated onDisk fronts saves rfl rfl

theorem survives_headerSync (onDisk : OnDisk S trace disk file) (fronts : Fronts S trace proc front)
    (saves : Saves S trace disk proc front file) {digest block : Nat}
    (stage : proc.saver.stage = .headerSync digest block) : Survives S trace disk proc := by
  intro outcome disk' saver files
  have rotation : proc.saver.stage.rotation = some (digest, block) := by rw [stage]; rfl
  unfold fileStep at files
  unfold durableBlock
  rw [stage] at files ⊢
  cases outcome with
  | done =>
      cases files
      rw [Option.toList_none, List.map_nil, List.append_nil]
      exact inv_rotated onDisk fronts saves rotation rfl rfl rfl nofun
        (saves.headed digest block (.inl stage))
  | failed n =>
      cases files
      rw [Option.toList_none, List.map_nil, List.append_nil]
      exact inv_unrotated onDisk fronts saves rfl rfl

theorem survives_headerRename (onDisk : OnDisk S trace disk file) (fronts : Fronts S trace proc front)
    (saves : Saves S trace disk proc front file) {digest block : Nat}
    (stage : proc.saver.stage = .headerRename digest block) : Survives S trace disk proc := by
  intro outcome disk' saver files
  unfold fileStep at files
  unfold durableBlock
  rw [stage] at files ⊢
  cases outcome with
  | done =>
      cases files
      rw [Option.toList_none, List.map_nil, List.append_nil]
      exact inv_headed onDisk fronts saves stage
  | failed n =>
      cases files
      rw [Option.toList_none, List.map_nil, List.append_nil]
      exact inv_unrotated onDisk fronts saves rfl rfl

theorem survives_reopen (onDisk : OnDisk S trace disk file) (fronts : Fronts S trace proc front)
    (saves : Saves S trace disk proc front file) {digest block : Nat}
    (stage : proc.saver.stage = .reopen digest block) : Survives S trace disk proc := by
  intro outcome disk' saver files
  unfold fileStep at files
  unfold durableBlock
  rw [stage] at files ⊢
  cases outcome with
  | done =>
      cases files
      rw [Option.toList_none, List.map_nil, List.append_nil]
      exact inv_reopened onDisk fronts saves stage
  | failed n =>
      cases files
      rw [Option.toList_none, List.map_nil, List.append_nil]
      exact inv_unrotated onDisk fronts saves rfl rfl

theorem survives_append (laws : C.LogLaws) (onDisk : OnDisk S trace disk file)
    (fronts : Fronts S trace proc front) (saves : Saves S trace disk proc front file)
    {written : JournalWriter} {left : List (List UInt8)}
    (stage : proc.saver.stage = .append written left) : Survives S trace disk proc := by
  intro outcome disk' saver files
  unfold fileStep at files
  unfold durableBlock
  rw [stage] at files ⊢
  cases left with
  | nil =>
      cases outcome with
      | done =>
          cases files
          exact inv_recorded laws onDisk fronts saves stage
      | failed n =>
          cases files
          rw [Option.toList_none, List.map_nil, List.append_nil]
          exact .up onDisk (fronts_filed fronts _)
            (.idle saves.ahead saves.durable rfl (fun _ => rfl) nofun)
  | cons piece left =>
      cases outcome with
      | done =>
          cases files
          rw [Option.toList_none, List.map_nil, List.append_nil]
          exact inv_pieced onDisk fronts saves stage
      | failed n =>
          cases files
          rw [Option.toList_none, List.map_nil, List.append_nil]
          exact inv_disabled onDisk fronts saves stage n

/-- Whatever file-system step the saver takes, and however it goes. -/
theorem inv_filed (laws : C.LogLaws) (onDisk : OnDisk S trace disk file)
    (fronts : Fronts S trace proc front) (saves : Saves S trace disk proc front file)
    (held : proc.saver.stage ≠ .free) : Survives S trace disk proc := by
  cases stage : proc.saver.stage with
  | free => exact absurd stage held
  | stateWrite => exact survives_stateWrite onDisk fronts saves stage
  | stateSync => exact survives_stateSync onDisk fronts saves stage
  | stateRename => exact survives_stateRename laws onDisk fronts saves stage
  | headerWrite digest block => exact survives_headerWrite onDisk fronts saves stage
  | headerSync digest block => exact survives_headerSync onDisk fronts saves stage
  | headerRename digest block => exact survives_headerRename onDisk fronts saves stage
  | reopen digest block => exact survives_reopen onDisk fronts saves stage
  | append written left => exact survives_append laws onDisk fronts saves stage

end Filing

section Runs

variable {S : Setting} {trace shown : List (Label C B)} {d d' : Deployment C B}

/-- No save begins on a server that a failed block has torn, and no start without the restore takes
the journal of another base for its file's own, which has that file's digest. -/
def Untorn : Label C B → Prop
  | .saving _ (some (.applyFailed _ _)) => False
  | .reported server baseBlock _ => baseBlock = server.block
  | _ => True

theorem whole_of_untorn {server : RisePirServer C B} {loop : FollowLoop C B}
    (untorn : Untorn (.saving server loop.stopped)) : ¬ FailedApply loop := by
  rintro ⟨n, e, stopped⟩
  rw [stopped] at untorn
  exact untorn

theorem seed_server (node : NodeState C B) (tail : List BlockDelta) :
    (node.seed tail).server = node.server := by
  induction tail generalizing node with
  | nil => rfl
  | cons d tail ih => exact ih _

theorem restarted_server (S : Setting) (server : RisePirServer C B) (onDiskHeight : Nat)
    (journal : Option JournalWriter) (tailDeltas : List BlockDelta) :
    (Process.restarted S server onDiskHeight journal tailDeltas).server = server := by
  show (NodeState.seedHistory _ tailDeltas).server = server
  rw [NodeState.seedHistory]
  exact seed_server _ _

theorem start_whole (node : NodeState C B) (startAt : Nat) :
    ¬ FailedApply (FollowLoop.start node startAt) := by
  rintro ⟨n, e, stopped⟩
  cases stopped

/-- A process that starts with a server it has built or restored. -/
theorem fronts_started {node : NodeState C B} {server : RisePirServer C B} {phase : Phase}
    {saver : StateSaver} (same : node.server = server) (fine : Fine S.code server)
    (codec : server.valueCodec = S.codec) (reached : .reached server ∈ trace)
    (phase_ne : ∀ delta fetched confirm, phase ≠ .applied delta fetched confirm) :
    Fronts S trace ⟨.start node server.block, phase, saver, false⟩ server :=
  ⟨fun _ => same, rfl, fine, codec, reached, fun _ => start_whole _ _,
    fun _ _ _ here => absurd here (phase_ne _ _ _)⟩

theorem inv_bootstrapped {disk : Disk} {server : RisePirServer C B}
    (onDisk : OnDisk S trace disk none) (codec : server.valueCodec = S.codec)
    (fine : Fine S.code server) (reached : .reached server ∈ trace) :
    Inv S trace ⟨disk, some (.bootstrap S server)⟩ := by
  have durable : Durable trace server.block := by
    cases onDisk with
    | nothing missing unjournalled never =>
        intro _ block stands
        exact absurd (durable_of_standing stands) (never block)
  rw [Process.bootstrap]
  by_cases complete : S.cfg.complete = true
  · rw [if_pos complete]
    have idle : Saves S trace disk ⟨.start (NodeState.new S.keccak256 server
        (.new S.ringCapacity S.ring_pos) S.cfg.complete) server.block, .saving,
        StateSaver.new none none, false⟩ server none := .idle nofun durable rfl nofun nofun
    have quiet : Quiet .stateWrite := trivial
    exact .up onDisk (fronts_started rfl fine codec reached nofun)
      (idle.turned trivial quiet rfl rfl (fun _ _ _ => id) (fun _ => start_whole _ _)
        (by rintro (here | here) <;> cases here))
  · rw [if_neg complete]
    exact .up onDisk (fronts_started rfl fine codec reached nofun)
      (.idle nofun durable rfl nofun nofun)

theorem adoptJournal_some {plaintextBits : Nat} {disk : Disk} {adoptAt : Option (Nat × Nat)}
    {opens : Bool} {writer : JournalWriter}
    (h : adoptJournal plaintextBits disk adoptAt opens = some writer) :
    ∃ endOffset endHeight bytes, adoptAt = some (endOffset, endHeight) ∧ disk.journal = some bytes ∧
      JournalWriter.adopt bytes plaintextBits endOffset endHeight = writer := by
  unfold adoptJournal at h
  split at h
  · rename_i endOffset endHeight bytes here
    exact ⟨endOffset, endHeight, bytes, rfl, here, Option.some.inj h⟩
  · cases h

/-- A process that goes on from a server which the file's own journal leads to, either without a
journal or with that one. -/
theorem inv_started (laws : C.LogLaws) (pir : B.ServerLaws) {disk : Disk}
    {base server : RisePirServer C B} {height onDiskHeight : Nat} (filed : Filed S trace disk base height)
    (durable : Durable trace height) {recs : List (BlockDelta × Nat)} {between : JournalWriter}
    (logged : Logged S trace base recs server between) (behind : Durable trace server.block)
    {journal : Option JournalWriter} (adopted : ∀ writer, journal = some writer →
      writer = between ∧ recs.takeWhile withinCap = recs ∧ server.block = height)
    (tail : List BlockDelta) :
    Inv S trace ⟨disk.adopted journal, some (.restarted S server onDiskHeight journal tail)⟩ := by
  have run := (logged.journalled laws).run
  have codec : server.valueCodec = S.codec := (run.valueCodec laws).trans filed.codec
  have fronts : Fronts S trace (Process.restarted S server onDiskHeight journal tail) server :=
    fronts_started (restarted_server S server onDiskHeight journal tail)
      (logged.fine laws pir filed.fine) codec (logged.reached filed.reached) nofun
  have ahead : ∀ base' height', some (base, height) = some (base', height') →
      ∃ ds, BlockRun base' ds server := by
    intro base' height' at_
    cases at_
    exact ⟨_, run⟩
  cases journal with
  | none => exact .up (.file filed durable) fronts (.idle ahead behind rfl nofun nofun)
  | some writer =>
      obtain ⟨rfl, capped, block⟩ := adopted writer rfl
      have length := logged.length laws
      have own : JournalFor S trace base (some writer.bytes) height := by
        have past : HEADER_LEN ≤ writer.bytes.length := by omega
        have own := JournalFor.own logged past
        have whole := @seen_append S.xxh3 recs []
        rw [List.append_nil, ← length, capped] at whole
        rwa [List.take_length, whole, ← logged.block laws, block] at own
      refine .up (.file ⟨filed.file, filed.fine, filed.codec, filed.reached, own⟩ durable) fronts
        (.idle ahead behind rfl nofun ?_)
      intro w has
      cases has
      refine ⟨base, recs, server, ?_, logged, rfl, .inl rfl⟩
      rw [capped, ← logged.block laws, block]

theorem inv_restarted (loader : S.code.Laws) (rebuilds : S.code.Rebuilds C) (laws : C.LogLaws)
    (pir : B.ServerLaws) {disk : Disk} {file : Option (RisePirServer C B × Nat)} {bytes : List UInt8}
    {restored : RestoredState} {server : RisePirServer C B} {opens : Bool}
    (onDisk : OnDisk S trace disk file) (present : disk.state = some bytes)
    (loads : loadWithJournalRestore B S.code S.xxh3 S.codec S.ringCapacity bytes disk.journal =
      some (.ok restored)) (loaded : LoadedServer.of server = restored.loaded.server)
    (expanded : Expanded server.segments) {journal : Option JournalWriter}
    (adopts : adoptJournal p.plaintextBits disk restored.adoptAt opens = journal) :
    Inv S trace ⟨disk.adopted journal,
      some (.restarted S server restored.baseBlock journal restored.tailDeltas)⟩ := by
  cases onDisk with
  | nothing missing unjournalled never =>
      rw [missing] at present
      cases present
  | @file base height filed durable =>
      obtain ⟨restored', recs, mid, between, comes, block⟩ := filed.comesTo loader rebuilds laws
      have same := comes.loads bytes present
      rw [loads] at same
      cases same
      have fine := comes.logged.fine laws pir filed.fine
      have one : server = mid :=
        eq_of_loaded (loaded.trans (congrArg LoadedState.server comes.loaded)) expanded (expanded_of_wellFormed fine.wellFormed)
      subst one
      refine inv_started laws pir filed durable comes.logged (block ▸ durable) ?_ _
      rintro writer rfl
      obtain ⟨endOffset, endHeight, kept, at_, here, writes⟩ := adoptJournal_some adopts
      obtain ⟨-, kept', here', between'⟩ := comes.adopts endOffset endHeight at_
      obtain rfl := Option.some.inj (here.symm.trans here')
      exact ⟨writes.symm.trans between', comes.capped, block⟩

/-- A start without the restore goes back to the file's own server. -/
theorem inv_reloaded (loader : S.code.Laws) (rebuilds : S.code.Rebuilds C) (laws : C.LogLaws)
    (pir : B.ServerLaws) {disk : Disk} {file : Option (RisePirServer C B × Nat)} {bytes : List UInt8}
    {loaded : LoadedState} {server : RisePirServer C B} {opens : Bool}
    (onDisk : OnDisk S trace disk file) (present : disk.state = some bytes)
    (loads : load S.code S.xxh3 S.codec bytes = some (.ok loaded))
    (same : LoadedServer.of server = loaded.server) (expanded : Expanded server.segments)
    {report : Option (JournalHeader × JournalReportOnly)} {journal : Option JournalWriter}
    (reports : (disk.journal.bind fun bytes =>
      scanReportOnly S.xxh3 bytes loaded.digest p.plaintextBits p.arity) = report)
    (adopts : adoptJournal p.plaintextBits disk (adoptReported server.block report) opens = journal)
    (own : ∀ found, report = some found → found.1.baseBlock = server.block)
    (overlooked : ∀ found, report = some found → found.2.endHeight ≠ server.block →
      Durable trace server.block) :
    Inv S trace ⟨disk.adopted journal, some (.restarted S server server.block journal [])⟩ := by
  cases onDisk with
  | nothing missing unjournalled never =>
      rw [missing] at present
      cases present
  | @file base height filed durable =>
      obtain ⟨server', found⟩ := filed.reports loader rebuilds laws present loads
      obtain ⟨bare, ends⟩ := found report reports
      have one : server = base :=
        eq_of_loaded (same.trans server') expanded (expanded_of_wellFormed filed.fine.wellFormed)
      subst one
      have behind : Durable trace server.block := by
        cases report with
        | none => exact bare rfl ▸ durable
        | some found =>
            obtain ⟨last, -⟩ := ends found.1 found.2 rfl (own found rfl)
            by_cases all : found.2.endHeight = server.block
            · exact (last.symm.trans all) ▸ durable
            · exact overlooked found rfl all
      refine inv_started laws pir filed durable .nil behind ?_ _
      rintro writer rfl
      obtain ⟨endOffset, endHeight, kept, at_, here, writes⟩ := adoptJournal_some adopts
      cases report with
      | none => cases at_
      | some found =>
          rw [adoptReported] at at_
          split_ifs at at_ with all
          cases at_
          obtain ⟨last, adopted⟩ := ends found.1 found.2 rfl (own found rfl)
          obtain ⟨kept', here', journal'⟩ := adopted (last.symm.trans all)
          obtain rfl := Option.some.inj (here.symm.trans here')
          exact ⟨writes.symm.trans journal', rfl, all.symm.trans last⟩

section Steps

variable {disk : Disk} {proc : Process C B} {front : RisePirServer C B}
  {file : Option (RisePirServer C B × Nat)} {loop : FollowLoop C B}

theorem failedApply_congr {l l' : FollowLoop C B} (same : l'.stopped = l.stopped) :
    FailedApply l' ↔ FailedApply l := by
  rw [FailedApply, FailedApply, same]

/-- A step of the loop that leaves the server and the saver. -/
theorem inv_looped (onDisk : OnDisk S trace disk file) (fronts : Fronts S trace proc front)
    (saves : Saves S trace disk proc front file) (server : loop.node.server = proc.server)
    (last : loop.last = proc.loop.last) (stopped : loop.stopped = proc.loop.stopped) :
    Inv S trace ⟨disk, some { proc with loop }⟩ :=
  .up onDisk (fronts.follow server last (failedApply_congr stopped) id fun _ _ _ => id)
    (saves.follow rfl (fun _ _ _ => id) fun _ => (failedApply_congr stopped).mp)

/-- The loop applies a fetched block. -/
theorem inv_applied (laws : C.LogLaws) (pir : B.ServerLaws) (onDisk : OnDisk S trace disk file)
    (fronts : Fronts S trace proc front) (saves : Saves S trace disk proc front file)
    {fetched : FetchedBlock} {rng : C.Rng} {confirm : ConfirmSource} {delta : BlockDelta}
    (top : proc.phase = .top) (running : proc.loop.stopped = none)
    (unlocked : ¬ proc.saver.stage.Reads)
    (applies : proc.loop.applyFetched S.cfg rng fetched.update = (loop, some delta))
    (word : loop.node.server.block < 2 ^ 64) (items : loop.node.server.store.numItems < 2 ^ 64)
    (reached : .reached loop.node.server ∈ trace) :
    Inv S trace ⟨disk, some { proc with loop, phase := .applied delta fetched confirm }⟩ := by
  have unfailed : ∀ l : FollowLoop C B, l.stopped = none → ¬ FailedApply l := by
    rintro l none ⟨n, e, stopped⟩
    rw [none] at stopped
    cases stopped
  obtain ⟨update, report, block, step, -, last, stopped⟩ := applyFetched_some applies
  have server : proc.loop.node.server = front := fronts.server (unfailed _ running)
  rw [server] at step
  rw [fronts.last] at block last
  have applied : Applied front delta loop.node.server := ⟨⟨rng, update, report, block, step⟩, word, items⟩
  obtain ⟨published, -, next⟩ := applied.published laws
  refine .up onDisk ⟨fun _ => rfl, last.trans next.symm, applied.fine laws pir fronts.fine,
    published.codec.trans fronts.codec, reached, fun _ => unfailed loop (stopped.trans running), ?_⟩
    (saves.applied top unlocked laws applied)
  intro delta' fetched' confirm' here
  cases here
  exact ⟨front, applied⟩

/-- A fetched block is refused or fails: the loop has stopped. -/
theorem inv_failed (onDisk : OnDisk S trace disk file) (fronts : Fronts S trace proc front)
    (saves : Saves S trace disk proc front file) {update : BlockUpdate} {rng : C.Rng}
    (top : proc.phase = .top) (running : proc.loop.stopped = none)
    (unlocked : ¬ proc.saver.stage.Reads)
    (applies : proc.loop.applyFetched S.cfg rng update = (loop, none)) :
    Inv S trace ⟨disk, some { proc with loop }⟩ := by
  have unfailed : ¬ FailedApply proc.loop := by
    rintro ⟨n, e, stopped⟩
    rw [running] at stopped
    cases stopped
  obtain ⟨last, -, torn | same⟩ := applyFetched_none applies
  all_goals
    refine .up onDisk ⟨fun whole => ?_, last.trans fronts.last, fronts.fine, fronts.codec,
      fronts.reached, fun busy => absurd top busy, fun delta fetched confirm here => ?_⟩
      (saves.follow rfl (fun _ _ _ => id) fun reading => absurd reading unlocked)
  · exact absurd torn whole
  · rw [top] at here
    cases here
  · exact (congrArg NodeState.server same).trans (fronts.server unfailed)
  · rw [top] at here
    cases here

theorem inv_appending (laws : C.LogLaws) (onDisk : OnDisk S trace disk file)
    (fronts : Fronts S trace proc front) (saves : Saves S trace disk proc front file)
    {delta : BlockDelta} {fetched : FetchedBlock} {confirm : ConfirmSource}
    (phase : proc.phase = .applied delta fetched confirm) (free : proc.saver.stage = .free)
    (recording : (proc.appendDelta S).saver.stage ≠ .free →
      .recording proc.server (delta, proc.server.store.numItems) ∈ trace) :
    Inv S trace ⟨disk, some (proc.appendDelta S)⟩ := by
  have loop : (proc.appendDelta S).loop = proc.loop := by rw [Process.appendDelta, phase]
  have kept : (proc.appendDelta S).phase = .journalled fetched confirm ∨
      (proc.appendDelta S).phase = proc.phase := by
    rw [Process.appendDelta, phase]
    dsimp only
    split_ifs
    · exact .inl rfl
    · exact .inr rfl
  refine .up onDisk (fronts.follow ?_ ?_ ?_ (fun _ => ?_) ?_)
    (saves.appended laws fronts phase free recording)
  · rw [Process.server, loop]
    rfl
  · rw [loop]
  · rw [loop]
  · rw [phase]
    simp
  · intro delta' fetched' confirm' here
    rcases kept with other | same
    · rw [other] at here
      cases here
    · rwa [same] at here

theorem inv_checked (onDisk : OnDisk S trace disk file) (fronts : Fronts S trace proc front)
    (saves : Saves S trace disk proc front file) {fetched : FetchedBlock} {confirm : ConfirmSource}
    (phase : proc.phase = .journalled fetched confirm)
    (checks : proc.loop.checkpoint S.addressKey S.cfg confirm fetched.changed fetched.credited =
      loop) : Inv S trace ⟨disk, some { proc with loop, phase := .top }⟩ := by
  have whole : ¬ FailedApply proc.loop := fronts.whole (by rw [phase]; nofun)
  have kept : loop.node = proc.loop.node ∧ loop.last = proc.loop.last ∧
      (loop.stopped = proc.loop.stopped ∨ ∃ cause, loop.stopped = some (.reconciled cause)) := by
    rw [← checks]
    exact checkpoint_stopped S.addressKey S.cfg confirm proc.loop _ _
  obtain ⟨node, last, stopped⟩ := kept
  have whole' : ¬ FailedApply loop := by
    rcases stopped with same | ⟨cause, halted⟩
    · exact fun failed => whole ((failedApply_congr same).mp failed)
    · rintro ⟨n, e, failed⟩
      rw [halted] at failed
      cases failed
  refine .up onDisk (fronts.follow (congrArg NodeState.server node) last (iff_of_false whole' whole)
    (fun busy => absurd rfl busy) nofun) (saves.follow rfl (fun delta fetched confirm here => ?_)
      fun _ failed => absurd failed whole')
  rw [phase] at here
  cases here

/-- The loop's save, which may not be due. -/
theorem inv_due (onDisk : OnDisk S trace disk file) (fronts : Fronts S trace proc front)
    (saves : Saves S trace disk proc front file) {elapsed : Bool} (top : proc.phase = .top)
    (running : proc.loop.stopped = none) (free : proc.saver.stage = .free) :
    Inv S trace ⟨disk, some (proc.maybeSave S elapsed)⟩ := by
  have unfailed : ¬ FailedApply proc.loop := by
    rintro ⟨n, e, stopped⟩
    rw [running] at stopped
    cases stopped
  have saver : (proc.maybeSave S elapsed).saver = proc.saver ∨
      (proc.maybeSave S elapsed).saver = { proc.saver with stage := .stateWrite } := by
    show proc.saver.maybeSave S.saveInterval elapsed proc.server.block = _ ∨
      proc.saver.maybeSave S.saveInterval elapsed proc.server.block = _
    rw [StateSaver.maybeSave, StateSaver.saveWith]
    split_ifs
    all_goals first | exact .inl rfl | exact .inr rfl
  have phase : ∀ delta fetched confirm, (proc.maybeSave S elapsed).phase ≠
      .applied delta fetched confirm := by
    intro delta fetched confirm here
    dsimp only [Process.maybeSave] at here
    split_ifs at here
  have idle : ∀ delta fetched confirm, proc.phase = .applied delta fetched confirm →
      (proc.maybeSave S elapsed).phase = .applied delta fetched confirm := by
    intro delta fetched confirm here
    rw [top] at here
    cases here
  refine .up onDisk ⟨fun _ => fronts.server unfailed, fronts.last, fronts.fine, fronts.codec,
    fronts.reached, fun _ => unfailed, fun _ _ _ here => absurd here (phase _ _ _)⟩ ?_
  rcases saver with same | began
  · exact saves.follow same idle fun _ failed => failed
  · have quiet : Quiet .stateWrite := trivial
    exact saves.turned (.of_free free) quiet rfl began idle (fun _ => unfailed)
      (by rintro (here | here) <;> cases here)

/-- The shutdown task's save. -/
theorem inv_shutdown (onDisk : OnDisk S trace disk file) (fronts : Fronts S trace proc front)
    (saves : Saves S trace disk proc front file) (free : proc.saver.stage = .free)
    (whole : ¬ FailedApply proc.loop) : Inv S trace ⟨disk, some proc.shutdown⟩ := by
  have quiet : Quiet .stateWrite := trivial
  have forced : proc.shutdown.saver = { proc.saver with stage := .stateWrite } := by
    show proc.saver.saveWith proc.server.block true = _
    rw [StateSaver.saveWith, if_neg (by simp)]
  exact .up onDisk (fronts.follow rfl rfl .rfl id fun _ _ _ => id)
    (saves.turned (.of_free free) quiet rfl forced (fun _ _ _ => id) (fun _ => whole)
      (by rintro (here | here) <;> cases here))

end Steps

/-- What one step of the deployment preserves. -/
theorem inv_step (loader : S.code.Laws) (rebuilds : S.code.Rebuilds C) (laws : C.LogLaws)
    (pir : B.ServerLaws) (inv : Inv S trace d) (taken : Step S d shown d')
    (untorn : ∀ l ∈ shown, Untorn l) : Inv S (trace ++ shown) d' := by
  have grown : (∀ block, .durable block ∉ shown) → Inv S (trace ++ shown) d := inv.mono
  cases taken with
  | bootstrapped missing codec fine =>
      cases grown (by intro block; split_ifs <;> simp) with
      | down onDisk =>
          cases onDisk with
          | nothing state journal never =>
              exact inv_bootstrapped (.nothing state journal never) codec fine
                (List.mem_append_right _ List.mem_cons_self)
          | file filed durable =>
              rw [filed.file] at missing
              cases missing
  | restarted present loads loaded expanded adopts =>
      cases grown (by simp) with
      | down onDisk =>
          exact inv_restarted loader rebuilds laws pir onDisk present loads loaded expanded adopts
  | @reloaded disk bytes loaded server opens present loads same expanded report journal reports adopts =>
      have silent : ∀ block, .durable block ∉ .reached server :: report.toList.map fun found =>
          (.reported server found.1.baseBlock found.2.endHeight : Label C B) := by
        simp
      have shows : ∀ found, report = some found →
          .reported server found.1.baseBlock found.2.endHeight ∈ .reached server ::
            report.toList.map fun found =>
              (.reported server found.1.baseBlock found.2.endHeight : Label C B) := by
        rintro found rfl
        simp
      cases grown silent with
      | down onDisk =>
          exact inv_reloaded loader rebuilds laws pir onDisk present loads same expanded reports adopts
            (fun found at_ => untorn _ (shows found at_))
            fun found at_ ahead => durable_overlooked silent ⟨_, shows found at_, ahead⟩
  | heard quiet =>
      cases grown (by simp) with
      | up onDisk fronts saves =>
          obtain ⟨node, last, stopped⟩ := step_heard quiet
          exact inv_looped onDisk fronts saves (congrArg NodeState.server node) last stopped
  | applied top running behind unlocked applies word items =>
      cases grown (by simp) with
      | up onDisk fronts saves =>
          exact inv_applied laws pir onDisk fronts saves top running unlocked applies word items
            (List.mem_append_right _ List.mem_cons_self)
  | failed top running behind unlocked applies =>
      cases grown (by simp) with
      | up onDisk fronts saves =>
          exact inv_failed onDisk fronts saves top running unlocked applies
  | appending phase free =>
      cases grown (by intro block; split_ifs <;> simp) with
      | up onDisk fronts saves =>
          refine inv_appending laws onDisk fronts saves phase free fun busy => ?_
          rw [if_neg busy]
          exact List.mem_append_right _ List.mem_cons_self
  | checked phase checks =>
      cases grown (by simp) with
      | up onDisk fronts saves => exact inv_checked onDisk fronts saves phase checks
  | due top running free =>
      cases grown (by intro block; split_ifs <;> simp) with
      | up onDisk fronts saves => exact inv_due onDisk fronts saves top running free
  | shutdown first free =>
      have whole := whole_of_untorn (untorn _ List.mem_cons_self)
      cases grown (by simp) with
      | up onDisk fronts saves => exact inv_shutdown onDisk fronts saves free whole
  | filed held files =>
      cases inv with
      | up onDisk fronts saves => exact inv_filed laws onDisk fronts saves held _ _ _ files
  | servedDelta answers =>
      cases grown (by simp) with
      | up onDisk fronts saves => exact .up onDisk fronts saves
  | servedSync answers =>
      cases grown (by simp) with
      | up onDisk fronts saves => exact .up onDisk fronts saves
  | @servedSetup disk proc node body epoch block answers =>
      cases grown (by simp) with
      | up onDisk fronts saves =>
          have same : proc.loop.node.setupBytes.1 = node := congrArg Prod.fst answers
          have server := setupBytes_server proc.loop.node
          rw [same] at server
          exact inv_looped onDisk fronts saves server rfl rfl
  | crashed =>
      cases grown (by simp) with
      | up onDisk fronts saves => exact .down onDisk

/-- The invariant of every run without a save of a torn server. -/
theorem inv_run (loader : S.code.Laws) (rebuilds : S.code.Rebuilds C) (laws : C.LogLaws)
    (pir : B.ServerLaws) (run : Run (Step S) .fresh trace d) (untorn : ∀ l ∈ trace, Untorn l) :
    Inv S trace d := by
  apply (run.within untorn).invariant
  · exact .down (.nothing rfl rfl fun _ => List.not_mem_nil)
  · intro trace s shown s' inv step
    exact inv_step loader rebuilds laws pir inv step.1 step.2

/-- What a restore of the disk amounts to: a server of the run, with what had been recorded since the
state file's own, and no block lost that was durable. -/
structure Recovers (S : Setting) (trace : List (Label C B)) (file : List UInt8)
    (restored : RestoredState) (base server : RisePirServer C B) (recs : List (BlockDelta × Nat)) :
    Prop where
  alone : load S.code S.xxh3 S.codec file =
    some (.ok ⟨.of base, S.cfg.complete, restored.loaded.digest⟩)
  complete : restored.loaded.complete = S.cfg.complete
  loaded : restored.loaded.server = .of server
  reached : .reached base ∈ trace ∧ .reached server ∈ trace
  fine : Fine S.code server
  run : BlockRun base (recs.map Prod.fst) server
  recorded : ∀ rec ∈ recs, ∃ s, .recording s rec ∈ trace
  replayed : restored.baseBlock = base.block ∧ restored.replayed = recs.length
  tail : restored.tailDeltas = lastOf S.ringCapacity (recs.map Prod.fst)
  durable : (∀ s rec, .recording s rec ∈ trace → withinCap rec = true) →
    ∀ block, Standing trace block → block ≤ server.block

/-- Whatever the deployment has gone through, what is on its disk is restored to a server that it was
live with, and not before the last block that a save or an append has made durable. -/
theorem crash_safe (loader : S.code.Laws) (rebuilds : S.code.Rebuilds C) (laws : C.LogLaws)
    (pir : B.ServerLaws) (run : Run (Step S) .fresh trace d) (untorn : ∀ l ∈ trace, Untorn l) :
    (∀ block, .durable block ∈ trace → d.disk.state ≠ none) ∧
      ∀ file, d.disk.state = some file → ∃ restored base server recs,
        loadWithJournalRestore B S.code S.xxh3 S.codec S.ringCapacity file d.disk.journal =
          some (.ok restored) ∧
        Recovers S trace file restored base server recs := by
  have onDisk : ∃ file, OnDisk S trace d.disk file := by
    cases inv_run loader rebuilds laws pir run untorn with
    | down onDisk => exact ⟨_, onDisk⟩
    | up onDisk fronts saves => exact ⟨_, onDisk⟩
  obtain ⟨kept, onDisk⟩ := onDisk
  cases onDisk with
  | nothing missing unjournalled never =>
      refine ⟨fun block mem => absurd mem (never block), fun file present => ?_⟩
      rw [missing] at present
      cases present
  | @file base height filed durable =>
      refine ⟨fun _ _ missing => ?_, fun file present => ?_⟩
      · rw [filed.file] at missing
        cases missing
      · obtain ⟨restored, recs, server, w, comes, block⟩ := filed.comesTo loader rebuilds laws
        have alone : load S.code S.xxh3 S.codec file =
            some (.ok ⟨.of base, S.cfg.complete, restored.loaded.digest⟩) := by
          obtain rfl := Option.some.inj (filed.file.symm.trans present)
          rw [comes.loaded, ← filed.codec]
          exact load_saved loader rebuilds filed.fine _
        refine ⟨restored, base, server, recs, comes.loads file present, alone,
          congrArg LoadedState.complete comes.loaded, congrArg LoadedState.server comes.loaded,
          ⟨filed.reached, comes.logged.reached filed.reached⟩, comes.logged.fine laws pir filed.fine,
          (comes.logged.journalled laws).run, comes.logged.recorded,
          ⟨comes.baseBlock, comes.replayed⟩, comes.tail, fun capped n stands => ?_⟩
        rw [block]
        exact durable capped n stands

/-- A complete deployment on two segments, which saves when it has built its server. -/
def crashSetting : Setting where
  cfg := ⟨true, 0, 0⟩
  codec := smallCodec
  saveInterval := 0
  ringCapacity := 64
  ring_pos := by decide
  addressKey := fun addr => addr.zeroExtend 256
  keccak256 := id
  xxh3 := fun _ => 0
  code := referenceLoader

theorem freshServer_fine : Fine referenceLoader (freshServer ownParams rfl) := by
  obtain ⟨wellFormed, hints⟩ := @new_hintsMatch _ (referenceTable ownParams) _ serverLaws
    (emptyStore ownParams) ⟨1, 1⟩ (fun j => ⟨BitVec.ofNat 128 j, []⟩) smallCodec 7 rfl
  exact ⟨wellFormed, hints, by decide, freshServer_storable, ownLineage rfl (by decide) rfl rfl rfl⟩

theorem step_filed (S : Setting) (disk : Disk) (proc : Process C B) (outcome : Outcome)
    (held : proc.saver.stage ≠ .free) :
    Step S ⟨disk, some proc⟩ ((durableBlock proc.server proc.saver outcome).toList.map .durable)
      ⟨(fileStep S.xxh3 S.codec S.cfg.complete proc.server disk proc.saver outcome).1,
        some (proc.filed
          (fileStep S.xxh3 S.codec S.cfg.complete proc.server disk proc.saver outcome).2)⟩ :=
  .filed held rfl

/-- The process dies while it writes the header of its first journal. -/
theorem rotation_crash : ∃ (d : Deployment (referenceTable ownParams) referencePir)
    (trace : List (Label (referenceTable ownParams) referencePir)),
    Run (Step crashSetting) .fresh trace d ∧ (∀ l ∈ trace, Untorn l ∧ ¬ Overlooks l) ∧
      d.process = none ∧ .durable 7 ∈ trace := by
  have started : Step crashSetting (.fresh : Deployment (referenceTable ownParams) referencePir) _ _ :=
    .bootstrapped rfl rfl freshServer_fine
  have written := Run.step (.single started) (step_filed crashSetting _ _ .done nofun)
  have synced := Run.step written (step_filed crashSetting _ _ .done nofun)
  have renamed := Run.step synced (step_filed crashSetting _ _ .done nofun)
  have torn := Run.step renamed (step_filed crashSetting _ _ (.failed 3) nofun)
  have crashed := Run.step torn .crashed
  refine ⟨_, [.reached (freshServer ownParams rfl), .saving (freshServer ownParams rfl) none,
    .durable 7], crashed, ?_, rfl, ?_⟩
  · intro l mem
    rcases List.mem_cons.mp mem with rfl | mem
    · exact ⟨trivial, id⟩
    · rcases List.mem_cons.mp mem with rfl | mem
      · exact ⟨trivial, id⟩
      · obtain rfl := List.mem_singleton.mp mem
        exact ⟨trivial, id⟩
  · simp

theorem crash_safe_rotation : ∃ (d : Deployment (referenceTable ownParams) referencePir)
    (trace : List (Label (referenceTable ownParams) referencePir)),
    Run (Step crashSetting) .fresh trace d ∧ d.process = none ∧ Standing trace 7 ∧
      (∀ block, .durable block ∈ trace → d.disk.state ≠ none) ∧
      ∀ file, d.disk.state = some file → ∃ restored base server recs,
        loadWithJournalRestore referencePir crashSetting.code crashSetting.xxh3 crashSetting.codec
          crashSetting.ringCapacity file d.disk.journal = some (.ok restored) ∧
        Recovers crashSetting trace file restored base server recs := by
  obtain ⟨d, trace, run, labels, dead, durable⟩ := rotation_crash
  exact ⟨d, trace, run, dead, standing_of_durable (fun l mem => (labels l mem).2) durable,
    crash_safe referenceLoader_laws (referenceLoader_rebuilds _) (logLaws _) serverLaws run
      fun l mem => (labels l mem).1⟩

end Runs

end RisePir.Rpc.CrashSafety
