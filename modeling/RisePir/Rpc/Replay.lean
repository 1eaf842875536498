import Mathlib.Data.List.TakeWhile
import RisePir.Rpc.Restore
import RisePir.Server.Filling

set_option autoImplicit false
set_option relaxedAutoImplicit false

/-! Replay against the live run. A restore ends in the state that the live server had behind the last
record that the reader takes, which is the last one as long as no record is beyond the reader's
cap: the writer does not check it. -/

namespace RisePir.Rpc.Replay

open RisePir.Lib.Digits
open RisePir.Lib.FlatMatrix
open RisePir.Lib.Sparse
open RisePir.Proto.Codec
open RisePir.Proto.Types
open RisePir.Proto.Value
open RisePir.Proto.Varint
open RisePir.Upstream.Cuckoo
open RisePir.Upstream.Pir
open RisePir.Upstream.ReferencePir
open RisePir.Upstream.ReferenceTable
open RisePir.Upstream.Slots
open RisePir.Server.Small
open RisePir.Server.Filling
open RisePir.Server.Core
open RisePir.Server.CellDelta
open RisePir.Server.Run
open RisePir.Server.Telescope
open RisePir.Http.Setup
open RisePir.Http.Wire
open RisePir.Rpc.Journal
open RisePir.Rpc.Restore
open RisePir.Rpc.State
open RisePir.Rpc.StateFile

variable {p : CuckooParams} {C : SegmentedCuckoo p} {B : PirBackend}
  {code : LoaderCode} {xxh3 : List UInt8 → BitVec 64}

/-- A live run whose blocks are appended to a journal, each with its item count; both are words. -/
inductive Journalled (xxh3 : List UInt8 → BitVec 64) : RisePirServer C B → JournalWriter →
    List (BlockDelta × Nat) → RisePirServer C B → JournalWriter → Prop
  | nil (s : RisePirServer C B) (w : JournalWriter) : Journalled xxh3 s w [] s w
  | cons {rng : C.Rng} {s s₁ s₂ : RisePirServer C B} {w w₁ w₂ : JournalWriter}
      {update : BlockUpdate} {delta : BlockDelta} {report : BlockApplyReport}
      {recs : List (BlockDelta × Nat)} (next : update.block = s.block + 1)
      (step : s.applyBlockReporting rng update = (s₁, .ok (delta, report)))
      (word : delta.block < 2 ^ 64) (items : s₁.store.numItems < 2 ^ 64)
      (appended : w.append xxh3 delta s₁.store.numItems = .ok w₁)
      (rest : Journalled xxh3 s₁ w₁ recs s₂ w₂) :
      Journalled xxh3 s w ((delta, s₁.store.numItems) :: recs) s₂ w₂

theorem append_ok {w w' : JournalWriter} {delta : BlockDelta} {numItems : Nat}
    (h : w.append xxh3 delta numItems = .ok w') : delta.block = w.last + 1 ∧
      (encodeBlockDelta delta).length < 2 ^ 32 ∧
      w' = { w with bytes := w.bytes ++ recordBytes xxh3 delta numItems, last := delta.block } := by
  rw [JournalWriter.append] at h
  split_ifs at h with gap long
  exact ⟨not_not.mp gap, Nat.lt_of_not_le long, (Except.ok.inj h).symm⟩

namespace Journalled

variable {s s' : RisePirServer C B} {w w' : JournalWriter} {recs : List (BlockDelta × Nat)}

theorem run (h : Journalled xxh3 s w recs s' w') : BlockRun s (recs.map Prod.fst) s' := by
  induction h with
  | nil s w => exact .nil s
  | cons next step word items appended rest ih => exact .cons next step ih

theorem bytes (h : Journalled xxh3 s w recs s' w') : w'.bytes = w.bytes ++ recordsBytes xxh3 recs := by
  induction h with
  | nil s w => rw [recordsBytes, List.flatMap_nil, List.append_nil]
  | cons next step word items appended rest ih =>
      obtain ⟨-, -, written⟩ := append_ok appended
      rw [ih, written, recordsBytes, recordsBytes, List.flatMap_cons, List.append_assoc]

theorem numbered (laws : C.LogLaws) (h : Journalled xxh3 s w recs s' w') :
    Numbered (s.block + 1) recs := by
  induction h with
  | nil s w => trivial
  | cons next step word items appended rest ih =>
      obtain ⟨published, block⟩ := apply_published laws step
      refine ⟨block.trans next, ?_⟩
      rwa [published.head, block, next] at ih

theorem lengths (h : Journalled xxh3 s w recs s' w') :
    ∀ rec ∈ recs, (encodeBlockDelta rec.1).length < 2 ^ 32 := by
  induction h with
  | nil s w => intro rec mem; cases mem
  | cons next step word items appended rest ih =>
      intro rec mem
      rcases List.mem_cons.mp mem with rfl | mem
      · exact (append_ok appended).2.1
      · exact ih rec mem

theorem journalable (laws : C.LogLaws) (h : Journalled xxh3 s w recs s' w') {r : JournalReader}
    (bits : r.plaintextBits = p.plaintextBits) (arity : r.arity = p.arity) :
    ∀ rec ∈ recs, Journalable r rec.1 rec.2 := by
  induction h with
  | nil s w => intro rec mem; cases mem
  | cons next step word items appended rest ih =>
      intro rec mem
      rcases List.mem_cons.mp mem with rfl | mem
      · have fits := (apply_published laws step).1.fits
        refine ⟨?_, (append_ok appended).2.1, items⟩
        rw [bits, arity]
        exact fits.decode_encode word
      · exact ih rec mem

/-- A journalled run passes through a server behind each of its records. -/
theorem split (h : Journalled xxh3 s w recs s' w') (k : Nat) :
    ∃ mid between, Journalled xxh3 s w (recs.take k) mid between ∧
      Journalled xxh3 mid between (recs.drop k) s' w' := by
  induction h generalizing k with
  | nil s w => exact ⟨s, w, by rw [List.take_nil]; exact .nil s w, by rw [List.drop_nil]; exact .nil s w⟩
  | @cons rng s s₁ s₂ w w₁ w₂ update delta report recs next step word items appended rest ih =>
      cases k with
      | zero => exact ⟨s, w, .nil s w, .cons next step word items appended rest⟩
      | succ k =>
          obtain ⟨mid, between, first, second⟩ := ih k
          exact ⟨mid, between, .cons next step word items appended first, second⟩

end Journalled

section Replaying

/-- The raw state is what a state file of the server would hold. -/
structure Holds (s : RisePirServer C B) (raw : RawState) : Prop where
  cells : raw.cells = s.store.cells
  setup : raw.setup = .of s.setup
  items : raw.numItems = s.store.numItems

/-- Every segment's material is the expansion of its parameters. -/
def Expanded (segments : List (SegmentState B)) : Prop :=
  ∀ seg ∈ segments, seg.material = B.expandHintMaterial seg.params

theorem patchHints_segments {segments : List (SegmentState B)} (expanded : Expanded segments)
    {deltas : List SegmentRowDeltas} (length : deltas.length = segments.length) :
    patchHints B ((segments.map SegmentState.params).zip
        ((segments.map SegmentState.params).map B.expandHintMaterial))
      (segments.map SegmentState.hint) deltas =
      (patchSegments segments deltas).map SegmentState.hint := by
  induction segments generalizing deltas with
  | nil => cases deltas <;> rfl
  | cons seg segments ih =>
      cases deltas with
      | nil => cases length
      | cons d deltas =>
          have material := expanded seg List.mem_cons_self
          have later := ih (fun seg' mem => expanded seg' (List.mem_cons_of_mem seg mem))
            (Nat.succ.inj length)
          have here : (if d.isEmpty then seg.hint else
              B.serverPatchHint seg.params (B.expandHintMaterial seg.params) seg.hint d) =
                (patchSegment seg d).hint := by
            rw [patchSegment, ← material]
            split <;> rfl
          simp only [List.map_cons, List.zip_cons_cons, patchHints, later, here, patchSegments,
            List.zipWith_cons_cons]

theorem patchSegments_expanded {segments : List (SegmentState B)} (expanded : Expanded segments)
    (deltas : List SegmentRowDeltas) : Expanded (patchSegments segments deltas) := by
  intro seg mem
  rw [patchSegments, List.mem_iff_getElem] at mem
  obtain ⟨i, hi, rfl⟩ := mem
  rw [List.length_zipWith] at hi
  have inside : i < segments.length := by omega
  rw [List.getElem_zipWith]
  have here := expanded segments[i] (List.getElem_mem inside)
  rw [patchSegment]
  split
  · exact here
  · exact here

/-- The last deltas that a ring of the capacity keeps. -/
def lastOf (capacity : Nat) (deltas : List BlockDelta) : List BlockDelta :=
  deltas.drop (deltas.length - capacity)

theorem lastOf_nil (capacity : Nat) : lastOf capacity [] = [] := List.drop_nil

theorem lastOf_append (capacity : Nat) (deltas : List BlockDelta) (d : BlockDelta) :
    lastOf capacity (lastOf capacity deltas ++ [d]) = lastOf capacity (deltas ++ [d]) := by
  rw [lastOf, lastOf, lastOf, ← List.drop_append_of_le_length (Nat.sub_le _ _), List.drop_drop]
  congr 1
  simp only [List.length_drop, List.length_append, List.length_singleton]
  omega

/-- The setup behind a published block. -/
theorem setup_published {s s' : RisePirServer C B} {d : BlockDelta} (published : Published s s' d) :
    RawSetup.of s'.setup = { RawSetup.of s.setup with
      hints := (patchSegments s.segments d.perSegment).map SegmentState.hint
      block := d.block } := by
  rw [RawSetup.of, RawSetup.of, RisePirServer.setup, RisePirServer.setup]
  simp only [params_published published, published.head]
  rw [published.segments]

/-- One record brings what held the server before its block to what holds the server behind it. -/
theorem replayRecord_ok (laws : code.Laws) {s s' : RisePirServer C B} {d : BlockDelta}
    (published : Published s s' d) (expanded : Expanded s.segments) {r : Replay} (holds : Holds s r.raw)
    {rec : ScanRecord} (appended : rec.appended = (d, s'.store.numItems)) (capacity : Nat) :
    ∃ raw, replayRecord B code capacity
        ((s.segments.map SegmentState.params).map B.expandHintMaterial) r rec =
          .ok ⟨raw, r.replayed + 1, lastOf capacity (r.tail ++ [d])⟩ ∧
      Holds s' raw ∧ raw.complete = r.raw.complete ∧ raw.digest = r.raw.digest := by
  obtain ⟨rfl, items⟩ := Prod.mk.inj appended
  have cells : applyDeltaInPlace code (.of p) r.raw.cells rec.delta = .ok s'.store.cells := by
    rw [holds.cells]
    exact applyDeltaInPlace_ok laws published.fits published.moved s.store.cells_length
      s'.store.cells_length fun _ _ _ => cellOf_lt s'.store
  have params : r.raw.setup.params = .of p := congrArg RawSetup.params holds.setup
  have hints := patchHints_segments expanded
    (published.fits.segments.trans s.segments_length.symm)
  have backend : r.raw.setup.backendParams = s.segments.map SegmentState.params :=
    congrArg RawSetup.backendParams holds.setup
  have before : r.raw.setup.hints = s.segments.map SegmentState.hint :=
    congrArg RawSetup.hints holds.setup
  rw [replayRecord, params, cells, backend, before, hints]
  refine ⟨_, rfl, ⟨rfl, ?_, items⟩, rfl, rfl⟩
  rw [setup_published published, holds.setup]

/-- The records of a journalled run, replayed over what held its first server. -/
theorem replay_ok (laws : code.Laws) (logLaws : C.LogLaws) {s s' : RisePirServer C B}
    {w w' : JournalWriter} {recs : List (BlockDelta × Nat)} (run : Journalled xxh3 s w recs s' w')
    (expanded : Expanded s.segments) {r : Replay} (holds : Holds s r.raw) {capacity : Nat}
    {seen : List BlockDelta} (tail : r.tail = lastOf capacity seen) {out : List ScanRecord}
    (appended : out.map ScanRecord.appended = recs) {material : List B.Material}
    (expansion : material = (s.segments.map SegmentState.params).map B.expandHintMaterial) :
    ∃ r', out.foldlM (replayRecord B code capacity material) r = .ok r' ∧ Holds s' r'.raw ∧
      r'.raw.complete = r.raw.complete ∧ r'.raw.digest = r.raw.digest ∧
      r'.replayed = r.replayed + recs.length ∧
      r'.tail = lastOf capacity (seen ++ recs.map Prod.fst) := by
  induction run generalizing r seen out with
  | nil s w =>
      obtain rfl := List.map_eq_nil_iff.mp appended
      exact ⟨r, rfl, holds, rfl, rfl, rfl, by rw [List.map_nil, List.append_nil, tail]⟩
  | @cons rng s s₁ s₂ w w₁ w₂ update delta report recs next step word items written rest ih =>
      obtain ⟨rec, out, rfl, here, later⟩ := List.map_eq_cons_iff.mp appended
      have published := (apply_published logLaws step).1
      obtain ⟨raw, one, holds', complete, digest⟩ := replayRecord_ok laws published expanded holds here
        capacity
      rw [← expansion] at one
      have expanded' : Expanded s₁.segments := by
        rw [published.segments]
        exact patchSegments_expanded expanded _
      have tail' : lastOf capacity (r.tail ++ [delta]) = lastOf capacity (seen ++ [delta]) := by
        rw [tail, lastOf_append]
      obtain ⟨r', fold, final, complete', digest', count, last⟩ := ih expanded'
        (r := ⟨raw, r.replayed + 1, lastOf capacity (r.tail ++ [delta])⟩) holds' tail' later
        (expansion.trans (by rw [params_published published]))
      refine ⟨r', ?_, final, complete'.trans complete, digest'.trans digest, ?_, ?_⟩
      · rw [List.foldlM_cons, one]
        exact fold
      · rw [count, List.length_cons]
        show r.replayed + 1 + recs.length = r.replayed + (recs.length + 1)
        omega
      · rw [last, List.map_cons, List.append_assoc]
        rfl

end Replaying

section Restoring

/-- A restore that comes to a server over deltas, the last of which it hands on. -/
def Restores (B : PirBackend) (code : LoaderCode) (xxh3 : List UInt8 → BitVec 64) (codec : ValueCodec)
    (capacity : Nat) (file journal : List UInt8) (server : LoadedServer) (deltas : List BlockDelta) :
    Prop :=
  ∃ restored, loadWithJournalRestore B code xxh3 codec capacity file (some journal) =
      some (.ok restored) ∧
    restored.loaded.server = server ∧ restored.replayed = deltas.length ∧
    restored.tailDeltas = lastOf capacity deltas

variable {s s' : RisePirServer C B} {complete : Bool} {capacity : Nat}

/-- A state file whose journal is missing, unreadable or another base's is loaded as it stands. -/
theorem restore_unopened (loader : code.Laws) (rebuilds : code.Rebuilds C)
    (valid : s.valueCodec.ValidWidths) (storable : Storable s)
    (lineage : OwnLineage code s.valueCodec (.of p)) {journal : Option (List UInt8)}
    (unopened : openedFor xxh3 (rawOf xxh3 s complete) journal = none) :
    loadWithJournalRestore B code xxh3 s.valueCodec capacity (save xxh3 s s.valueCodec complete)
        journal =
      some (.ok ⟨⟨.of s, complete, saveDigest xxh3 s s.valueCodec complete⟩, 0, s.block, [], none,
        none⟩) := by
  rw [loadWithJournalRestore, parseRaw_save loader valid storable lineage]
  dsimp only
  rw [unopened]
  dsimp only
  rw [finish, assemble_parts loader rebuilds rfl rfl rfl]
  rfl

/-- A state file with its own journal is loaded as the server behind the last record that the
reader takes. -/
theorem restore_opened (loader : code.Laws) (rebuilds : code.Rebuilds C) (laws : C.LogLaws)
    (valid : s.valueCodec.ValidWidths) (storable : Storable s)
    (lineage : OwnLineage code s.valueCodec (.of p)) (expanded : Expanded s.segments)
    {w w' : JournalWriter} {recs : List (BlockDelta × Nat)} (run : Journalled xxh3 s w recs s' w')
    {journal : Option (List UInt8)} {reader : JournalReader}
    (opened : openedFor xxh3 (rawOf xxh3 s complete) journal = some reader)
    (taken : (reader.records xxh3).1.map ScanRecord.appended = recs) :
    loadWithJournalRestore B code xxh3 s.valueCodec capacity (save xxh3 s s.valueCodec complete)
        journal =
      some (.ok ⟨⟨.of s', complete, saveDigest xxh3 s s.valueCodec complete⟩, recs.length, s.block,
        lastOf capacity (recs.map Prod.fst),
        some ((reader.records xxh3).2.1.validEndOffset, (reader.records xxh3).2.1.lastValidHeight),
        some (reader.records xxh3).2.2⟩) := by
  rw [loadWithJournalRestore, parseRaw_save loader valid storable lineage]
  dsimp only
  rw [opened]
  dsimp only
  have holds : Holds s (rawOf xxh3 s complete) := ⟨rfl, rfl, rfl⟩
  have nothing : ([] : List BlockDelta) = lastOf capacity [] := (lastOf_nil capacity).symm
  obtain ⟨r, fold, final, complete', digest, count, last⟩ :=
    replay_ok loader laws run expanded (r := ⟨rawOf xxh3 s complete, 0, []⟩) holds nothing taken rfl
  have built := assemble_parts loader rebuilds final.cells final.setup final.items
  rw [run.run.valueCodec laws] at built
  have material : (rawOf xxh3 s complete).setup.backendParams =
      s.segments.map SegmentState.params := rfl
  rw [material, fold]
  dsimp only
  rw [finish, built, count, last, complete', digest, Nat.zero_add, List.nil_append]
  rfl

/-- The reader in a file of the server's journal, `at` bytes into it and `k` records past its
header. -/
def readerAt (s : RisePirServer C B) (bytes : List UInt8) (consumed k : Nat) : JournalReader :=
  ⟨bytes.drop consumed, p.plaintextBits, p.arity, consumed, s.block + 1 + k⟩

/-- The journal that is created for a saved server. -/
def journalOf (xxh3 : List UInt8 → BitVec 64) (s : RisePirServer C B) (complete : Bool) :
    JournalWriter :=
  .create xxh3 (saveDigest xxh3 s s.valueCodec complete) s.block p.plaintextBits

theorem opened_own (storable : Storable s) (rest : List UInt8) :
    openedFor xxh3 (rawOf xxh3 s complete) (some ((journalOf xxh3 s complete).bytes ++ rest)) =
      some (readerAt s ((journalOf xxh3 s complete).bytes ++ rest) HEADER_LEN 0) := by
  have digest : saveDigest xxh3 s s.valueCodec complete < 2 ^ 64 := (xxh3 _).isLt
  have block : s.block < 2 ^ 64 := storable.setup.block
  have behind : ((journalOf xxh3 s complete).bytes ++ rest).drop HEADER_LEN = rest :=
    List.drop_left' (headerBytes_length _ _)
  have bytes : (journalOf xxh3 s complete).bytes =
      headerBytes xxh3 (saveDigest xxh3 s s.valueCodec complete) s.block := rfl
  have opened := @open_header xxh3 _ _ digest block rest p.plaintextBits p.arity
  rw [← bytes] at opened
  unfold openedFor
  dsimp only
  have named : ¬ saveDigest xxh3 s s.valueCodec complete ≠ (rawOf xxh3 s complete).digest :=
    not_not.mpr rfl
  have height : ¬ s.block ≠ (rawOf xxh3 s complete).setup.block := not_not.mpr rfl
  rw [show (rawOf xxh3 s complete).setup.params.plaintextBits = p.plaintextBits from rfl,
    show (rawOf xxh3 s complete).setup.params.arity = p.arity from rfl, opened]
  dsimp only
  rw [if_neg named, if_neg height, readerAt, behind]

/-- A file that begins with the records of a live run, and behind them stops the reader, is restored
to the server behind the first of them that are within the reader's cap. -/
theorem restores_records (loader : code.Laws) (rebuilds : code.Rebuilds C) (laws : C.LogLaws)
    (valid : s.valueCodec.ValidWidths) (storable : Storable s)
    (lineage : OwnLineage code s.valueCodec (.of p)) (expanded : Expanded s.segments)
    {w' : JournalWriter} {recs : List (BlockDelta × Nat)}
    (run : Journalled xxh3 s (journalOf xxh3 s complete) recs s' w') {tail : List UInt8}
    (stops : (readerAt s (w'.bytes ++ tail) w'.bytes.length recs.length).Stops xxh3) :
    ∃ mid, BlockRun s ((recs.takeWhile withinCap).map Prod.fst) mid ∧
      BlockRun mid ((recs.drop (recs.takeWhile withinCap).length).map Prod.fst) s' ∧
      Restores B code xxh3 s.valueCodec capacity (save xxh3 s s.valueCodec complete)
        (w'.bytes ++ tail) (.of mid) ((recs.takeWhile withinCap).map Prod.fst) := by
  have kept : recs.take (recs.takeWhile withinCap).length = recs.takeWhile withinCap :=
    (List.prefix_iff_eq_take.mp (List.takeWhile_prefix withinCap)).symm
  obtain ⟨mid, between, first, second⟩ := run.split (recs.takeWhile withinCap).length
  rw [kept] at first
  refine ⟨mid, first.run, second.run, ?_⟩
  have opened : openedFor xxh3 (rawOf xxh3 s complete) (some ((journalOf xxh3 s complete).bytes ++
      (recordsBytes xxh3 recs ++ tail))) = _ := opened_own storable _
  rw [← List.append_assoc, ← run.bytes] at opened
  generalize hr : readerAt s (w'.bytes ++ tail) HEADER_LEN 0 = r at opened
  have rest : r.rest = recordsBytes xxh3 recs ++ tail := by
    rw [← hr, readerAt, run.bytes, List.append_assoc]
    exact List.drop_left' (headerBytes_length _ _)
  have bits : r.plaintextBits = p.plaintextBits := by rw [← hr]; rfl
  have arity : r.arity = p.arity := by rw [← hr]; rfl
  have numbered : Numbered r.expectedBlock recs := by
    rw [← hr]
    exact run.numbered laws
  have past : (r.past recs).Stops xxh3 := by
    obtain ⟨bits', arity', block, consumed⟩ := @past_fields xxh3 r recs
    have length : w'.bytes.length = HEADER_LEN + (recordsBytes xxh3 recs).length := by
      rw [run.bytes, List.length_append]
      exact congrArg (· + _) (headerBytes_length _ _)
    have same : r.past recs = readerAt s (w'.bytes ++ tail) w'.bytes.length recs.length := by
      have fields : r.past recs = ⟨(r.past recs).rest, (r.past recs).plaintextBits,
          (r.past recs).arity, (r.past recs).consumed, (r.past recs).expectedBlock⟩ := rfl
      have behind : (w'.bytes ++ tail).drop w'.bytes.length = tail := List.drop_left' rfl
      have start : r.consumed = HEADER_LEN ∧ r.expectedBlock = s.block + 1 := by
        rw [← hr]
        exact ⟨rfl, rfl⟩
      rw [fields, past_rest rest, bits', arity', consumed, block, bits, arity, start.1, start.2,
        readerAt, behind, length]
    rw [same]
    exact stops
  have enough : recs.length < r.rest.length + 1 := by
    have := @recordsBytes_length_le xxh3 recs
    rw [rest, List.length_append]
    omega
  obtain ⟨taken, -⟩ := scan_appended numbered (run.journalable laws bits arity) rest past enough
  exact ⟨_, restore_opened loader rebuilds laws valid storable lineage expanded first opened taken, rfl,
    (List.length_map _).symm, rfl⟩

theorem stops_at_end (bytes : List UInt8) (k : Nat) :
    (readerAt s bytes bytes.length k).Stops xxh3 := by
  intro out
  rw [JournalReader.tryNext, readerAt, if_pos List.drop_length]
  simp

/-- Where every record is within the cap, all that stand before the stop are replayed. -/
theorem restores_all (loader : code.Laws) (rebuilds : code.Rebuilds C) (laws : C.LogLaws)
    (valid : s.valueCodec.ValidWidths) (storable : Storable s)
    (lineage : OwnLineage code s.valueCodec (.of p)) (expanded : Expanded s.segments)
    {w' : JournalWriter} {recs : List (BlockDelta × Nat)} (within : ∀ rec ∈ recs, withinCap rec = true)
    (run : Journalled xxh3 s (journalOf xxh3 s complete) recs s' w') {tail : List UInt8}
    (stops : (readerAt s (w'.bytes ++ tail) w'.bytes.length recs.length).Stops xxh3) :
    Restores B code xxh3 s.valueCodec capacity (save xxh3 s s.valueCodec complete)
      (w'.bytes ++ tail) (.of s') (recs.map Prod.fst) := by
  obtain ⟨mid, -, rest, restored⟩ :=
    restores_records loader rebuilds laws valid storable lineage expanded run stops
  have all : recs.takeWhile withinCap = recs := List.takeWhile_eq_self_iff.mpr within
  rw [all] at restored rest
  rw [List.drop_length, List.map_nil] at rest
  cases rest
  exact restored

/-- The bytes of a journal up to the end of its first `k` records. -/
def recordsEnd (xxh3 : List UInt8 → BitVec 64) (recs : List (BlockDelta × Nat)) (k : Nat) : Nat :=
  HEADER_LEN + (recordsBytes xxh3 (recs.take k)).length

theorem take_recordsEnd {w' : JournalWriter} {recs : List (BlockDelta × Nat)}
    (run : Journalled xxh3 s (journalOf xxh3 s complete) recs s' w') {k : Nat} {mid : RisePirServer C B}
    {between : JournalWriter}
    (first : Journalled xxh3 s (journalOf xxh3 s complete) (recs.take k) mid between) :
    between.bytes.length = recordsEnd xxh3 recs k ∧
      w'.bytes.take (recordsEnd xxh3 recs k) = between.bytes := by
  have length : between.bytes.length = recordsEnd xxh3 recs k := by
    rw [first.bytes, List.length_append]
    exact congrArg (· + _) (headerBytes_length _ _)
  refine ⟨length, ?_⟩
  have whole : w'.bytes = between.bytes ++ recordsBytes xxh3 (recs.drop k) := by
    rw [run.bytes, first.bytes, List.append_assoc, recordsBytes, recordsBytes, recordsBytes,
      ← List.flatMap_append, List.take_append_drop]
  rw [whole, ← length, List.take_left']
  rfl

/-- The restore comes to the live server behind the first `k` records of the run, over their
deltas. -/
def RestoresAt (code : LoaderCode) (xxh3 : List UInt8 → BitVec 64) (capacity : Nat) (complete : Bool)
    (s s' : RisePirServer C B) (recs : List (BlockDelta × Nat)) (journal : List UInt8) (k : Nat) :
    Prop :=
  ∃ mid, BlockRun s ((recs.take k).map Prod.fst) mid ∧ BlockRun mid ((recs.drop k).map Prod.fst) s' ∧
    Restores B code xxh3 s.valueCodec capacity (save xxh3 s s.valueCodec complete) journal (.of mid)
      ((recs.take k).map Prod.fst)

/-- Replay equals live, for a server saved at `s` whose run to `s'` is in the journal: the whole
journal, the journal cut anywhere, the journal altered where the reader notices it in a record, and
in the header. -/
structure ReplaysLive (code : LoaderCode) (xxh3 : List UInt8 → BitVec 64) (capacity : Nat)
    (complete : Bool) (s s' : RisePirServer C B) (recs : List (BlockDelta × Nat))
    (journal : List UInt8) : Prop where
  whole : Restores B code xxh3 s.valueCodec capacity (save xxh3 s s.valueCodec complete) journal
    (.of s') (recs.map Prod.fst)
  cut : ∀ n, RestoresAt code xxh3 capacity complete s s' recs (journal.take n)
    (wholeRecords recs (n - HEADER_LEN))
  altered : ∀ bytes k, bytes.take (recordsEnd xxh3 recs k) = journal.take (recordsEnd xxh3 recs k) →
    (readerAt s bytes (recordsEnd xxh3 recs k) k).Stops xxh3 → k ≤ recs.length →
    RestoresAt code xxh3 capacity complete s s' recs bytes k
  unnamed : ∀ bytes, (∀ header reader,
      JournalReader.open xxh3 bytes p.plaintextBits p.arity = .ok (header, reader) →
        header ≠ ⟨saveDigest xxh3 s s.valueCodec complete, s.block⟩) →
    RestoresAt code xxh3 capacity complete s s' recs bytes 0

theorem restores_base (loader : code.Laws) (rebuilds : code.Rebuilds C)
    (valid : s.valueCodec.ValidWidths) (storable : Storable s)
    (lineage : OwnLineage code s.valueCodec (.of p)) {recs : List (BlockDelta × Nat)}
    (run : BlockRun s (recs.map Prod.fst) s') {bytes : List UInt8}
    (refused : ∀ header reader,
      JournalReader.open xxh3 bytes p.plaintextBits p.arity = .ok (header, reader) →
        header ≠ ⟨saveDigest xxh3 s s.valueCodec complete, s.block⟩) :
    RestoresAt code xxh3 capacity complete s s' recs bytes 0 := by
  have unopened : openedFor xxh3 (rawOf xxh3 s complete) (some bytes) = none := by
    unfold openedFor
    dsimp only
    cases opens : JournalReader.open xxh3 bytes (rawOf xxh3 s complete).setup.params.plaintextBits
        (rawOf xxh3 s complete).setup.params.arity with
    | error e => rfl
    | ok out =>
        obtain ⟨header, reader⟩ := out
        have foreign := refused header reader opens
        dsimp only
        split_ifs with digest block
        · rfl
        · rfl
        · exact absurd (congrArg₂ JournalHeader.mk (not_not.mp digest) (not_not.mp block)) foreign
  exact ⟨s, .nil s, run, _, restore_unopened loader rebuilds valid storable lineage unopened, rfl, rfl,
    (lastOf_nil capacity).symm⟩

/-- A cut behind the header leaves whole records and then stops the reader. -/
theorem Journalled.cut {w' : JournalWriter} {recs : List (BlockDelta × Nat)}
    (run : Journalled xxh3 s (journalOf xxh3 s complete) recs s' w') (n : Nat) (past : HEADER_LEN ≤ n) :
    recordsEnd xxh3 recs (wholeRecords recs (n - HEADER_LEN)) ≤ n ∧
      (readerAt s (w'.bytes.take n) (recordsEnd xxh3 recs (wholeRecords recs (n - HEADER_LEN)))
        (wholeRecords recs (n - HEADER_LEN))).Stops xxh3 := by
  have header : (journalOf xxh3 s complete).bytes.length = HEADER_LEN := headerBytes_length _ _
  obtain ⟨tail, cut, stops⟩ := take_recordsBytes run.lengths (n - HEADER_LEN)
  have bytes : w'.bytes.take n = (journalOf xxh3 s complete).bytes ++ recordsBytes xxh3
      (recs.take (wholeRecords recs (n - HEADER_LEN))) ++ tail := by
    rw [run.bytes, List.take_append, header, List.take_of_length_le (by omega), cut,
      List.append_assoc]
  have ends : ((journalOf xxh3 s complete).bytes ++ recordsBytes xxh3
      (recs.take (wholeRecords recs (n - HEADER_LEN)))).length =
        recordsEnd xxh3 recs (wholeRecords recs (n - HEADER_LEN)) := by
    rw [List.length_append, header, recordsEnd]
  constructor
  · have := congrArg List.length cut
    rw [List.length_take, List.length_append] at this
    rw [recordsEnd]
    omega
  · apply stops
    rw [readerAt, bytes, ← ends, List.drop_left' rfl]

theorem restores_cut (loader : code.Laws) (rebuilds : code.Rebuilds C) (laws : C.LogLaws)
    (valid : s.valueCodec.ValidWidths) (storable : Storable s)
    (lineage : OwnLineage code s.valueCodec (.of p)) (expanded : Expanded s.segments)
    {w' : JournalWriter} {recs : List (BlockDelta × Nat)} (within : ∀ rec ∈ recs, withinCap rec = true)
    (run : Journalled xxh3 s (journalOf xxh3 s complete) recs s' w') {bytes : List UInt8} {k : Nat}
    (whole : bytes.take (recordsEnd xxh3 recs k) = w'.bytes.take (recordsEnd xxh3 recs k))
    (stops : (readerAt s bytes (recordsEnd xxh3 recs k) k).Stops xxh3) (few : k ≤ recs.length) :
    RestoresAt code xxh3 capacity complete s s' recs bytes k := by
  obtain ⟨mid, between, first, second⟩ := run.split k
  obtain ⟨length, begun⟩ := take_recordsEnd run first
  have joined : between.bytes ++ bytes.drop (recordsEnd xxh3 recs k) = bytes := by
    rw [← begun, ← whole, List.take_append_drop]
  have count : (recs.take k).length = k := by
    rw [List.length_take]
    omega
  have stopped : (readerAt s (between.bytes ++ bytes.drop (recordsEnd xxh3 recs k))
      between.bytes.length (recs.take k).length).Stops xxh3 := by
    rw [joined, length, count]
    exact stops
  rw [← joined]
  exact ⟨mid, first.run, second.run, restores_all loader rebuilds laws valid storable lineage expanded
    (fun rec mem => within rec (List.mem_of_mem_take mem)) first stopped⟩

/-- A restore replays as many deltas as it comes over. -/
theorem restores_length {codec : ValueCodec} {file journal : List UInt8}
    {server server' : LoadedServer} {deltas deltas' : List BlockDelta}
    (h : Restores B code xxh3 codec capacity file journal server deltas)
    (h' : Restores B code xxh3 codec capacity file journal server' deltas') :
    deltas.length = deltas'.length := by
  obtain ⟨restored, loads, -, replayed, -⟩ := h
  obtain ⟨restored', loads', -, replayed', -⟩ := h'
  rw [loads] at loads'
  cases loads'
  exact replayed.symm.trans replayed'

/-- A journal that is replayed to its end has no record beyond the cap. -/
theorem within_of_whole (loader : code.Laws) (rebuilds : code.Rebuilds C) (laws : C.LogLaws)
    (valid : s.valueCodec.ValidWidths) (storable : Storable s)
    (lineage : OwnLineage code s.valueCodec (.of p)) (expanded : Expanded s.segments)
    {w' : JournalWriter} {recs : List (BlockDelta × Nat)}
    (run : Journalled xxh3 s (journalOf xxh3 s complete) recs s' w')
    (whole : Restores B code xxh3 s.valueCodec capacity (save xxh3 s s.valueCodec complete) w'.bytes
      (.of s') (recs.map Prod.fst)) :
    ∀ rec ∈ recs, (encodeBlockDelta rec.1).length ≤ MAX_RECORD_BYTES := by
  have untouched : (readerAt s (w'.bytes ++ []) w'.bytes.length recs.length).Stops xxh3 := by
    rw [List.append_nil]
    exact stops_at_end _ _
  obtain ⟨mid, -, -, restored⟩ :=
    restores_records loader rebuilds laws valid storable lineage expanded run untouched
  rw [List.append_nil] at restored
  have length := restores_length whole restored
  rw [List.length_map, List.length_map] at length
  have all : recs.takeWhile withinCap = recs :=
    (List.takeWhile_prefix withinCap).eq_of_length length.symm
  intro rec mem
  exact of_decide_eq_true (List.takeWhile_eq_self_iff.mp all rec mem)

/-- Replay equals live, exactly when no record is longer than the reader allows: the writer allows
more. -/
theorem replay_equals_live_iff (loader : code.Laws) (rebuilds : code.Rebuilds C) (laws : C.LogLaws)
    (valid : s.valueCodec.ValidWidths) (storable : Storable s)
    (lineage : OwnLineage code s.valueCodec (.of p)) (expanded : Expanded s.segments)
    {w' : JournalWriter} {recs : List (BlockDelta × Nat)}
    (run : Journalled xxh3 s (journalOf xxh3 s complete) recs s' w') (capacity : Nat) :
    ReplaysLive code xxh3 capacity complete s s' recs w'.bytes ↔
      ∀ rec ∈ recs, (encodeBlockDelta rec.1).length ≤ MAX_RECORD_BYTES := by
  have untouched : (readerAt s (w'.bytes ++ []) w'.bytes.length recs.length).Stops xxh3 := by
    rw [List.append_nil]
    exact stops_at_end _ _
  constructor
  · intro replays
    exact within_of_whole loader rebuilds laws valid storable lineage expanded run replays.whole
  · intro fits
    have within : ∀ rec ∈ recs, withinCap rec = true := fun rec mem => decide_eq_true (fits rec mem)
    refine ⟨?_, fun n => ?_, fun bytes k => ?_, fun bytes => ?_⟩
    · have restored : Restores B code xxh3 s.valueCodec capacity (save xxh3 s s.valueCodec complete)
          (w'.bytes ++ []) (.of s') (recs.map Prod.fst) :=
        restores_all loader rebuilds laws valid storable lineage expanded within run untouched
      rwa [List.append_nil] at restored
    · by_cases short : n < HEADER_LEN
      · rw [Nat.sub_eq_zero_of_le (Nat.le_of_lt short), wholeRecords_zero]
        apply restores_base loader rebuilds valid storable lineage run.run
        intro header reader opens
        have few : (w'.bytes.take n).length < HEADER_LEN := by
          rw [List.length_take]
          omega
        rw [JournalReader.open, if_pos few] at opens
        cases opens
      · obtain ⟨ends, stops⟩ := run.cut n (by omega)
        exact restores_cut loader rebuilds laws valid storable lineage expanded within run
          (by rw [List.take_take, Nat.min_eq_left ends]) stops (wholeRecords_le _ _)
    · exact restores_cut loader rebuilds laws valid storable lineage expanded within run
    · exact restores_base loader rebuilds valid storable lineage run.run

end Restoring

section Fresh

/-- The empty server of a geometry. -/
def freshServer (p : CuckooParams) (width : smallCodec.valueBits = p.valueBits) :
    RisePirServer (referenceTable p) referencePir :=
  .new (emptyStore p) ⟨1, 1⟩ (fun j => ⟨BitVec.ofNat 128 j, []⟩) smallCodec 7 width

variable {p : CuckooParams} {width : smallCodec.valueBits = p.valueBits}

theorem freshServer_expanded : Expanded (freshServer p width).segments := fun _ _ => rfl

private theorem flatMap_length_le {α β : Type} {f : α → List β} {l : List α} {c : Nat}
    (h : ∀ a ∈ l, (f a).length ≤ c) : (l.flatMap f).length ≤ l.length * c := by
  induction l with
  | nil => simp
  | cons a l ih =>
      have here := h a List.mem_cons_self
      have later := ih fun b mem => h b (List.mem_cons_of_mem a mem)
      rw [List.flatMap_cons, List.length_append, List.length_cons, Nat.succ_mul]
      omega

theorem freshServer_storable : Storable (freshServer p width) := by
  have buckets := p.numBuckets_range
  have rows : p.rowWidth ≤ 2 ^ 16 := p.rowWidth_fits
  have slot : p.bucketSize ≤ p.rowWidth := Nat.le_mul_of_pos_right _ p.cellsPerSlot_pos
  have bits := p.plaintextBits_range
  have fields := slotBits_lt p
  have segment : p.segmentSize ≤ p.numBuckets := Nat.div_le_self _ _
  have described : ∀ sp ∈ (RawSetup.of (freshServer p width).setup).backendParams, ∃ seed,
      sp = describe ⟨1, 1⟩ seed p.segmentSize p.rowWidth p.plaintextBits := by
    intro sp hsp
    obtain ⟨seg, hseg, rfl⟩ := List.mem_map.mp hsp
    obtain ⟨j, -, rfl⟩ := List.mem_map.mp hseg
    exact ⟨_, rfl⟩
  have hints : (RawSetup.of (freshServer p width).setup).hints.map (fun hint => hint.data.length) =
      (RawSetup.of (freshServer p width).setup).backendParams.map hintLength := by
    show ((freshServer p width).segments.map SegmentState.hint).map _ =
      ((freshServer p width).segments.map SegmentState.params).map hintLength
    rw [List.map_map, List.map_map]
    apply List.map_congr_left
    intro seg hseg
    obtain ⟨j, -, rfl⟩ := List.mem_map.mp hseg
    exact tabulate_length _ _ _
  have count : (RawSetup.of (freshServer p width).setup).backendParams.length = p.arity := by
    show ((freshServer p width).segments.map SegmentState.params).length = p.arity
    rw [List.length_map, (freshServer p width).segments_length]
  refine ⟨⟨p.arity_range, buckets.2, ?_, ?_, ?_, ?_, ?_, count, ?_, hints⟩, ?_, ?_⟩
  · show p.bucketSize < 2 ^ 32
    omega
  · show p.fingerprintBits < 2 ^ 32
    omega
  · show p.valueBits < 2 ^ 32
    omega
  · show p.plaintextBits < 2 ^ 32
    omega
  · show 7 < 2 ^ 64
    omega
  · intro sp hsp
    obtain ⟨seed, rfl⟩ := described sp hsp
    have sigma : sigmaAccepted 0x401999999999999a = true := by decide
    refine ⟨⟨one_ne_zero, bits, sigma⟩, ?_, ?_, ?_, ?_, ?_, ?_⟩ <;>
      simp only [describe, max_self, Nat.sub_self, Nat.add_zero, Nat.div_one, Nat.one_mul] <;> omega
  · show 0 < 2 ^ 64
    omega
  · have params : ((RawSetup.of (freshServer p width).setup).backendParams.flatMap
        encodeServerParams).length ≤ p.arity * 52 := by
      rw [← count]
      apply flatMap_length_le
      intro sp _
      simp [encodeServerParams]
    have data : ((RawSetup.of (freshServer p width).setup).hints.flatMap fun hint =>
        encodeU32s hint.data).length ≤ p.arity * (10 + 2 ^ 16 * 4) := by
      rw [← count, ← List.length_map hintLength, ← hints, List.length_map]
      apply flatMap_length_le
      intro hint mem
      have short : hint.data.length ≤ 2 ^ 16 := by
        have listed := List.mem_map_of_mem (f := fun hint => hint.data.length) mem
        rw [hints] at listed
        obtain ⟨sp, hsp, length⟩ := List.mem_map.mp listed
        obtain ⟨seed, rfl⟩ := described sp hsp
        simp only [hintLength, describe, max_self, Nat.one_mul] at length
        omega
      have words := flatMap_length_le (f := fun v : BitVec 32 => leBytes 4 v.toNat)
        (l := hint.data) (c := 4) fun v _ => by rw [leBytes_length]
      have head := writeUvarint_length_le hint.data.length
      rw [encodeU32s, List.length_append]
      omega
    have arity := p.arity_range
    rw [encodeRawSetup]
    simp only [List.length_append, leBytes_length, List.length_singleton]
    have magic : SETUP_MAGIC.length ≤ 16 := by decide
    omega

/-- The keys whose rows count up. -/
def countedKey (i : Nat) : AddressHash := BitVec.ofNat 256 (2 ^ 16 * i)

theorem countedKey_toNat {i : Nat} (h : i < 2 ^ 24) : (countedKey i).toNat = 2 ^ 16 * i := by
  have small : 2 ^ 16 * i < 2 ^ 40 := by
    calc 2 ^ 16 * i < 2 ^ 16 * 2 ^ 24 := Nat.mul_lt_mul_of_pos_left h (Nat.two_pow_pos 16)
      _ = 2 ^ 40 := by norm_num
  have wide : 2 ^ 40 < 2 ^ 256 := Nat.pow_lt_pow_right (by omega) (by omega)
  rw [countedKey, BitVec.toNat_ofNat, Nat.mod_eq_of_lt (by omega)]

/-- The bytes that are stored for a counted key. -/
def countedEntry (i : Nat) : List UInt8 :=
  leBytes smallCodec.numBytes
    (smallCodec.packFields (smallCodec.keyTag (countedKey i)) 1 (smallCodec.checksum 1))

theorem counted_spread {N : Nat} (few : N ≤ 2 ^ 24) (rows : N ≤ p.segmentSize)
    (fingerprints : p.fingerprintBits = 32) : Spread p countedKey N where
  first i hi := by
    rw [countedKey_toNat (by omega), Nat.mul_div_cancel_left _ (Nat.two_pow_pos 16),
      Nat.mod_eq_of_lt (by omega)]
  apart i n hin hn := by
    have fp : ∀ m < N, (referenceTable p).fp (countedKey m) = 1 + 2 ^ 8 * m := by
      intro m hm
      show 1 + (countedKey m).toNat / 2 ^ 8 % (2 ^ p.fingerprintBits - 1) = _
      rw [countedKey_toNat (by omega), fingerprints, show 2 ^ 16 * m = 2 ^ 8 * (2 ^ 8 * m) by ring,
        Nat.mul_div_cancel_left _ (Nat.two_pow_pos 8), Nat.mod_eq_of_lt (by omega)]
    rw [fp i (by omega), fp n hn]
    omega

theorem counted_entries (width : smallCodec.valueBits = p.valueBits) (N : Nat) :
    Entries p smallCodec countedKey countedEntry N := by
  have encodable : smallCodec.Encodable 1 := by decide
  refine ⟨fun i _ => ValueCodec.encode_ok encodable, fun i _ => ?_, fun i _ => ?_⟩
  · rw [countedEntry, leBytes_length, ValueCodec.numBytes, width]
    rfl
  · rw [← width]
    exact ValueCodec.leNat_encode_lt (ValueCodec.encode_ok encodable)

/-- The block of the first counted keys is appended to the empty server's journal, with two bytes at
least for every row and every entry of its delta. -/
theorem counted_journalled (width : smallCodec.valueBits = p.valueBits) {N : Nat} (few : N ≤ 2 ^ 24) (rows : N ≤ p.segmentSize)
    (fingerprints : p.fingerprintBits = 32) (cells : p.cellsPerSlot ≤ 7) (complete : Bool)
    (xxh3 : List UInt8 → BitVec 64) :
    ∃ s' delta w', Journalled xxh3 (freshServer p width) (journalOf xxh3 (freshServer p width) complete)
        [(delta, N)] s' w' ∧
      13 + 4 * N ≤ (encodeBlockDelta delta).length ∧
      (encodeBlockDelta delta).length ≤ 53 + 160 * N := by
  have spread := counted_spread few rows fingerprints
  have entries := counted_entries width N
  have empty : FirstFilled p countedKey countedEntry 0 (freshServer p width).store.cells :=
    firstFilled_empty
  obtain ⟨s', ⟨delta, report⟩, applied, filled, items⟩ :=
    apply_freshBlock (s := freshServer p width) spread entries empty
  obtain ⟨published, block⟩ := apply_published (logLaws p) applied
  obtain ⟨fewest, most⟩ := marks_bounds spread entries empty filled published
  obtain ⟨least, greatest⟩ := encodeBlockDelta_length_bounds delta
  have arity := p.arity_range
  rw [published.fits.segments] at greatest
  have slots : N * p.cellsPerSlot ≤ N * 7 := Nat.mul_le_mul_left N cells
  have short : (encodeBlockDelta delta).length ≤ 53 + 160 * N := by omega
  have count : s'.store.numItems = N := items.trans (Nat.zero_add N)
  have eighth : delta.block = 8 := block
  have next : ¬ delta.block ≠ (journalOf xxh3 (freshServer p width) complete).last + 1 :=
    not_not.mpr eighth
  obtain ⟨w', appended⟩ : ∃ w', (journalOf xxh3 (freshServer p width) complete).append xxh3 delta
      s'.store.numItems = .ok w' := by
    rw [JournalWriter.append, if_neg next, if_neg (by omega)]
    exact ⟨_, rfl⟩
  have step : Journalled xxh3 (freshServer p width) (journalOf xxh3 (freshServer p width) complete)
      [(delta, s'.store.numItems)] s' w' :=
    .cons rfl applied (by omega) (by omega) appended (.nil _ _)
  rw [count] at step
  exact ⟨s', delta, w', step, by omega, short⟩

/-- Two segments of `2 ^ 24` buckets. -/
def wideParams : CuckooParams where
  arity := 2
  numBuckets := 2 ^ 25
  bucketSize := 4
  fingerprintBits := 32
  valueBits := 24
  plaintextBits := 9
  arity_range := smallParams.arity_range
  segments_even := by decide
  numBuckets_range := by decide
  bucketSize_pos := pos_four
  fieldBits_pos := ownParams.fieldBits_pos
  plaintextBits_range := ownParams.plaintextBits_range
  rowWidth_fits := ownParams.rowWidth_fits

/-- A block of `2 ^ 24` new addresses is appended, and then not replayed. -/
theorem long_record_not_replayed : ∃ s' delta w',
    Journalled (fun _ => 0) (freshServer wideParams rfl)
      (journalOf (fun _ => 0) (freshServer wideParams rfl) true) [(delta, 2 ^ 24)] s' w' ∧
    ¬ ReplaysLive referenceLoader (fun _ => 0) 64 true (freshServer wideParams rfl) s'
      [(delta, 2 ^ 24)] w'.bytes := by
  have rows : 2 ^ 24 ≤ wideParams.segmentSize := by decide
  obtain ⟨s', delta, w', run, long, -⟩ :=
    counted_journalled rfl le_rfl rows rfl (by decide) true fun _ => 0
  refine ⟨s', delta, w', run, fun replays => ?_⟩
  have valid : smallCodec.ValidWidths := by decide
  have within : (encodeBlockDelta delta).length ≤ MAX_RECORD_BYTES := within_of_whole referenceLoader_laws (referenceLoader_rebuilds wideParams)
    (logLaws wideParams) valid freshServer_storable (ownLineage rfl (by decide) rfl rfl rfl)
    freshServer_expanded run replays.whole (delta, 2 ^ 24) List.mem_cons_self
  have cap : MAX_RECORD_BYTES = 2 ^ 26 := by decide
  omega

/-- A block of one new address is replayed. -/
theorem replay_equals_live_iff_one : ∃ s' delta w',
    Journalled (fun _ => 0) (freshServer ownParams rfl)
      (journalOf (fun _ => 0) (freshServer ownParams rfl) true) [(delta, 1)] s' w' ∧
    ReplaysLive referenceLoader (fun _ => 0) 64 true (freshServer ownParams rfl) s'
      [(delta, 1)] w'.bytes := by
  have few : 1 ≤ 2 ^ 24 := by decide
  have rows : 1 ≤ ownParams.segmentSize := by decide
  obtain ⟨s', delta, w', run, -, short⟩ :=
    counted_journalled (p := ownParams) rfl few rows rfl (by decide) true fun _ => 0
  refine ⟨s', delta, w', run, (replay_equals_live_iff referenceLoader_laws
    (referenceLoader_rebuilds ownParams) (logLaws ownParams) (by decide) freshServer_storable
    (ownLineage rfl (by decide) rfl rfl rfl) freshServer_expanded run 64).mpr fun rec mem => ?_⟩
  obtain rfl := List.mem_singleton.mp mem
  have cap : MAX_RECORD_BYTES = 2 ^ 26 := by decide
  dsimp only
  omega

end Fresh

end RisePir.Rpc.Replay
