import RisePir.Rpc.Autosave
import RisePir.Rpc.Replay

set_option autoImplicit false
set_option relaxedAutoImplicit false

/-! What a restore comes back to. A published block of a server that a state file can bring back
leads to such a server again; the restored server is the live one, not only one that looks like it;
and a journal cut anywhere behind its header gives the writer that a restart goes on with. -/

namespace RisePir.Rpc.Recovery

open RisePir.Lib.Digits
open RisePir.Lib.FlatMatrix
open RisePir.Proto.Codec
open RisePir.Proto.Types
open RisePir.Proto.Value
open RisePir.Proto.Varint
open RisePir.Upstream.Cuckoo
open RisePir.Upstream.Pir
open RisePir.Server.Core
open RisePir.Server.Run
open RisePir.Server.Telescope
open RisePir.Http.Setup
open RisePir.Http.Wire
open RisePir.Rpc.Autosave
open RisePir.Rpc.Journal
open RisePir.Rpc.Replay
open RisePir.Rpc.Restore
open RisePir.Rpc.State
open RisePir.Rpc.StateFile

variable {p : CuckooParams} {C : SegmentedCuckoo p} {B : PirBackend} {code : LoaderCode}
  {xxh3 : List UInt8 → BitVec 64} {s s' : RisePirServer C B} {d : BlockDelta}

section Keeping

theorem expanded_of_wellFormed (wf : WellFormed s) : Expanded s.segments :=
  fun seg mem => (wf seg mem).material

/-- A well-formed segment's hint is as long as its parameters say. -/
theorem hint_lengths (wf : WellFormed s) :
    (s.segments.map SegmentState.hint).map (fun hint => hint.data.length) =
      (s.segments.map SegmentState.params).map hintLength := by
  rw [List.map_map, List.map_map]
  apply List.map_congr_left
  intro seg mem
  obtain ⟨H, hint⟩ := (wf seg mem).hint
  show seg.hint.data.length = _
  rw [hint, tabulate_length]
  rfl

private theorem encodeU32s_length (words : List (BitVec 32)) :
    (encodeU32s words).length = (writeUvarint words.length).length + words.length * 4 := by
  have cells : (words.flatMap fun v => leBytes 4 v.toNat).length = words.length * 4 := by
    induction words with
    | nil => rfl
    | cons v words ih =>
        rw [List.flatMap_cons, List.length_append, leBytes_length, ih, List.length_cons]
        omega
  rw [encodeU32s, List.length_append, cells]

private theorem encodedHints_length (hints : List Hint) :
    (hints.flatMap fun hint => encodeU32s hint.data).length =
      ((hints.map fun hint => hint.data.length).map
        fun n => (writeUvarint n).length + n * 4).sum := by
  induction hints with
  | nil => rfl
  | cons hint hints ih =>
      rw [List.flatMap_cons, List.length_append, ih, encodeU32s_length]
      rfl

/-- Two setups with the same segment parameters and hints of the same lengths are encoded in as many
bytes. -/
theorem encodeRawSetup_length_eq {setup setup' : RawSetup}
    (backend : setup'.backendParams = setup.backendParams)
    (hints : setup'.hints.map (fun hint => hint.data.length) =
      setup.hints.map fun hint => hint.data.length) :
    (encodeRawSetup setup').length = (encodeRawSetup setup).length := by
  simp only [encodeRawSetup, List.length_append, leBytes_length, List.length_singleton, backend,
    encodedHints_length, hints]

theorem storable_published (pir : B.ServerLaws) (published : Published s s' d) (wf : WellFormed s)
    (storable : Storable s) (block : s'.block < 2 ^ 64) (items : s'.store.numItems < 2 ^ 64) :
    Storable s' := by
  have params := params_published published
  have lengths : (RawSetup.of s'.setup).hints.map (fun hint => hint.data.length) =
      (RawSetup.of s.setup).hints.map fun hint => hint.data.length := by
    have before := hint_lengths wf
    have after := hint_lengths (published.wellFormed pir wf)
    rw [params, ← before] at after
    exact after
  have fits := storable.setup
  refine ⟨⟨fits.scheme, fits.numBuckets, fits.bucketSize, fits.fingerprintBits, fits.valueBits,
    fits.plaintextBits, block, ?_, ?_, ?_⟩, items, ?_⟩
  · show (s'.segments.map SegmentState.params).length = _
    rw [params]
    exact fits.segments
  · show ∀ sp ∈ s'.segments.map SegmentState.params, ParamsFit sp
    rw [params]
    exact fits.params
  · rw [lengths]
    show _ = (s'.segments.map SegmentState.params).map hintLength
    rw [params]
    exact fits.hints
  · rw [@encodeRawSetup_length_eq (.of s.setup) (.of s'.setup) params lengths]
    exact storable.length

/-- A block leads from a server that a state file can bring back to another. -/
theorem fine_published (pir : B.ServerLaws) (published : Published s s' d) (fine : Fine code s)
    (block : s'.block < 2 ^ 64) (items : s'.store.numItems < 2 ^ 64) : Fine code s' where
  wellFormed := published.wellFormed pir fine.wellFormed
  hints := published.hintsMatch pir fine.wellFormed fine.hints
  valid := published.codec ▸ fine.valid
  storable := storable_published pir published fine.wellFormed fine.storable block items
  lineage := published.codec ▸ fine.lineage

end Keeping

section Identity

/-- Two servers of which a state file would hold the same, with their material expanded, are one. -/
theorem eq_of_loaded (same : LoadedServer.of s = LoadedServer.of s') (expanded : Expanded s.segments)
    (expanded' : Expanded s'.segments) : s = s' := by
  rw [LoadedServer.of, LoadedServer.of, LoadedServer.mk.injEq] at same
  obtain ⟨-, cells, items, pairs, block, codec⟩ := same
  have store : s.store = s'.store :=
    CuckooKVStore.ext cells items (s.log_empty.trans s'.log_empty.symm)
  have segments : s.segments = s'.segments := by
    have length : s.segments.length = s'.segments.length := by
      rw [s.segments_length, s'.segments_length]
    apply List.ext_getElem length
    intro i hi hi'
    have fields := List.getElem_of_eq pairs (by rwa [List.length_map])
    rw [List.getElem_map, List.getElem_map, Prod.mk.injEq] at fields
    obtain ⟨params, hint⟩ := fields
    have material : s.segments[i].material = s'.segments[i].material := by
      rw [expanded _ (List.getElem_mem hi), expanded' _ (List.getElem_mem hi'), params]
    calc s.segments[i]
        = ⟨s.segments[i].params, s.segments[i].material, s.segments[i].hint⟩ := rfl
      _ = ⟨s'.segments[i].params, s'.segments[i].material, s'.segments[i].hint⟩ := by
          rw [params, hint, material]
      _ = s'.segments[i] := rfl
  obtain ⟨store₁, segments₁, block₁, codec₁, _, _, _⟩ := s
  obtain ⟨store₂, segments₂, block₂, codec₂, _, _, _⟩ := s'
  dsimp only at store segments block codec
  subst store segments block codec
  rfl

end Identity

section Cutting

variable {w w' : JournalWriter} {recs : List (BlockDelta × Nat)} {complete : Bool}

/-- The writer goes along with the server. -/
theorem journalled_writer (laws : C.LogLaws) (h : Journalled xxh3 s w recs s' w')
    (last : w.last = s.block) : w'.plaintextBits = w.plaintextBits ∧ w'.last = s'.block := by
  induction h with
  | nil s w => exact ⟨rfl, last⟩
  | cons next step word items appended rest ih =>
      obtain ⟨-, -, written⟩ := append_ok appended
      have head := (apply_published laws step).1.head
      obtain ⟨bits, block⟩ := ih (by rw [written, head])
      exact ⟨bits.trans (by rw [written]), block⟩

theorem journalled_append {s'' : RisePirServer C B} {w'' : JournalWriter}
    {recs' : List (BlockDelta × Nat)} (h : Journalled xxh3 s w recs s' w')
    (h' : Journalled xxh3 s' w' recs' s'' w'') : Journalled xxh3 s w (recs ++ recs') s'' w'' := by
  induction h with
  | nil s w => exact h'
  | cons next step word items appended rest ih => exact .cons next step word items appended (ih h')

/-- The records that a reader takes of the first `n` bytes of a journal. -/
def seen (recs : List (BlockDelta × Nat)) (n : Nat) : List (BlockDelta × Nat) :=
  (recs.take (wholeRecords recs (n - HEADER_LEN))).takeWhile withinCap

theorem seen_prefix_of (recs : List (BlockDelta × Nat)) (n : Nat) : seen recs n <+: recs :=
  (List.takeWhile_prefix withinCap).trans (List.take_prefix _ _)

theorem wholeRecords_append (recs more : List (BlockDelta × Nat)) (m : Nat) :
    wholeRecords (recs ++ more) ((recordsBytes xxh3 recs).length + m) =
      recs.length + wholeRecords more m := by
  induction recs with
  | nil => simp [recordsBytes]
  | cons rec recs ih =>
      have length : (recordsBytes xxh3 (rec :: recs)).length =
          4 + 8 + (encodeBlockDelta rec.1).length + 8 + (recordsBytes xxh3 recs).length := by
        rw [recordsBytes, List.flatMap_cons, List.length_append, recordBytes_length, ← recordsBytes]
      have rest : (recordsBytes xxh3 (rec :: recs)).length + m -
          (4 + 8 + (encodeBlockDelta rec.1).length + 8) = (recordsBytes xxh3 recs).length + m := by
        omega
      rw [List.cons_append, wholeRecords, if_neg (by omega), rest, ih, List.length_cons]
      omega

theorem wholeRecords_mono (recs : List (BlockDelta × Nat)) {m n : Nat} (h : m ≤ n) :
    wholeRecords recs m ≤ wholeRecords recs n := by
  induction recs generalizing m n with
  | nil => exact le_rfl
  | cons rec recs ih =>
      rw [wholeRecords, wholeRecords]
      by_cases short : m < 4 + 8 + (encodeBlockDelta rec.1).length + 8
      · rw [if_pos short]
        exact Nat.zero_le _
      · have longer : ¬ n < 4 + 8 + (encodeBlockDelta rec.1).length + 8 := by omega
        rw [if_neg short, if_neg longer]
        exact Nat.succ_le_succ (ih (by omega))

theorem seen_mono (recs : List (BlockDelta × Nat)) {m n : Nat} (h : m ≤ n) :
    seen recs m <+: seen recs n := by
  have fewer : wholeRecords recs (m - HEADER_LEN) ≤ wholeRecords recs (n - HEADER_LEN) :=
    wholeRecords_mono recs (by omega)
  obtain ⟨more, whole⟩ := List.take_prefix_take_left (l := recs) fewer
  rw [seen, seen, ← whole, List.takeWhile_append]
  split_ifs with all
  · rw [(List.takeWhile_prefix withinCap).eq_of_length all]
    exact List.prefix_append _ _
  · exact List.prefix_rfl

/-- Up to the end of some records, those within the cap up to the first that is not are taken. -/
theorem seen_append (recs more : List (BlockDelta × Nat)) :
    seen (recs ++ more) (HEADER_LEN + (recordsBytes xxh3 recs).length) = recs.takeWhile withinCap := by
  have whole := @wholeRecords_append xxh3 recs more 0
  rw [wholeRecords_zero] at whole
  rw [seen, Nat.add_sub_cancel_left]
  rw [Nat.add_zero, Nat.add_zero] at whole
  rw [whole, List.take_left']
  rfl

theorem seen_self (recs : List (BlockDelta × Nat)) (n : Nat) :
    (seen recs n).takeWhile withinCap = seen recs n := by
  apply List.takeWhile_eq_self_iff.mpr
  intro rec mem
  exact List.mem_takeWhile_imp mem

theorem recordsEnd_le {j k : Nat} (h : j ≤ k) : recordsEnd xxh3 recs j ≤ recordsEnd xxh3 recs k := by
  obtain ⟨more, whole⟩ := List.take_prefix_take_left (l := recs) h
  rw [recordsEnd, recordsEnd, ← whole, recordsBytes, recordsBytes, List.flatMap_append,
    List.length_append]
  omega

/-- What the reader makes of the journal of a live run with bytes behind it that stop it. -/
theorem scanned (laws : C.LogLaws) (storable : Storable s)
    (run : Journalled xxh3 s (journalOf xxh3 s complete) recs s' w') {tail : List UInt8}
    (stops : (readerAt s (w'.bytes ++ tail) w'.bytes.length recs.length).Stops xxh3) :
    ∃ reader, openedFor xxh3 (rawOf xxh3 s complete) (some (w'.bytes ++ tail)) = some reader ∧
      (reader.records xxh3).1.map ScanRecord.appended = recs.takeWhile withinCap ∧
      (reader.records xxh3).2.1.validEndOffset =
        HEADER_LEN + (recordsBytes xxh3 (recs.takeWhile withinCap)).length ∧
      (reader.records xxh3).2.1.lastValidHeight = s.block + (recs.takeWhile withinCap).length := by
  have bytes : w'.bytes ++ tail =
      (journalOf xxh3 s complete).bytes ++ (recordsBytes xxh3 recs ++ tail) := by
    rw [run.bytes, List.append_assoc]
  have length : w'.bytes.length = HEADER_LEN + (recordsBytes xxh3 recs).length := by
    rw [run.bytes, List.length_append]
    exact congrArg (· + _) (headerBytes_length _ _)
  have opened := @opened_own _ _ _ xxh3 s complete storable (recordsBytes xxh3 recs ++ tail)
  rw [← bytes] at opened
  generalize hr : readerAt s (w'.bytes ++ tail) HEADER_LEN 0 = r at opened
  have fields : r.plaintextBits = p.plaintextBits ∧ r.arity = p.arity ∧ r.consumed = HEADER_LEN ∧
      r.expectedBlock = s.block + 1 := by
    rw [← hr]
    exact ⟨rfl, rfl, rfl, rfl⟩
  obtain ⟨bits, arity, start, block⟩ := fields
  have rest : r.rest = recordsBytes xxh3 recs ++ tail := by
    rw [← hr, readerAt, bytes]
    exact List.drop_left' (headerBytes_length _ _)
  have numbered : Numbered r.expectedBlock recs := by
    rw [block]
    exact run.numbered laws
  have past : (r.past recs).Stops xxh3 := by
    obtain ⟨bits', arity', block', consumed⟩ := @past_fields xxh3 r recs
    have behind : (w'.bytes ++ tail).drop w'.bytes.length = tail := List.drop_left' rfl
    have same : r.past recs = readerAt s (w'.bytes ++ tail) w'.bytes.length recs.length := by
      have whole : r.past recs = ⟨(r.past recs).rest, (r.past recs).plaintextBits,
          (r.past recs).arity, (r.past recs).consumed, (r.past recs).expectedBlock⟩ := rfl
      rw [whole, past_rest rest, bits', arity', consumed, block', bits, arity, start, block, readerAt,
        behind, length]
    rw [same]
    exact stops
  have enough : recs.length < r.rest.length + 1 := by
    have := @recordsBytes_length_le xxh3 recs
    rw [rest, List.length_append]
    omega
  obtain ⟨taken, reader⟩ :=
    scan_appended numbered (run.journalable laws bits arity) rest past enough
  obtain ⟨-, -, block', consumed⟩ := @past_fields xxh3 r (recs.takeWhile withinCap)
  refine ⟨r, opened, taken, ?_, ?_⟩
  · rw [JournalReader.records, reader, JournalReader.validEndOffset, consumed, start]
  · rw [JournalReader.records, reader, JournalReader.lastValidHeight, block', block]
    omega

/-- A journal that names an older block is not read. -/
theorem unopened_older {digest block : Nat} (word : digest < 2 ^ 64) (word' : s.block < 2 ^ 64)
    (older : block < s.block) (rest : List UInt8) :
    openedFor xxh3 (rawOf xxh3 s complete) (some (headerBytes xxh3 digest block ++ rest)) = none := by
  have opened := @open_header xxh3 digest block word (by omega) rest p.plaintextBits p.arity
  unfold openedFor
  dsimp only
  rw [show (rawOf xxh3 s complete).setup.params.plaintextBits = p.plaintextBits from rfl,
    show (rawOf xxh3 s complete).setup.params.arity = p.arity from rfl, opened]
  dsimp only
  have other : block ≠ (rawOf xxh3 s complete).setup.block := Nat.ne_of_lt older
  rw [if_pos other, ite_self]

/-- A journal cut behind its header is restored to the live server behind the last record that the
reader takes, and gives the writer as it was there. -/
theorem restores_seen (loader : code.Laws) (rebuilds : code.Rebuilds C) (laws : C.LogLaws)
    (fine : Fine code s) (run : Journalled xxh3 s (journalOf xxh3 s complete) recs s' w') {n : Nat}
    (past : HEADER_LEN ≤ n) {mid : RisePirServer C B} {between : JournalWriter}
    (here : Journalled xxh3 s (journalOf xxh3 s complete) (seen recs n) mid between)
    (capacity : Nat) :
    (∃ stop, loadWithJournalRestore B code xxh3 s.valueCodec capacity
        (save xxh3 s s.valueCodec complete) (some (w'.bytes.take n)) =
      some (.ok ⟨⟨.of mid, complete, saveDigest xxh3 s s.valueCodec complete⟩,
        (seen recs n).length, s.block, lastOf capacity ((seen recs n).map Prod.fst),
        some (between.bytes.length, mid.block), some stop⟩)) ∧
      JournalWriter.adopt (w'.bytes.take n) p.plaintextBits between.bytes.length mid.block =
        between := by
  obtain ⟨ends, stops⟩ := run.cut n past
  generalize hk : wholeRecords recs (n - HEADER_LEN) = k at ends stops
  obtain ⟨late, last, first, -⟩ := run.split k
  obtain ⟨length, begun⟩ := take_recordsEnd run first
  have count : (recs.take k).length = k := by
    rw [List.length_take, ← hk]
    exact Nat.min_eq_left (wholeRecords_le _ _)
  have joined : last.bytes ++ (w'.bytes.take n).drop (recordsEnd xxh3 recs k) = w'.bytes.take n := by
    rw [← begun, ← Nat.min_eq_left ends, ← List.take_take, Nat.min_eq_left ends,
      List.take_append_drop]
  have stopped : (readerAt s (last.bytes ++ (w'.bytes.take n).drop (recordsEnd xxh3 recs k))
      last.bytes.length (recs.take k).length).Stops xxh3 := by
    rw [joined, length, count]
    exact stops
  obtain ⟨reader, opened, taken, offset, height⟩ := scanned laws fine.storable first stopped
  have kept : (recs.take k).takeWhile withinCap = seen recs n := by rw [seen, hk]
  rw [kept] at taken offset height
  rw [joined] at opened
  have block : mid.block = s.block + (seen recs n).length := by
    rw [here.run.block laws, List.length_map]
  have restored := @restore_opened _ _ _ _ _ _ _ _ capacity loader rebuilds laws fine.valid
    fine.storable fine.lineage (expanded_of_wellFormed fine.wellFormed) _ _ _ here _ _ opened taken
  have ended : between.bytes.length = HEADER_LEN + (recordsBytes xxh3 (seen recs n)).length := by
    rw [here.bytes, List.length_append]
    exact congrArg (· + _) (headerBytes_length _ _)
  rw [offset, height, ← ended, ← block] at restored
  have few : (seen recs n).length ≤ k := by
    have shorter := (List.takeWhile_prefix (l := recs.take k) withinCap).length_le
    rwa [kept, count] at shorter
  have prefixed : recs.take (seen recs n).length = seen recs n :=
    (List.prefix_iff_eq_take.mp (seen_prefix_of recs n)).symm
  have within : between.bytes.length ≤ n := by
    have le := (@recordsEnd_le xxh3 recs _ _ few).trans ends
    rwa [recordsEnd, prefixed, ← ended] at le
  have cut : w'.bytes.take between.bytes.length = between.bytes := by
    rw [← prefixed] at here
    obtain ⟨size, begun⟩ := take_recordsEnd run here
    rw [size, begun]
  obtain ⟨bits, block'⟩ := journalled_writer laws here rfl
  have written : between = ⟨between.bytes, between.plaintextBits, between.last⟩ := rfl
  refine ⟨⟨_, restored⟩, ?_⟩
  rw [JournalWriter.adopt, List.take_take, Nat.min_eq_left within, cut, written, bits, block']
  rfl

end Cutting

section Reporting

variable {raw : RawState} {codec : ValueCodec} {capacity : Nat} {file : List UInt8}
  {journal : Option (List UInt8)} {restored : RestoredState}

/-- The file of a server that a state file can bring back is loaded into it. -/
theorem load_saved (loader : code.Laws) (rebuilds : code.Rebuilds C) (fine : Fine code s)
    (complete : Bool) : load code xxh3 s.valueCodec (save xxh3 s s.valueCodec complete) =
      some (.ok ⟨.of s, complete, saveDigest xxh3 s s.valueCodec complete⟩) := by
  rw [load, parseRaw_save loader fine.valid fine.storable fine.lineage]
  dsimp only
  rw [assemble_parts loader rebuilds rfl rfl rfl]
  rfl

/-- A journal that is reported, and whose header names the base's block, is the one that a restore
reads. -/
theorem opened_of_reported {bytes : List UInt8} {header : JournalHeader} {found : JournalReportOnly}
    (reports : scanReportOnly xxh3 bytes raw.digest raw.setup.params.plaintextBits
      raw.setup.params.arity = some (header, found)) (own : header.baseBlock = raw.setup.block) :
    ∃ reader, openedFor xxh3 raw (some bytes) = some reader ∧
      (reader.records xxh3).2.1.validEndOffset = found.endOffset ∧
      (reader.records xxh3).2.1.lastValidHeight = found.endHeight := by
  rw [scanReportOnly] at reports
  cases opened : JournalReader.open xxh3 bytes raw.setup.params.plaintextBits
      raw.setup.params.arity with
  | error e =>
      rw [opened] at reports
      cases reports
  | ok out =>
      obtain ⟨header', reader⟩ := out
      rw [opened] at reports
      dsimp only at reports
      split_ifs at reports with other
      cases reports
      refine ⟨reader, ?_, rfl, rfl⟩
      unfold openedFor
      dsimp only
      rw [opened]
      dsimp only
      rw [if_neg other, if_neg (not_not.mpr own)]

theorem unopened_of_unreported (none : (journal.bind fun bytes => scanReportOnly xxh3 bytes raw.digest
    raw.setup.params.plaintextBits raw.setup.params.arity) = none) :
    openedFor xxh3 raw journal = .none := by
  cases journal with
  | none => rfl
  | some bytes =>
      rw [Option.bind_some, scanReportOnly] at none
      unfold openedFor
      dsimp only
      cases opened : JournalReader.open xxh3 bytes raw.setup.params.plaintextBits
          raw.setup.params.arity with
      | error e => rfl
      | ok out =>
          obtain ⟨header, reader⟩ := out
          rw [opened] at none
          dsimp only at none ⊢
          split_ifs at none with other
          rw [if_pos other]

theorem finish_ok {baseBlock : Nat} {r : Replay} {adoptAt : Option (Nat × Nat)}
    {scanStop : Option ScanStop}
    (h : Restore.finish code codec baseBlock r adoptAt scanStop = some (.ok restored)) :
    restored.adoptAt = adoptAt ∧ restored.replayed = r.replayed := by
  rw [Restore.finish] at h
  cases out : (assemble code codec r.raw).outcome with
  | none =>
      rw [out] at h
      cases h
  | some out' =>
      rw [out] at h
      cases out' with
      | error e => cases h
      | ok loaded =>
          cases h
          exact ⟨rfl, rfl⟩

/-- A restore that reads no journal replays nothing. -/
theorem replayed_unopened (parsed : (parseRaw code xxh3 codec file).outcome = .ok raw)
    (unopened : openedFor xxh3 raw journal = none)
    (loads : loadWithJournalRestore B code xxh3 codec capacity file journal = some (.ok restored)) :
    restored.replayed = 0 := by
  rw [loadWithJournalRestore, parsed] at loads
  dsimp only at loads
  rw [unopened] at loads
  exact (finish_ok loads).2

/-- A restore vouches for the journal up to where its reader has come. -/
theorem adoptAt_opened (parsed : (parseRaw code xxh3 codec file).outcome = .ok raw)
    {reader : JournalReader} (opened : openedFor xxh3 raw journal = some reader)
    (loads : loadWithJournalRestore B code xxh3 codec capacity file journal = some (.ok restored)) :
    restored.adoptAt = some ((reader.records xxh3).2.1.validEndOffset,
      (reader.records xxh3).2.1.lastValidHeight) := by
  rw [loadWithJournalRestore, parsed] at loads
  dsimp only at loads
  rw [opened] at loads
  dsimp only at loads
  split at loads
  · cases loads
  · exact (finish_ok loads).1

end Reporting

end RisePir.Rpc.Recovery
