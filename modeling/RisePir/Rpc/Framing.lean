import Mathlib.Data.List.TakeWhile
import RisePir.Rpc.Journal
import RisePir.Proto.Decoding

set_option autoImplicit false
set_option relaxedAutoImplicit false

/-! What the journal's reader and its writer mean by a record, and where their limits part: the
reader caps a payload, and both count heights in a `u64`. -/

namespace RisePir.Rpc.Framing

open RisePir.Lib.Digits
open RisePir.Lib.Sparse
open RisePir.Proto.Types
open RisePir.Proto.Codec
open RisePir.Proto.Decoding
open RisePir.Rpc.Journal

section Frames

/-- A record as it stands in a file: its payload, and what the payload decodes to. -/
structure Frame where
  payload : List UInt8
  numItems : Nat
  delta : BlockDelta

/-- What a record's checksum covers. -/
def Frame.covered (f : Frame) : List UInt8 := leBytes 8 f.numItems ++ f.payload

def Frame.bytes (xxh3 : List UInt8 → BitVec 64) (f : Frame) : List UInt8 :=
  leBytes 4 f.payload.length ++ (f.covered ++ leBytes 8 (xxh3 f.covered).toNat)

/-- What the reader gives of it. -/
def Frame.record (f : Frame) : BlockDelta × Nat := (f.delta, f.numItems)

/-- A well-formed record for a base of the given arity. -/
structure Frame.Valid (plaintextBits arity : Nat) (f : Frame) : Prop where
  positive : 0 < f.payload.length
  capped : f.payload.length ≤ MAX_RECORD_BYTES
  items : f.numItems < 2 ^ 64
  decodes : decodeBlockDelta f.payload plaintextBits arity = .ok f.delta

def framesBytes (xxh3 : List UInt8 → BitVec 64) (frames : List Frame) : List UInt8 :=
  frames.flatMap (Frame.bytes xxh3)

/-- Well-formed records of consecutive heights from `height` on. -/
inductive Heights (plaintextBits arity : Nat) : Nat → List Frame → Prop
  | nil (height : Nat) : Heights plaintextBits arity height []
  | cons {f : Frame} {frames : List Frame} (valid : f.Valid plaintextBits arity)
      (tail : Heights plaintextBits arity (f.delta.block + 1) frames) :
      Heights plaintextBits arity f.delta.block (f :: frames)

/-- The records at the front of the bytes, and no more of them. -/
structure Longest (xxh3 : List UInt8 → BitVec 64) (plaintextBits arity height : Nat)
    (bytes : List UInt8) (frames : List Frame) : Prop where
  front : ∃ tail, bytes = framesBytes xxh3 frames ++ tail
  heights : Heights plaintextBits arity height frames
  longest : ∀ frames' tail, bytes = framesBytes xxh3 frames' ++ tail →
    Heights plaintextBits arity height frames' → frames' <+: frames

variable {xxh3 : List UInt8 → BitVec 64} {r : JournalReader}

theorem covered_length (f : Frame) : f.covered.length = 8 + f.payload.length := by
  rw [Frame.covered, List.length_append, leBytes_length]

theorem frame_length (f : Frame) : (f.bytes xxh3).length = 4 + 8 + f.payload.length + 8 := by
  simp only [Frame.bytes, List.length_append, leBytes_length, covered_length]
  omega

private theorem leBytes_inj {n x y : Nat} (hx : x < 256 ^ n) (hy : y < 256 ^ n)
    (same : leBytes n x = leBytes n y) : x = y := by
  have read := congrArg leNat same
  rwa [leNat_leBytes_of_lt hx, leNat_leBytes_of_lt hy] at read

/-- One well-formed record stands at the front of bytes. -/
theorem frame_unique {plaintextBits arity : Nat} {f f' : Frame} (valid : f.Valid plaintextBits arity)
    (valid' : f'.Valid plaintextBits arity) {tail tail' : List UInt8}
    (same : f.bytes xxh3 ++ tail = f'.bytes xxh3 ++ tail') : f = f' ∧ tail = tail' := by
  have capped := valid.capped
  have capped' := valid'.capped
  have cap : MAX_RECORD_BYTES = 2 ^ 26 := by decide
  have length : f.payload.length = f'.payload.length := by
    have first := congrArg (List.take 4) same
    simp only [Frame.bytes, List.append_assoc, List.take_left' (leBytes_length _ _)] at first
    exact leBytes_inj (by omega) (by omega) first
  obtain ⟨bytes, tails⟩ := List.append_inj same (by rw [frame_length, frame_length, length])
  rw [Frame.bytes, Frame.bytes, length] at bytes
  have covered := (List.append_inj (List.append_cancel_left bytes)
    (by rw [covered_length, covered_length, length])).1
  obtain ⟨items, payload⟩ := List.append_inj covered (by rw [leBytes_length, leBytes_length])
  have numItems := leBytes_inj valid.items valid'.items items
  have delta := valid.decodes
  rw [payload, valid'.decodes] at delta
  cases f
  cases f'
  cases numItems
  cases payload
  cases Except.ok.inj delta
  exact ⟨rfl, tails⟩

/-- The reader takes the well-formed record that stands next. -/
theorem tryNext_frame {f : Frame} (valid : f.Valid r.plaintextBits r.arity)
    (next : f.delta.block = r.expectedBlock) {tail : List UInt8} (rest : r.rest = f.bytes xxh3 ++ tail) :
    r.tryNext xxh3 = .ok (some (⟨f.delta, f.numItems, (r.advance f.payload.length).consumed⟩,
      r.advance f.payload.length)) := by
  have positive := valid.positive
  have capped := valid.capped
  have cap : MAX_RECORD_BYTES = 2 ^ 26 := by decide
  have length := congrArg List.length rest
  rw [List.length_append, frame_length] at length
  have first : r.rest.take 4 = leBytes 4 f.payload.length := by
    rw [rest, Frame.bytes, List.append_assoc, List.take_left' (leBytes_length _ _)]
  have body : r.rest.drop 4 = f.covered ++ (leBytes 8 (xxh3 f.covered).toNat ++ tail) := by
    rw [rest, Frame.bytes, List.append_assoc, List.drop_left' (leBytes_length _ _), List.append_assoc]
  have declared : leNat (leBytes 4 f.payload.length) = f.payload.length :=
    leNat_leBytes_of_lt (by omega)
  rw [JournalReader.tryNext, if_neg (by intro none; rw [none] at length; simp at length; omega),
    if_neg (by omega)]
  dsimp only
  rw [first, declared, if_neg (by omega), body, if_neg (by
    rw [List.length_append, List.length_append, covered_length, leBytes_length]
    omega)]
  have checked : (f.covered ++ (leBytes 8 (xxh3 f.covered).toNat ++ tail)).take
      (8 + f.payload.length) = f.covered := List.take_left' (covered_length f)
  have stored : ((f.covered ++ (leBytes 8 (xxh3 f.covered).toNat ++ tail)).drop
      (8 + f.payload.length)).take 8 = leBytes 8 (xxh3 f.covered).toNat := by
    rw [List.drop_left' (covered_length f), List.take_left' (leBytes_length _ _)]
  have payload : ((f.covered ++ (leBytes 8 (xxh3 f.covered).toNat ++ tail)).drop 8).take
      f.payload.length = f.payload := by
    rw [Frame.covered, List.append_assoc, List.drop_left' (leBytes_length _ _), List.take_left' rfl]
  have items : (f.covered ++ (leBytes 8 (xxh3 f.covered).toNat ++ tail)).take 8 =
      leBytes 8 f.numItems := by
    rw [Frame.covered, List.append_assoc, List.take_left' (leBytes_length _ _)]
  rw [checked, stored, leNat_leBytes_of_lt (xxh3 _).isLt, if_neg (not_not.mpr rfl), payload,
    valid.decodes]
  dsimp only
  rw [if_neg (not_not.mpr next), items, leNat_leBytes_of_lt valid.items]

private theorem leBytes_leNat_take {n : Nat} {bytes : List UInt8} (enough : n ≤ bytes.length) :
    leBytes n (leNat (bytes.take n)) = bytes.take n := by
  have length : (bytes.take n).length = n := by
    rw [List.length_take]
    omega
  have round := leBytes_leNat (bytes.take n)
  rwa [length] at round

/-- What the reader takes is a well-formed record of the expected height. -/
theorem tryNext_inv {record : ScanRecord} {r' : JournalReader}
    (h : r.tryNext xxh3 = .ok (some (record, r'))) : ∃ f tail, r.rest = Frame.bytes xxh3 f ++ tail ∧
      f.Valid r.plaintextBits r.arity ∧ f.delta.block = r.expectedBlock ∧
      record.appended = f.record ∧ r' = r.advance f.payload.length := by
  unfold JournalReader.tryNext at h
  by_cases done : r.rest = []
  · rw [if_pos done] at h
    cases h
  rw [if_neg done] at h
  by_cases few : r.rest.length < 4
  · rw [if_pos few] at h
    cases h
  rw [if_neg few] at h
  dsimp only at h
  generalize hlen : leNat (r.rest.take 4) = len at h
  generalize hbody : r.rest.drop 4 = body at h
  by_cases bounds : len = 0 ∨ MAX_RECORD_BYTES < len
  · rw [if_pos bounds] at h
    cases h
  rw [if_neg bounds] at h
  by_cases short : body.length < 8 + len + 8
  · rw [if_pos short] at h
    cases h
  rw [if_neg short] at h
  by_cases damaged : (xxh3 (body.take (8 + len))).toNat ≠ leNat ((body.drop (8 + len)).take 8)
  · rw [if_pos damaged] at h
    cases h
  rw [if_neg damaged] at h
  cases decoded : decodeBlockDelta ((body.drop 8).take len) r.plaintextBits r.arity with
  | error e =>
      rw [decoded] at h
      cases h
  | ok delta =>
      rw [decoded] at h
      dsimp only at h
      by_cases gap : delta.block ≠ r.expectedBlock
      · rw [if_pos gap] at h
        cases h
      rw [if_neg gap] at h
      cases h
      have payload : ((body.drop 8).take len).length = len := by
        rw [List.length_take, List.length_drop]
        omega
      have items : leNat (body.take 8) < 256 ^ 8 := by
        have bound := leNat_lt (body.take 8)
        rw [List.length_take, Nat.min_eq_left (by omega)] at bound
        exact bound
      have covered : leBytes 8 (leNat (body.take 8)) ++ (body.drop 8).take len =
          body.take (8 + len) := by
        rw [leBytes_leNat_take (by omega), List.take_add]
      have stored : leBytes 8 (xxh3 (body.take (8 + len))).toNat = (body.drop (8 + len)).take 8 := by
        rw [not_not.mp damaged, leBytes_leNat_take]
        rw [List.length_drop]
        omega
      refine ⟨⟨(body.drop 8).take len, leNat (body.take 8), delta⟩, body.drop (8 + len + 8), ?_,
        ⟨by rw [payload]; omega, by rw [payload]; omega, items, decoded⟩, not_not.mp gap, rfl,
        by rw [payload]⟩
      dsimp only [Frame.bytes, Frame.covered]
      have left : body.drop (8 + len + 8) = (body.drop (8 + len)).drop 8 := by rw [List.drop_drop]
      rw [covered, stored, payload, left, ← hlen, leBytes_leNat_take (by omega), hlen,
        List.append_assoc, List.append_assoc, List.take_append_drop, List.take_append_drop, ← hbody,
        List.take_append_drop]

theorem advance_rest {f : Frame} {tail : List UInt8} (rest : r.rest = f.bytes xxh3 ++ tail) :
    (r.advance f.payload.length).rest = tail := by
  show r.rest.drop _ = _
  rw [rest, List.drop_left' (frame_length f)]

theorem framesBytes_cons (f : Frame) (frames : List Frame) :
    framesBytes xxh3 (f :: frames) = f.bytes xxh3 ++ framesBytes xxh3 frames := List.flatMap_cons

/-- Whatever well-formed records stand at the front, the reader takes them first. -/
theorem scan_frames {frames : List Frame} {tail : List UInt8} {fuel : Nat}
    (heights : Heights r.plaintextBits r.arity r.expectedBlock frames)
    (rest : r.rest = framesBytes xxh3 frames ++ tail) :
    ∃ r' : JournalReader, r'.rest = tail ∧ r'.plaintextBits = r.plaintextBits ∧ r'.arity = r.arity ∧
      r'.expectedBlock = r.expectedBlock + frames.length ∧
      r'.consumed = r.consumed + (framesBytes xxh3 frames).length ∧
      (r.scan xxh3 (frames.length + fuel)).1.map ScanRecord.appended =
        frames.map Frame.record ++ (r'.scan xxh3 fuel).1.map ScanRecord.appended ∧
      (r.scan xxh3 (frames.length + fuel)).2 = (r'.scan xxh3 fuel).2 := by
  induction frames generalizing r with
  | nil =>
      refine ⟨r, rest, rfl, rfl, rfl, rfl, ?_, ?_⟩
      · rw [List.length_nil, Nat.zero_add]
        rfl
      · rw [List.length_nil, Nat.zero_add]
  | cons f frames ih =>
      generalize hheight : r.expectedBlock = height at heights
      cases heights with
      | cons valid later =>
          rw [framesBytes_cons, List.append_assoc] at rest
          have next := tryNext_frame valid hheight.symm rest
          have behind := advance_rest rest
          have step : (r.advance f.payload.length).expectedBlock = f.delta.block + 1 :=
            congrArg (· + 1) hheight
          obtain ⟨r', hrest, bits, arity, height, consumed, records, reader⟩ :=
            ih (r := r.advance f.payload.length) (by rw [step]; exact later) behind
          have fueled : (f :: frames).length + fuel = frames.length + fuel + 1 := by
            rw [List.length_cons]
            omega
          refine ⟨r', hrest, bits, arity, ?_, ?_, ?_, ?_⟩
          · rw [height, step, List.length_cons]
            omega
          · have moved : (r.advance f.payload.length).consumed =
                r.consumed + (4 + 8 + f.payload.length + 8) := rfl
            rw [consumed, moved, framesBytes_cons, List.length_append, frame_length]
            omega
          · rw [fueled, JournalReader.scan, next]
            dsimp only
            rw [List.map_cons, records]
            rfl
          · rw [fueled, JournalReader.scan, next]
            exact reader

/-- The reader's records are well-formed and stand at the front, and it stops behind them. -/
theorem scan_spec {fuel : Nat} (enough : r.rest.length < fuel) :
    ∃ frames, Longest xxh3 r.plaintextBits r.arity r.expectedBlock r.rest frames ∧
      (r.scan xxh3 fuel).1.map ScanRecord.appended = frames.map Frame.record ∧
      (r.scan xxh3 fuel).2.1.expectedBlock = r.expectedBlock + frames.length ∧
      (r.scan xxh3 fuel).2.1.consumed = r.consumed + (framesBytes xxh3 frames).length := by
  have stopped : ∀ r : JournalReader, r.Stops xxh3 →
      Longest xxh3 r.plaintextBits r.arity r.expectedBlock r.rest [] := by
    intro r stops
    refine ⟨⟨r.rest, rfl⟩, .nil _, fun frames tail rest heights => ?_⟩
    generalize hheight : r.expectedBlock = height at heights
    cases heights with
    | nil => exact List.prefix_refl _
    | cons valid later =>
        rw [framesBytes_cons, List.append_assoc] at rest
        exact absurd (tryNext_frame valid hheight.symm rest) (stops _)
  induction fuel generalizing r with
  | zero => omega
  | succ fuel ih =>
      rw [JournalReader.scan]
      cases next : r.tryNext xxh3 with
      | error e =>
          have stops : r.Stops xxh3 := fun out => by
            rw [next]
            simp
          exact ⟨[], stopped r stops, rfl, rfl, rfl⟩
      | ok out =>
          cases out with
          | none =>
              have stops : r.Stops xxh3 := fun out => by
                rw [next]
                simp
              exact ⟨[], stopped r stops, rfl, rfl, rfl⟩
          | some out =>
              obtain ⟨record, r'⟩ := out
              obtain ⟨f, tail, rest, valid, block, given, rfl⟩ := tryNext_inv next
              have behind := advance_rest rest
              have step : (r.advance f.payload.length).expectedBlock = f.delta.block + 1 :=
                congrArg (· + 1) block.symm
              have room : (r.advance f.payload.length).rest.length < fuel := by
                have length := congrArg List.length rest
                rw [List.length_append, frame_length] at length
                rw [behind]
                omega
              obtain ⟨frames, longest, records, height, consumed⟩ := ih room
              refine ⟨f :: frames, ⟨?_, ?_, ?_⟩, ?_, ?_, ?_⟩
              · obtain ⟨tail', front⟩ := longest.front
                refine ⟨tail', ?_⟩
                rw [rest, ← behind, front, framesBytes_cons, List.append_assoc]
              · rw [← block]
                refine .cons valid ?_
                rw [← step]
                exact longest.heights
              · intro frames' tail' rest' heights
                generalize hheight : r.expectedBlock = start at heights
                cases heights with
                | nil => exact List.nil_prefix
                | @cons f' frames' valid' later =>
                    rw [framesBytes_cons, List.append_assoc] at rest'
                    obtain ⟨rfl, rfl⟩ := frame_unique valid valid' (rest.symm.trans rest')
                    rw [List.cons_prefix_cons]
                    refine ⟨rfl, longest.longest frames' tail' behind ?_⟩
                    rw [step]
                    exact later
              · rw [List.map_cons, records, given]
                rfl
              · rw [height, step, List.length_cons, block]
                omega
              · have moved : (r.advance f.payload.length).consumed =
                    r.consumed + (4 + 8 + f.payload.length + 8) := rfl
                rw [consumed, moved, framesBytes_cons, List.length_append, frame_length]
                omega

end Frames

section Checked

variable (xxh3 : List UInt8 → BitVec 64)

/-- `JournalReader::open`; `none` where `base_block + 1` overflows. -/
def openChecked (bytes : List UInt8) (plaintextBits arity : Nat) :
    Option (Except JournalError (JournalHeader × JournalReader)) :=
  match JournalReader.open xxh3 bytes plaintextBits arity with
  | .error e => some (.error e)
  | .ok (header, r) => if header.baseBlock + 1 < 2 ^ 64 then some (.ok (header, r)) else none

/-- `try_next`; `none` where `expected_block += 1` overflows. -/
def tryNextChecked (r : JournalReader) :
    Option (Except (String × Nat) (Option (ScanRecord × JournalReader))) :=
  match r.tryNext xxh3 with
  | .error e => some (.error e)
  | .ok none => some (.ok none)
  | .ok (some out) => if r.expectedBlock + 1 < 2 ^ 64 then some (.ok (some out)) else none

/-- The iteration to its end. -/
def scanChecked : Nat → JournalReader → Option (List ScanRecord × JournalReader × ScanStop)
  | 0, r => some ([], r, .eof)
  | fuel + 1, r =>
      match tryNextChecked xxh3 r with
      | none => none
      | some (.ok none) => some ([], r, .eof)
      | some (.error (reason, offset)) => some ([], r, .invalid offset reason)
      | some (.ok (some (record, r'))) =>
          (scanChecked fuel r').map fun out => (record :: out.1, out.2)

/-- A journal file read to its end in a build with overflow checks. -/
def readJournal (bytes : List UInt8) (plaintextBits arity : Nat) : Option (Except JournalError
    (JournalHeader × List ScanRecord × JournalReader × ScanStop)) :=
  match openChecked xxh3 bytes plaintextBits arity with
  | none => none
  | some (.error e) => some (.error e)
  | some (.ok (header, r)) =>
      (scanChecked xxh3 (r.rest.length + 1) r).map fun out => .ok (header, out)

/-- `scan_report_only` over an existing file, in a build with overflow checks. -/
def reportOnly (bytes : List UInt8) (baseDigest plaintextBits arity : Nat) :
    Option (Option JournalReportOnly) :=
  match openChecked xxh3 bytes plaintextBits arity with
  | none => none
  | some (.error _) => some none
  | some (.ok (header, r)) =>
      if header.baseDigest ≠ baseDigest then some none
      else (scanChecked xxh3 (r.rest.length + 1) r).map fun out =>
        some ⟨out.1.length, out.2.1.lastValidHeight, out.2.1.validEndOffset, out.2.2⟩

/-- `append`; `none` where `last + 1` overflows. -/
def appendChecked (w : JournalWriter) (delta : BlockDelta) (numItemsAfter : Nat) :
    Option (Except JournalError JournalWriter) :=
  if w.last + 1 < 2 ^ 64 then some (w.append xxh3 delta numItemsAfter) else none

/-- Records appended one after the other, up to the first refusal. -/
def appendAll (w : JournalWriter) : List (BlockDelta × Nat) → Option (Except JournalError JournalWriter)
  | [] => some (.ok w)
  | rec :: recs =>
      match appendChecked xxh3 w rec.1 rec.2 with
      | some (.ok w') => appendAll w' recs
      | other => other

variable {xxh3} {r : JournalReader}

theorem scan_height_le (fuel : Nat) (r : JournalReader) :
    r.expectedBlock ≤ (r.scan xxh3 fuel).2.1.expectedBlock := by
  induction fuel generalizing r with
  | zero => exact le_rfl
  | succ fuel ih =>
      rw [JournalReader.scan]
      cases next : r.tryNext xxh3 with
      | error e => exact le_rfl
      | ok out =>
          cases out with
          | none => exact le_rfl
          | some out =>
              obtain ⟨record, r'⟩ := out
              obtain ⟨f, -, -, -, -, -, rfl⟩ := tryNext_inv next
              exact le_trans (Nat.le_succ _) (ih (r.advance f.payload.length))

/-- The iteration overflows exactly if its height leaves `u64`. -/
theorem scanChecked_eq (fuel : Nat) (word : r.expectedBlock < 2 ^ 64) :
    scanChecked xxh3 fuel r = if (r.scan xxh3 fuel).2.1.expectedBlock < 2 ^ 64 then
      some (r.scan xxh3 fuel) else none := by
  induction fuel generalizing r with
  | zero =>
      rw [if_pos (show (r.scan xxh3 0).2.1.expectedBlock < 2 ^ 64 from word)]
      rfl
  | succ fuel ih =>
      rw [scanChecked, tryNextChecked, JournalReader.scan]
      cases next : r.tryNext xxh3 with
      | error e =>
          dsimp only
          rw [if_pos word]
      | ok out =>
          cases out with
          | none =>
              dsimp only
              rw [if_pos word]
          | some out =>
              obtain ⟨record, r'⟩ := out
              obtain ⟨f, -, -, -, -, -, rfl⟩ := tryNext_inv next
              dsimp only
              by_cases room : r.expectedBlock + 1 < 2 ^ 64
              · rw [if_pos room]
                dsimp only
                rw [ih (r := r.advance f.payload.length) room]
                split
                · rfl
                · rfl
              · have least := @scan_height_le xxh3 fuel (r.advance f.payload.length)
                have step : (r.advance f.payload.length).expectedBlock = r.expectedBlock + 1 := rfl
                rw [if_neg room, if_neg (by omega)]

end Checked

section Opening

variable {xxh3 : List UInt8 → BitVec 64} {plaintextBits arity : Nat} {bytes : List UInt8}

/-- What `open` accepts is a header and the rest of the file. -/
theorem open_inv {header : JournalHeader} {r : JournalReader}
    (h : JournalReader.open xxh3 bytes plaintextBits arity = .ok (header, r)) :
    bytes = headerBytes xxh3 header.baseDigest header.baseBlock ++ r.rest ∧
      header.baseDigest < 2 ^ 64 ∧ header.baseBlock < 2 ^ 64 ∧
      r = ⟨r.rest, plaintextBits, arity, HEADER_LEN, header.baseBlock + 1⟩ := by
  unfold JournalReader.open at h
  have head : HEADER_LEN = 29 := by decide
  by_cases short : bytes.length < HEADER_LEN
  · rw [if_pos short] at h
    cases h
  rw [if_neg short] at h
  by_cases magic : bytes.take 5 ≠ MAGIC
  · rw [if_pos magic] at h
    cases h
  rw [if_neg magic] at h
  by_cases damaged : (xxh3 (bytes.take 21)).toNat ≠ leNat ((bytes.drop 21).take 8)
  · rw [if_pos damaged] at h
    cases h
  rw [if_neg damaged] at h
  cases h
  have word : ∀ n, leNat ((bytes.drop n).take 8) < 2 ^ 64 := by
    intro n
    refine lt_of_lt_of_le (leNat_lt _) ?_
    rw [show 2 ^ 64 = 256 ^ 8 by decide]
    exact Nat.pow_le_pow_right (by omega) (List.length_take_le _ _)
  have digest : leBytes 8 (leNat ((bytes.drop 5).take 8)) = (bytes.drop 5).take 8 :=
    leBytes_leNat_take (by rw [List.length_drop]; omega)
  have block : leBytes 8 (leNat ((bytes.drop 13).take 8)) = (bytes.drop 13).take 8 :=
    leBytes_leNat_take (by rw [List.length_drop]; omega)
  have stored : leBytes 8 (leNat ((bytes.drop 21).take 8)) = (bytes.drop 21).take 8 :=
    leBytes_leNat_take (by rw [List.length_drop]; omega)
  have covered : MAGIC ++ (bytes.drop 5).take 8 ++ (bytes.drop 13).take 8 = bytes.take 21 := by
    rw [← not_not.mp magic, ← List.take_add, ← List.take_add]
  refine ⟨?_, word 5, word 13, rfl⟩
  dsimp only
  rw [headerBytes, digest, block, covered, not_not.mp damaged, stored, ← List.take_add, head,
    List.take_append_drop]

/-- A header stands at the front of the bytes. -/
def HasHeader (xxh3 : List UInt8 → BitVec 64) (bytes : List UInt8) : Prop :=
  ∃ baseDigest baseBlock rest, baseDigest < 2 ^ 64 ∧ baseBlock < 2 ^ 64 ∧
    bytes = headerBytes xxh3 baseDigest baseBlock ++ rest

end Opening

section Reading

variable (xxh3 : List UInt8 → BitVec 64) (plaintextBits arity : Nat)

/-- What the two readers say of a file: no header, or the longest front of well-formed records of
consecutive heights and where it ends. -/
inductive Reports (bytes : List UInt8) : Except JournalError
    (JournalHeader × List ScanRecord × JournalReader × ScanStop) → Prop
  | refused {e : JournalError} (none : ¬ HasHeader xxh3 bytes)
      (report : ∀ digest, reportOnly xxh3 bytes digest plaintextBits arity = some .none) :
      Reports bytes (.error e)
  | read {header : JournalHeader} {records : List ScanRecord} {reader : JournalReader}
      {stop : ScanStop} {rest : List UInt8} {frames : List Frame}
      (digest : header.baseDigest < 2 ^ 64) (block : header.baseBlock < 2 ^ 64)
      (front : bytes = headerBytes xxh3 header.baseDigest header.baseBlock ++ rest)
      (longest : Longest xxh3 plaintextBits arity (header.baseBlock + 1) rest frames)
      (given : records.map ScanRecord.appended = frames.map Frame.record)
      (offset : reader.validEndOffset = HEADER_LEN + (framesBytes xxh3 frames).length)
      (height : reader.lastValidHeight = header.baseBlock + frames.length)
      (report : ∀ digest, reportOnly xxh3 bytes digest plaintextBits arity =
        some (if header.baseDigest ≠ digest then none
          else some ⟨frames.length, header.baseBlock + frames.length,
            HEADER_LEN + (framesBytes xxh3 frames).length, stop⟩)) :
      Reports bytes (.ok (header, records, reader, stop))

/-- The file is read without an overflow, and what is said of it is right. -/
def ReadsLongest (bytes : List UInt8) : Prop :=
  ∃ result, readJournal xxh3 bytes plaintextBits arity = some result ∧
    Reports xxh3 plaintextBits arity bytes result

/-- The header or a well-formed record of the file has the height `u64::MAX`. -/
def ReachesTop (bytes : List UInt8) : Prop :=
  ∃ baseDigest baseBlock frames tail, baseDigest < 2 ^ 64 ∧ baseBlock < 2 ^ 64 ∧
    bytes = headerBytes xxh3 baseDigest baseBlock ++ (framesBytes xxh3 frames ++ tail) ∧
    Heights plaintextBits arity (baseBlock + 1) frames ∧ baseBlock + frames.length = 2 ^ 64 - 1

variable {xxh3 plaintextBits arity}

theorem decoded_block_lt {bytes : List UInt8} {delta : BlockDelta}
    (h : decodeBlockDelta bytes plaintextBits arity = .ok delta) : delta.block < 2 ^ 64 := by
  obtain ⟨-, -, -, -, -, block⟩ := decode_ok h
  rw [block]
  refine lt_of_lt_of_le (leNat_lt _) ?_
  rw [show 2 ^ 64 = 256 ^ 8 by decide]
  exact Nat.pow_le_pow_right (by omega) (List.length_take_le _ _)

theorem Heights.top_le {height : Nat} {frames : List Frame}
    (h : Heights plaintextBits arity height frames) (start : height ≤ 2 ^ 64) :
    height + frames.length ≤ 2 ^ 64 := by
  induction h with
  | nil height => exact start
  | cons valid later ih =>
      have block := decoded_block_lt valid.decodes
      have rest := ih (by omega)
      rw [List.length_cons]
      omega

/-- A height at the top overflows the reader's counter. -/
theorem readJournal_top {bytes : List UInt8} (top : ReachesTop xxh3 plaintextBits arity bytes) :
    readJournal xxh3 bytes plaintextBits arity = none := by
  obtain ⟨baseDigest, baseBlock, frames, tail, digest, block, rfl, heights, top⟩ := top
  rw [readJournal, openChecked, open_header digest block]
  dsimp only
  by_cases room : baseBlock + 1 < 2 ^ 64
  · rw [if_pos room]
    dsimp only
    rw [scanChecked_eq _ room]
    obtain ⟨held, longest, -, height, -⟩ := @scan_spec xxh3
      ⟨framesBytes xxh3 frames ++ tail, plaintextBits, arity, HEADER_LEN, baseBlock + 1⟩ _
      (Nat.lt_succ_self _)
    have least := (longest.longest frames tail rfl heights).length_le
    dsimp only at height
    rw [if_neg (by rw [height]; omega)]
    rfl
  · rw [if_neg room]

/-- Any other file is read, and reported as it is. -/
theorem reads_below_top {bytes : List UInt8} (below : ¬ ReachesTop xxh3 plaintextBits arity bytes) :
    ReadsLongest xxh3 plaintextBits arity bytes := by
  unfold ReadsLongest readJournal
  cases opened : JournalReader.open xxh3 bytes plaintextBits arity with
  | error e =>
      have headless : ¬ HasHeader xxh3 bytes := by
        rintro ⟨baseDigest, baseBlock, rest, digest, block, rfl⟩
        rw [open_header digest block] at opened
        cases opened
      refine ⟨.error e, by rw [openChecked, opened], .refused headless fun digest => ?_⟩
      rw [reportOnly, openChecked, opened]
  | ok out =>
      obtain ⟨header, r⟩ := out
      obtain ⟨front, digest, block, reader⟩ := open_inv opened
      have room : header.baseBlock + 1 < 2 ^ 64 := by
        by_contra full
        exact below ⟨_, _, [], r.rest, digest, block, front, .nil _, by rw [List.length_nil]; omega⟩
      have expected : r.expectedBlock = header.baseBlock + 1 := by rw [reader]
      have bits : r.plaintextBits = plaintextBits := by rw [reader]
      have segments : r.arity = arity := by rw [reader]
      have start : r.consumed = HEADER_LEN := by rw [reader]
      obtain ⟨frames, longest, given, height, consumed⟩ :=
        @scan_spec xxh3 r (r.rest.length + 1) (Nat.lt_succ_self _)
      rw [bits, segments, expected] at longest
      have most := longest.heights.top_le (by omega)
      obtain ⟨tail, held⟩ := longest.front
      have inside : (r.scan xxh3 (r.rest.length + 1)).2.1.expectedBlock < 2 ^ 64 := by
        rw [height, expected]
        by_contra full
        exact below ⟨_, _, frames, tail, digest, block, by rw [← held]; exact front,
          longest.heights, by omega⟩
      have scanned := @scanChecked_eq xxh3 r (r.rest.length + 1) (by omega)
      rw [if_pos inside] at scanned
      have checked : openChecked xxh3 bytes plaintextBits arity = some (.ok (header, r)) := by
        rw [openChecked, opened]
        dsimp only
        rw [if_pos room]
      have count : (r.scan xxh3 (r.rest.length + 1)).1.length = frames.length := by
        have lengths := congrArg List.length given
        rwa [List.length_map, List.length_map] at lengths
      have last : (r.scan xxh3 (r.rest.length + 1)).2.1.lastValidHeight =
          header.baseBlock + frames.length := by
        rw [JournalReader.lastValidHeight, height, expected]
        omega
      have stop : (r.scan xxh3 (r.rest.length + 1)).2.1.validEndOffset =
          HEADER_LEN + (framesBytes xxh3 frames).length := by
        rw [JournalReader.validEndOffset, consumed, start]
      refine ⟨.ok (header, r.scan xxh3 (r.rest.length + 1)), ?_,
        .read digest block front longest given stop last fun name => ?_⟩
      · rw [checked]
        dsimp only
        rw [scanned]
        rfl
      · rw [reportOnly, checked]
        dsimp only
        by_cases other : header.baseDigest ≠ name
        · rw [if_pos other, if_pos other]
        · rw [if_neg other, if_neg other, scanned]
          simp only [Option.map_some, count, last, stop]
          rfl

theorem reads_longest_iff (bytes : List UInt8) :
    ReadsLongest xxh3 plaintextBits arity bytes ↔ ¬ ReachesTop xxh3 plaintextBits arity bytes := by
  constructor
  · rintro ⟨result, read, -⟩ top
    rw [readJournal_top top] at read
    cases read
  · exact reads_below_top

/-- The reader without the bound of `u64`, over a whole file. -/
def readFile (xxh3 : List UInt8 → BitVec 64) (bytes : List UInt8) (plaintextBits arity : Nat) :
    Except JournalError (JournalHeader × List ScanRecord × JournalReader × ScanStop) :=
  match JournalReader.open xxh3 bytes plaintextBits arity with
  | .error e => .error e
  | .ok (header, r) => .ok (header, r.records xxh3)

/-- The two readers read every file alike whose heights stay below `u64::MAX`. -/
theorem readJournal_eq {bytes : List UInt8} {result : Except JournalError
    (JournalHeader × List ScanRecord × JournalReader × ScanStop)} :
    readJournal xxh3 bytes plaintextBits arity = some result ↔
      ¬ ReachesTop xxh3 plaintextBits arity bytes ∧
        readFile xxh3 bytes plaintextBits arity = result := by
  have agree : ∀ {result}, readJournal xxh3 bytes plaintextBits arity = some result →
      readFile xxh3 bytes plaintextBits arity = result := by
    intro result read
    rw [readJournal, openChecked] at read
    rw [readFile]
    cases opened : JournalReader.open xxh3 bytes plaintextBits arity with
    | error e =>
        rw [opened] at read
        exact Option.some.inj read
    | ok out =>
        obtain ⟨header, r⟩ := out
        have expected : r.expectedBlock = header.baseBlock + 1 := by
          rw [(open_inv opened).2.2.2]
        rw [opened] at read
        dsimp only at read ⊢
        by_cases room : header.baseBlock + 1 < 2 ^ 64
        · rw [if_pos room] at read
          dsimp only at read
          rw [scanChecked_eq _ (expected ▸ room)] at read
          by_cases inside : (r.scan xxh3 (r.rest.length + 1)).2.1.expectedBlock < 2 ^ 64
          · rw [if_pos inside] at read
            exact Option.some.inj read
          · rw [if_neg inside] at read
            cases read
        · rw [if_neg room] at read
          cases read
  constructor
  · intro read
    refine ⟨fun top => ?_, agree read⟩
    rw [readJournal_top top] at read
    cases read
  · rintro ⟨below, rfl⟩
    obtain ⟨result, read, -⟩ := reads_below_top below
    rw [agree read, read]

/-- Where nothing overflows, the report is that of the reader without the bound. -/
theorem reportOnly_eq {bytes : List UInt8} {baseDigest : Nat} {report : Option JournalReportOnly}
    (h : reportOnly xxh3 bytes baseDigest plaintextBits arity = some report) :
    (scanReportOnly xxh3 bytes baseDigest plaintextBits arity).map Prod.snd = report := by
  rw [reportOnly, openChecked] at h
  rw [scanReportOnly]
  cases opened : JournalReader.open xxh3 bytes plaintextBits arity with
  | error e =>
      rw [opened] at h
      exact Option.some.inj h
  | ok out =>
      obtain ⟨header, r⟩ := out
      have expected : r.expectedBlock = header.baseBlock + 1 := by
        rw [(open_inv opened).2.2.2]
      rw [opened] at h
      dsimp only at h ⊢
      by_cases room : header.baseBlock + 1 < 2 ^ 64
      · rw [if_pos room] at h
        dsimp only at h
        split_ifs at h ⊢ with other
        · exact Option.some.inj h
        · rw [scanChecked_eq _ (expected ▸ room)] at h
          by_cases inside : (r.scan xxh3 (r.rest.length + 1)).2.1.expectedBlock < 2 ^ 64
          · rw [if_pos inside] at h
            exact Option.some.inj h
          · rw [if_neg inside] at h
            cases h
      · rw [if_neg room] at h
        cases h

/-- What was read is reported as it is. -/
theorem readJournal_reports {bytes : List UInt8} {result : Except JournalError
    (JournalHeader × List ScanRecord × JournalReader × ScanStop)}
    (read : readJournal xxh3 bytes plaintextBits arity = some result) :
    Reports xxh3 plaintextBits arity bytes result := by
  obtain ⟨result', read', reports⟩ := reads_below_top (readJournal_eq.mp read).1
  obtain rfl := Option.some.inj (read.symm.trans read')
  exact reports

end Reading

section Writing

/-- A writer and the records that stand before what it appends. -/
inductive Opened (xxh3 : List UInt8 → BitVec 64) (plaintextBits arity : Nat) :
    JournalWriter → List (BlockDelta × Nat) → Prop
  | created {baseDigest baseBlock : Nat} (digest : baseDigest < 2 ^ 64) (block : baseBlock < 2 ^ 64) :
      Opened xxh3 plaintextBits arity (.create xxh3 baseDigest baseBlock plaintextBits) []
  | adopted {bytes : List UInt8} {header : JournalHeader} {records : List ScanRecord}
      {reader : JournalReader} {stop : ScanStop}
      (read : readJournal xxh3 bytes plaintextBits arity = some (.ok (header, records, reader, stop))) :
      Opened xxh3 plaintextBits arity
        (.adopt bytes plaintextBits reader.validEndOffset reader.lastValidHeight)
        (records.map ScanRecord.appended)

/-- A canonical delta of the deployment with entries below `2 ^ plaintext_bits`, within the widths
of its types. -/
structure Recordable (plaintextBits arity : Nat) (rec : BlockDelta × Nat) : Prop where
  segments : rec.1.perSegment.length = arity
  canonical : rec.1.IsCanonical
  fits : WireFits plaintextBits rec.1
  items : rec.2 < 2 ^ 64

/-- The writer's file, read back, has these records and is read without an overflow. -/
def ReadsBack (xxh3 : List UInt8 → BitVec 64) (plaintextBits arity : Nat) (w : JournalWriter)
    (records : List (BlockDelta × Nat)) : Prop :=
  ∃ header out, readJournal xxh3 w.bytes plaintextBits arity = some (.ok (header, out)) ∧
    out.1.map ScanRecord.appended = records

variable {xxh3 : List UInt8 → BitVec 64} {plaintextBits arity : Nat} {w w' : JournalWriter}
  {held recs : List (BlockDelta × Nat)}

/-- What a writer starts with: a header, and well-formed records up to its last height. -/
theorem Opened.file (h : Opened xxh3 plaintextBits arity w held) :
    ∃ baseDigest baseBlock frames, baseDigest < 2 ^ 64 ∧ baseBlock < 2 ^ 64 ∧
      w.bytes = headerBytes xxh3 baseDigest baseBlock ++ framesBytes xxh3 frames ∧
      Heights plaintextBits arity (baseBlock + 1) frames ∧ frames.map Frame.record = held ∧
      w.last = baseBlock + frames.length := by
  cases h with
  | @created baseDigest baseBlock digest block =>
      refine ⟨baseDigest, baseBlock, [], digest, block, ?_, .nil _, rfl, rfl⟩
      rw [framesBytes, List.flatMap_nil, List.append_nil]
      rfl
  | @adopted bytes header records reader stop read =>
      have reports := readJournal_reports read
      cases reports with
      | @read _ _ _ _ rest frames digest block front longest given offset height report =>
          obtain ⟨tail, split⟩ := longest.front
          refine ⟨header.baseDigest, header.baseBlock, frames, digest, block, ?_,
            longest.heights, given.symm, height⟩
          have length : (headerBytes xxh3 header.baseDigest header.baseBlock ++
              framesBytes xxh3 frames).length = reader.validEndOffset := by
            rw [List.length_append, headerBytes_length, offset]
          show bytes.take reader.validEndOffset = _
          rw [front, split, ← List.append_assoc, List.take_left' length]

/-- What was appended stands behind what was there, under consecutive heights. -/
theorem appendAll_ok (h : appendAll xxh3 w recs = some (.ok w')) :
    Numbered (w.last + 1) recs ∧ (∀ rec ∈ recs, (encodeBlockDelta rec.1).length < 2 ^ 32) ∧
      w'.bytes = w.bytes ++ recordsBytes xxh3 recs ∧ w'.last = w.last + recs.length := by
  induction recs generalizing w with
  | nil =>
      cases h
      exact ⟨trivial, by simp, by rw [recordsBytes, List.flatMap_nil, List.append_nil], rfl⟩
  | cons rec recs ih =>
      rw [appendAll, appendChecked] at h
      by_cases room : w.last + 1 < 2 ^ 64
      · rw [if_pos room, JournalWriter.append] at h
        by_cases gap : rec.1.block ≠ w.last + 1
        · rw [if_pos gap] at h
          cases h
        by_cases long : 2 ^ 32 ≤ (encodeBlockDelta rec.1).length
        · rw [if_neg gap, if_pos long] at h
          cases h
        rw [if_neg gap, if_neg long] at h
        dsimp only at h
        obtain ⟨numbered, lengths, bytes, last⟩ := ih h
        have block := not_not.mp gap
        refine ⟨⟨block, ?_⟩, ?_, ?_, ?_⟩
        · rw [← block]
          exact numbered
        · intro rec' mem
          rcases List.mem_cons.mp mem with rfl | later
          · omega
          · exact lengths rec' later
        · rw [bytes, recordsBytes, recordsBytes, List.flatMap_cons, List.append_assoc]
        · rw [last, List.length_cons]
          dsimp only
          omega
      · rw [if_neg room] at h
        cases h

theorem framesBytes_length_le (frames : List Frame) :
    frames.length ≤ (framesBytes xxh3 frames).length := by
  induction frames with
  | nil => exact Nat.zero_le _
  | cons f frames ih =>
      rw [framesBytes_cons, List.length_append, frame_length, List.length_cons]
      omega

/-- A file of well-formed records and appended ones is read up to the first that is beyond the
reader's cap. -/
theorem scan_file {r : JournalReader} {frames : List Frame}
    (heights : Heights r.plaintextBits r.arity r.expectedBlock frames)
    (rest : r.rest = framesBytes xxh3 frames ++ recordsBytes xxh3 recs)
    (numbered : Numbered (r.expectedBlock + frames.length) recs)
    (journalable : ∀ rec ∈ recs, Journalable r rec.1 rec.2) :
    (r.scan xxh3 (r.rest.length + 1)).1.map ScanRecord.appended =
        frames.map Frame.record ++ recs.takeWhile withinCap ∧
      (r.scan xxh3 (r.rest.length + 1)).2.1.expectedBlock =
        r.expectedBlock + frames.length + (recs.takeWhile withinCap).length := by
  have frames_le := @framesBytes_length_le xxh3 frames
  have records_le := @recordsBytes_length_le xxh3 recs
  have length := congrArg List.length rest
  rw [List.length_append] at length
  obtain ⟨fuel, enough⟩ : ∃ fuel, r.rest.length + 1 = frames.length + fuel :=
    ⟨r.rest.length + 1 - frames.length, by omega⟩
  obtain ⟨r', rest', bits, arity, height, -, records, reader⟩ :=
    @scan_frames xxh3 r frames _ fuel heights rest
  have stops : (r'.past recs).Stops xxh3 := by
    intro out
    rw [JournalReader.tryNext, if_pos (past_rest (by rw [rest', List.append_nil]))]
    simp
  have journalable' : ∀ rec ∈ recs, Journalable r' rec.1 rec.2 := by
    intro rec mem
    have h := journalable rec mem
    exact ⟨by rw [bits, arity]; exact h.decodes, h.length, h.items⟩
  obtain ⟨given, behind⟩ := scan_appended (by rw [height]; exact numbered) journalable'
    (by rw [rest', List.append_nil]) stops (show recs.length < fuel by omega)
  obtain ⟨-, -, past, -⟩ := @past_fields xxh3 r' (recs.takeWhile withinCap)
  rw [enough, records, reader, given, behind, past, height]
  exact ⟨rfl, rfl⟩

/-- What the writers accept is read back exactly within the reader's limits. -/
theorem reads_back_iff (bits : 1 ≤ plaintextBits ∧ plaintextBits ≤ 31)
    (opened : Opened xxh3 plaintextBits arity w held)
    (recordable : ∀ rec ∈ recs, Recordable plaintextBits arity rec)
    (accepted : appendAll xxh3 w recs = some (.ok w')) :
    ReadsBack xxh3 plaintextBits arity w' (held ++ recs) ↔
      (∀ rec ∈ recs, withinCap rec = true) ∧ w.last + recs.length < 2 ^ 64 - 1 := by
  obtain ⟨baseDigest, baseBlock, frames, digest, block, bytes, heights, rfl, last⟩ := opened.file
  obtain ⟨numbered, lengths, bytes', -⟩ := appendAll_ok accepted
  rw [bytes, List.append_assoc] at bytes'
  obtain ⟨r, hr⟩ : ∃ r : JournalReader, r = ⟨framesBytes xxh3 frames ++ recordsBytes xxh3 recs,
      plaintextBits, arity, HEADER_LEN, baseBlock + 1⟩ := ⟨_, rfl⟩
  have start := @open_header xxh3 _ _ digest block
    (framesBytes xxh3 frames ++ recordsBytes xxh3 recs) plaintextBits arity
  rw [← hr] at start
  have expected : r.expectedBlock = baseBlock + 1 := by rw [hr]
  have next : w.last + 1 = baseBlock + 1 + frames.length := by omega
  have journalable : ∀ rec ∈ recs, Journalable r rec.1 rec.2 := by
    intro rec mem
    have here := recordable rec mem
    refine ⟨?_, lengths rec mem, here.items⟩
    rw [hr]
    dsimp only
    rw [← here.segments]
    exact decode_encode bits here.fits here.canonical
  obtain ⟨given, height⟩ := @scan_file xxh3 recs r frames (by rw [hr]; exact heights)
    (by rw [hr]) (by rw [expected, ← next]; exact numbered) journalable
  have whole : recs.takeWhile withinCap = recs ↔ ∀ rec ∈ recs, withinCap rec = true :=
    List.takeWhile_eq_self_iff
  unfold ReadsBack readJournal openChecked
  rw [bytes', start]
  dsimp only
  by_cases room : baseBlock + 1 < 2 ^ 64
  · rw [if_pos room]
    dsimp only
    rw [scanChecked_eq _ (by omega), ← whole]
    by_cases inside : (r.scan xxh3 (r.rest.length + 1)).2.1.expectedBlock < 2 ^ 64
    · rw [if_pos inside]
      constructor
      · rintro ⟨header, out, read, same⟩
        cases read
        rw [given, List.append_cancel_left_eq] at same
        refine ⟨same, ?_⟩
        rw [height, same] at inside
        omega
      · rintro ⟨same, -⟩
        exact ⟨_, _, rfl, by rw [given, same]⟩
    · rw [if_neg inside]
      refine iff_of_false ?_ ?_
      · rintro ⟨header, out, read, -⟩
        cases read
      · rintro ⟨same, below⟩
        rw [height, same] at inside
        omega
  · rw [if_neg room]
    refine iff_of_false ?_ ?_
    · rintro ⟨header, out, read, -⟩
      cases read
    · rintro ⟨-, below⟩
      omega

end Writing

/-- A file is read as it should exactly if no height of it is `u64::MAX`; and what a writer accepts
behind it is read back exactly if no payload exceeds the reader's cap and the heights stay below
`u64::MAX`. -/
theorem journal_agrees_iff {plaintextBits : Nat} (bits : 1 ≤ plaintextBits ∧ plaintextBits ≤ 31)
    (xxh3 : List UInt8 → BitVec 64) (arity : Nat) :
    (∀ bytes, ReadsLongest xxh3 plaintextBits arity bytes ↔
      ¬ ReachesTop xxh3 plaintextBits arity bytes) ∧
    ∀ w held recs w', Opened xxh3 plaintextBits arity w held →
      (∀ rec ∈ recs, Recordable plaintextBits arity rec) →
      appendAll xxh3 w recs = some (.ok w') →
      (ReadsBack xxh3 plaintextBits arity w' (held ++ recs) ↔
        (∀ rec ∈ recs, withinCap rec = true) ∧ w.last + recs.length < 2 ^ 64 - 1) :=
  ⟨reads_longest_iff, fun _ _ _ _ opened recordable accepted =>
    reads_back_iff bits opened recordable accepted⟩

section Limits

/-- One entry in each of the first `rows` rows. -/
def stripe (rows : Nat) : BlockDelta := ⟨8, [(List.range rows).map fun row => (row, [(0, 1)]), []]⟩

theorem stripe_recordable {rows : Nat} (few : rows ≤ 2 ^ 24) {plaintextBits : Nat}
    (bits : 1 ≤ plaintextBits) : Recordable plaintextBits 2 (stripe rows, 1) := by
  have one : 1 < 2 ^ plaintextBits := Nat.one_lt_two_pow (by omega)
  refine ⟨rfl, ?_, ?_, show 1 < 2 ^ 64 by decide⟩
  · intro seg hseg
    rcases List.mem_cons.mp hseg with rfl | later
    · refine ⟨?_, ?_, ?_, ?_⟩
      · rw [List.map_map]
        simpa [Function.comp_def] using List.pairwise_lt_range
      all_goals
        intro row hrow
        obtain ⟨i, -, rfl⟩ := List.mem_map.mp hrow
        simp
    · obtain rfl := List.mem_singleton.mp later
      constructor <;> simp
  · refine ⟨show 8 < 2 ^ 64 by decide, show 2 ≤ 255 by decide, ?_, ?_, ?_⟩
    · intro seg hseg
      rcases List.mem_cons.mp hseg with rfl | later
      · rw [List.length_map, List.length_range]
        omega
      · obtain rfl := List.mem_singleton.mp later
        decide
    · intro seg hseg row hrow
      rcases List.mem_cons.mp hseg with rfl | later
      · obtain ⟨i, hi, rfl⟩ := List.mem_map.mp hrow
        rw [List.mem_range] at hi
        exact ⟨by dsimp only; omega, by simp⟩
      · obtain rfl := List.mem_singleton.mp later
        cases hrow
    · intro seg hseg row hrow e he
      rcases List.mem_cons.mp hseg with rfl | later
      · obtain ⟨i, -, rfl⟩ := List.mem_map.mp hrow
        obtain rfl := List.mem_singleton.mp he
        exact ⟨by decide, one⟩
      · obtain rfl := List.mem_singleton.mp later
        cases hrow

theorem stripe_length (rows : Nat) : 13 + 4 * rows ≤ (encodeBlockDelta (stripe rows)).length ∧
    (encodeBlockDelta (stripe rows)).length ≤ 33 + 40 * rows := by
  have bounds := encodeBlockDelta_length_bounds (stripe rows)
  have count : ((stripe rows).perSegment.map marks).sum = 2 * rows := by
    simp [stripe, marks, Function.comp_def]
    omega
  have segments : (stripe rows).perSegment.length = 2 := rfl
  rw [count, segments] at bounds
  omega

theorem stripe_appended (xxh3 : List UInt8 → BitVec 64) (plaintextBits : Nat) (rows : Nat)
    (few : rows ≤ 2 ^ 24) : ∃ w', appendAll xxh3 (.create xxh3 0 7 plaintextBits) [(stripe rows, 1)] =
      some (.ok w') := by
  have length := (stripe_length rows).2
  have last : (JournalWriter.create xxh3 0 7 plaintextBits).last = 7 := rfl
  have block : (stripe rows).block = 8 := rfl
  rw [appendAll, appendChecked, last, if_pos (by omega), JournalWriter.append, last, block,
    if_neg (by omega), if_neg (by dsimp only; omega)]
  exact ⟨_, rfl⟩

/-- Whatever the checksum: a header of the top height overflows the reader, and a record of `2 ^ 24`
rows is appended to a fresh journal and not read back. -/
theorem limits_differ :
    (∀ xxh3, ¬ ReadsLongest xxh3 9 2 (headerBytes xxh3 0 (2 ^ 64 - 1))) ∧
      ∀ xxh3, Opened xxh3 9 2 (.create xxh3 0 7 9) [] ∧ Recordable 9 2 (stripe (2 ^ 24), 1) ∧
        ∃ w', appendAll xxh3 (.create xxh3 0 7 9) [(stripe (2 ^ 24), 1)] = some (.ok w') ∧
          ¬ ReadsBack xxh3 9 2 w' [(stripe (2 ^ 24), 1)] := by
  constructor
  · intro xxh3 reads
    refine (reads_longest_iff _).mp reads ⟨0, 2 ^ 64 - 1, [], [], by decide, by decide, ?_, .nil _,
      rfl⟩
    rw [framesBytes, List.flatMap_nil, List.append_nil, List.append_nil]
  · intro xxh3
    have opened : Opened xxh3 9 2 (.create xxh3 0 7 9) [] := .created (by decide) (by decide)
    have recordable : Recordable 9 2 (stripe (2 ^ 24), 1) := stripe_recordable le_rfl (by omega)
    obtain ⟨w', accepted⟩ := stripe_appended xxh3 9 (2 ^ 24) le_rfl
    refine ⟨opened, recordable, w', accepted, fun back => ?_⟩
    have each : ∀ rec ∈ [(stripe (2 ^ 24), 1)], Recordable 9 2 rec := by
      intro rec mem
      rw [List.mem_singleton.mp mem]
      exact recordable
    have within := ((reads_back_iff (by omega) opened each accepted).mp back).1
      (stripe (2 ^ 24), 1) List.mem_cons_self
    have length := (stripe_length (2 ^ 24)).1
    have cap : MAX_RECORD_BYTES = 2 ^ 26 := by decide
    rw [withinCap, decide_eq_true_iff] at within
    dsimp only at within
    omega

/-- A record of one row is read back, and its file is read as it should. -/
theorem journal_agrees_iff_oneRow : ∃ w',
    appendAll (fun _ => 0) (.create (fun _ => 0) 0 7 9) [(stripe 1, 1)] = some (.ok w') ∧
      ReadsBack (fun _ => 0) 9 2 w' [(stripe 1, 1)] ∧ ReadsLongest (fun _ => 0) 9 2 w'.bytes := by
  obtain ⟨w', accepted⟩ := stripe_appended (fun _ => 0) 9 1 (by omega)
  have length := (stripe_length 1).2
  have cap : MAX_RECORD_BYTES = 2 ^ 26 := by decide
  obtain ⟨reads, appends⟩ := journal_agrees_iff (show 1 ≤ 9 ∧ 9 ≤ 31 by omega) (fun _ => 0) 2
  have each : ∀ rec ∈ [(stripe 1, 1)], Recordable 9 2 rec ∧ withinCap rec = true := by
    intro rec mem
    rw [List.mem_singleton.mp mem]
    refine ⟨stripe_recordable (by omega) (by omega), ?_⟩
    rw [withinCap, decide_eq_true_iff]
    dsimp only
    omega
  have back := (appends _ [] _ _ (.created (by decide) (by decide)) (fun rec mem => (each rec mem).1)
    accepted).mpr ⟨fun rec mem => (each rec mem).2, by decide⟩
  obtain ⟨header, out, read, -⟩ := id back
  exact ⟨w', accepted, back, (reads w'.bytes).mpr (readJournal_eq.mp read).1⟩

end Limits

end RisePir.Rpc.Framing
