import RisePir.Proto.Codec

set_option autoImplicit false
set_option relaxedAutoImplicit false

/-! The state file's journal: one checksummed record per block behind a header that names
its base. A file is its bytes; `xxh3` is the checksum of a byte string. -/

namespace RisePir.Rpc.Journal

open RisePir.Lib.Digits
open RisePir.Proto.Types
open RisePir.Proto.Codec
open RisePir.Proto.Varint

/-- `b"RPJL1"`. -/
def MAGIC : List UInt8 := [0x52, 0x50, 0x4a, 0x4c, 0x31]

def HEADER_LEN : Nat := 5 + 8 + 8 + 8

/-- The reader's cap on a record's payload. -/
def MAX_RECORD_BYTES : Nat := 64 * 1024 * 1024

inductive JournalError
  | io (msg : String)
  | corrupt (msg : String)
  | gap (expected found : Nat)
  deriving DecidableEq, Repr

structure JournalHeader where
  baseDigest : Nat
  baseBlock : Nat
  deriving DecidableEq, Repr

inductive ScanStop
  | eof
  | invalid (offset : Nat) (reason : String)
  deriving DecidableEq, Repr

structure ScanRecord where
  delta : BlockDelta
  numItemsAfter : Nat
  endOffset : Nat
  deriving DecidableEq, Repr

/-- `JournalReader`, with the unread bytes in place of the file position. Its height is a number;
`Framing.readJournal` is the reader whose `u64` height overflows. -/
structure JournalReader where
  rest : List UInt8
  plaintextBits : Nat
  arity : Nat
  consumed : Nat
  expectedBlock : Nat
  deriving DecidableEq, Repr

/-- `JournalWriter`, with the file's bytes. -/
structure JournalWriter where
  bytes : List UInt8
  plaintextBits : Nat
  last : Nat
  deriving DecidableEq, Repr

section Files

variable (xxh3 : List UInt8 → BitVec 64)

def headerBytes (baseDigest baseBlock : Nat) : List UInt8 :=
  MAGIC ++ leBytes 8 baseDigest ++ leBytes 8 baseBlock ++
    leBytes 8 (xxh3 (MAGIC ++ leBytes 8 baseDigest ++ leBytes 8 baseBlock)).toNat

/-- One record: length, item count, payload, checksum. -/
def recordBytes (delta : BlockDelta) (numItemsAfter : Nat) : List UInt8 :=
  leBytes 4 (encodeBlockDelta delta).length ++ leBytes 8 numItemsAfter ++ encodeBlockDelta delta ++
    leBytes 8 (xxh3 (leBytes 8 numItemsAfter ++ encodeBlockDelta delta)).toNat

namespace JournalReader

/-- `JournalReader::open`. -/
def «open» (bytes : List UInt8) (plaintextBits arity : Nat) :
    Except JournalError (JournalHeader × JournalReader) :=
  if bytes.length < HEADER_LEN then
    .error (.corrupt s!"file too short for a journal header ({bytes.length} bytes, need {HEADER_LEN})")
  else if bytes.take 5 ≠ MAGIC then .error (.corrupt "bad magic (not an RPJL1 journal)")
  else if (xxh3 (bytes.take 21)).toNat ≠ leNat ((bytes.drop 21).take 8) then
    .error (.corrupt "header checksum mismatch")
  else
    let baseBlock := leNat ((bytes.drop 13).take 8)
    .ok (⟨leNat ((bytes.drop 5).take 8), baseBlock⟩,
      ⟨bytes.drop HEADER_LEN, plaintextBits, arity, HEADER_LEN, baseBlock + 1⟩)

def validEndOffset (r : JournalReader) : Nat := r.consumed

def lastValidHeight (r : JournalReader) : Nat := r.expectedBlock - 1

/-- The reader past a record of `len` payload bytes. -/
def advance (r : JournalReader) (len : Nat) : JournalReader :=
  { r with
    rest := r.rest.drop (4 + 8 + len + 8)
    consumed := r.consumed + (4 + 8 + len + 8)
    expectedBlock := r.expectedBlock + 1 }

/-- `try_next`: the next record and the reader past it, the clean end of the file, or why
and where the file stops being valid. -/
def tryNext (r : JournalReader) : Except (String × Nat) (Option (ScanRecord × JournalReader)) :=
  if r.rest = [] then .ok none
  else if r.rest.length < 4 then
    .error ("torn tail: fewer than 4 bytes left for a record length prefix", r.consumed)
  else
    let len := leNat (r.rest.take 4)
    let body := r.rest.drop 4
    if len = 0 ∨ MAX_RECORD_BYTES < len then
      .error (s!"record length {len} out of bounds (0 < len <= {MAX_RECORD_BYTES})", r.consumed)
    else if body.length < 8 + len + 8 then
      .error (s!"declared record length {len} exceeds the remaining file size ({body.length} bytes left)",
        r.consumed)
    else if (xxh3 (body.take (8 + len))).toNat ≠ leNat ((body.drop (8 + len)).take 8) then
      .error ("record checksum mismatch (corrupt or torn record)", r.consumed)
    else
      match decodeBlockDelta ((body.drop 8).take len) r.plaintextBits r.arity with
      | .error e => .error ("record payload decode failed: " ++ e.display, r.consumed)
      | .ok delta =>
          if delta.block ≠ r.expectedBlock then
            .error (s!"height gap: expected block {r.expectedBlock}, record carries block {delta.block}",
              r.consumed)
          else
            .ok (some (⟨delta, leNat (body.take 8), (r.advance len).consumed⟩, r.advance len))

/-- The reader's iteration to its end: the records, the reader behind the last of them, and
why it stopped. Every record takes bytes, so `fuel` past the unread length is never used up. -/
def scan : Nat → JournalReader → List ScanRecord × JournalReader × ScanStop
  | 0, r => ([], r, .eof)
  | fuel + 1, r =>
      match r.tryNext xxh3 with
      | .ok none => ([], r, .eof)
      | .error (reason, offset) => ([], r, .invalid offset reason)
      | .ok (some (record, r')) =>
          let out := scan fuel r'
          (record :: out.1, out.2)

def records (r : JournalReader) : List ScanRecord × JournalReader × ScanStop :=
  r.scan xxh3 (r.rest.length + 1)

end JournalReader

namespace JournalWriter

/-- `JournalWriter::create`: a fresh journal for the base. -/
def create (baseDigest baseBlock plaintextBits : Nat) : JournalWriter :=
  ⟨headerBytes xxh3 baseDigest baseBlock, plaintextBits, baseBlock⟩

/-- `JournalWriter::adopt`: the file truncated to its valid end. -/
def adopt (bytes : List UInt8) (plaintextBits validEndOffset lastValidHeight : Nat) : JournalWriter :=
  ⟨bytes.take validEndOffset, plaintextBits, lastValidHeight⟩

/-- `JournalWriter::append`. Both refusals come before any byte is written. -/
def append (w : JournalWriter) (delta : BlockDelta) (numItemsAfter : Nat) :
    Except JournalError JournalWriter :=
  if delta.block ≠ w.last + 1 then .error (.gap (w.last + 1) delta.block)
  else if 2 ^ 32 ≤ (encodeBlockDelta delta).length then
    .error (.io s!"record payload {(encodeBlockDelta delta).length} bytes exceeds u32::MAX")
  else
    .ok { w with bytes := w.bytes ++ recordBytes xxh3 delta numItemsAfter, last := delta.block }

end JournalWriter

/-- What a report-only scan found. -/
structure JournalReportOnly where
  count : Nat
  endHeight : Nat
  endOffset : Nat
  stop : ScanStop
  deriving DecidableEq, Repr

/-- `scan_report_only` over an existing file, with the header it has checked. -/
def scanReportOnly (bytes : List UInt8) (baseDigest plaintextBits arity : Nat) :
    Option (JournalHeader × JournalReportOnly) :=
  match JournalReader.open xxh3 bytes plaintextBits arity with
  | .error _ => none
  | .ok (header, r) =>
      if header.baseDigest ≠ baseDigest then none
      else
        let out := r.records xxh3
        some (header, ⟨out.1.length, out.2.1.lastValidHeight, out.2.1.validEndOffset, out.2.2⟩)

end Files

section Reading

variable {xxh3 : List UInt8 → BitVec 64} {r : JournalReader} {delta : BlockDelta} {numItems : Nat}

/-- A delta that the journal's reader gives back as it was written. -/
structure Journalable (r : JournalReader) (delta : BlockDelta) (numItems : Nat) : Prop where
  decodes : decodeBlockDelta (encodeBlockDelta delta) r.plaintextBits r.arity = .ok delta
  length : (encodeBlockDelta delta).length < 2 ^ 32
  items : numItems < 2 ^ 64

theorem encodeBlockDelta_length_pos (delta : BlockDelta) : 0 < (encodeBlockDelta delta).length := by
  simp only [encodeBlockDelta, List.length_append, leBytes_length]
  omega

theorem recordBytes_length (delta : BlockDelta) (numItems : Nat) :
    (recordBytes xxh3 delta numItems).length = 4 + 8 + (encodeBlockDelta delta).length + 8 := by
  simp only [recordBytes, List.length_append, leBytes_length]

/-- A record behind its length prefix. -/
def recordBody (xxh3 : List UInt8 → BitVec 64) (delta : BlockDelta) (numItems : Nat) : List UInt8 :=
  (leBytes 8 numItems ++ encodeBlockDelta delta) ++
    leBytes 8 (xxh3 (leBytes 8 numItems ++ encodeBlockDelta delta)).toNat

theorem recordBytes_eq (delta : BlockDelta) (numItems : Nat) : recordBytes xxh3 delta numItems =
    leBytes 4 (encodeBlockDelta delta).length ++ recordBody xxh3 delta numItems := by
  simp only [recordBytes, recordBody, List.append_assoc]

theorem recordBody_length (delta : BlockDelta) (numItems : Nat) :
    (recordBody xxh3 delta numItems).length = 8 + (encodeBlockDelta delta).length + 8 := by
  simp only [recordBody, List.length_append, leBytes_length]

/-- The reader takes the record that stands next, if its payload is within the cap. -/
theorem tryNext_record (h : Journalable r delta numItems)
    (fits : (encodeBlockDelta delta).length ≤ MAX_RECORD_BYTES) (next : delta.block = r.expectedBlock)
    {tail : List UInt8} (rest : r.rest = recordBytes xxh3 delta numItems ++ tail) :
    r.tryNext xxh3 = .ok (some (⟨delta, numItems, (r.advance (encodeBlockDelta delta).length).consumed⟩,
      r.advance (encodeBlockDelta delta).length)) := by
  have positive := encodeBlockDelta_length_pos delta
  have length := congrArg List.length rest
  rw [List.length_append, recordBytes_length] at length
  have prefixed : r.rest.take 4 = leBytes 4 (encodeBlockDelta delta).length := by
    rw [rest, recordBytes_eq, List.append_assoc, List.take_left' (leBytes_length _ _)]
  have body : r.rest.drop 4 = recordBody xxh3 delta numItems ++ tail := by
    rw [rest, recordBytes_eq, List.append_assoc, List.drop_left' (leBytes_length _ _)]
  have counted : (leBytes 8 numItems ++ encodeBlockDelta delta).length =
      8 + (encodeBlockDelta delta).length := by
    rw [List.length_append, leBytes_length]
  have declared : leNat (leBytes 4 (encodeBlockDelta delta).length) =
      (encodeBlockDelta delta).length := leNat_leBytes_of_lt h.length
  rw [JournalReader.tryNext, if_neg (by intro none; rw [none] at length; simp at length; omega),
    if_neg (by omega)]
  dsimp only
  rw [prefixed, declared, if_neg (by omega), body, if_neg (by
    rw [List.length_append, recordBody_length]
    omega)]
  have checked : (recordBody xxh3 delta numItems ++ tail).take (8 + (encodeBlockDelta delta).length) =
      leBytes 8 numItems ++ encodeBlockDelta delta := by
    rw [recordBody, List.append_assoc, List.take_left' counted]
  have stored : ((recordBody xxh3 delta numItems ++ tail).drop
      (8 + (encodeBlockDelta delta).length)).take 8 =
        leBytes 8 (xxh3 (leBytes 8 numItems ++ encodeBlockDelta delta)).toNat := by
    rw [recordBody, List.append_assoc, List.drop_left' counted, List.take_left' (leBytes_length _ _)]
  have payload : ((recordBody xxh3 delta numItems ++ tail).drop 8).take
      (encodeBlockDelta delta).length = encodeBlockDelta delta := by
    rw [recordBody, List.append_assoc, List.append_assoc, List.drop_left' (leBytes_length _ _),
      List.take_left' rfl]
  have items : (recordBody xxh3 delta numItems ++ tail).take 8 = leBytes 8 numItems := by
    rw [recordBody, List.append_assoc, List.append_assoc, List.take_left' (leBytes_length _ _)]
  rw [checked, stored, leNat_leBytes_of_lt (xxh3 _).isLt, if_neg (not_not.mpr rfl), payload, h.decodes]
  dsimp only
  rw [if_neg (not_not.mpr next), items, leNat_leBytes_of_lt h.items]

/-- A record that is too long for the reader stops it. -/
theorem tryNext_oversized (length : (encodeBlockDelta delta).length < 2 ^ 32)
    (exceeds : MAX_RECORD_BYTES < (encodeBlockDelta delta).length) {tail : List UInt8}
    (rest : r.rest = recordBytes xxh3 delta numItems ++ tail) :
    ∃ reason, r.tryNext xxh3 = .error (reason, r.consumed) := by
  have whole := congrArg List.length rest
  rw [List.length_append, recordBytes_length] at whole
  have prefixed : r.rest.take 4 = leBytes 4 (encodeBlockDelta delta).length := by
    rw [rest, recordBytes_eq, List.append_assoc, List.take_left' (leBytes_length _ _)]
  have declared : leNat (leBytes 4 (encodeBlockDelta delta).length) =
      (encodeBlockDelta delta).length := leNat_leBytes_of_lt length
  rw [JournalReader.tryNext, if_neg (by intro none; rw [none] at whole; simp at whole; omega),
    if_neg (by omega)]
  dsimp only
  rw [prefixed, declared, if_pos (.inr exceeds)]
  exact ⟨_, rfl⟩

/-- The reader takes no further record. -/
def JournalReader.Stops (xxh3 : List UInt8 → BitVec 64) (r : JournalReader) : Prop :=
  ∀ out, r.tryNext xxh3 ≠ .ok (some out)

/-- The bytes of records, one behind the other. -/
def recordsBytes (xxh3 : List UInt8 → BitVec 64) (recs : List (BlockDelta × Nat)) : List UInt8 :=
  recs.flatMap fun rec => recordBytes xxh3 rec.1 rec.2

/-- The reader behind records. -/
def JournalReader.past (r : JournalReader) (recs : List (BlockDelta × Nat)) : JournalReader :=
  recs.foldl (fun r rec => r.advance (encodeBlockDelta rec.1).length) r

/-- Records of consecutive blocks from `n` on. -/
def Numbered : Nat → List (BlockDelta × Nat) → Prop
  | _, [] => True
  | n, rec :: rest => rec.1.block = n ∧ Numbered (n + 1) rest

/-- A payload within the reader's cap. -/
def withinCap (rec : BlockDelta × Nat) : Bool :=
  decide ((encodeBlockDelta rec.1).length ≤ MAX_RECORD_BYTES)

/-- What the reader gives of a record. -/
def ScanRecord.appended (rec : ScanRecord) : BlockDelta × Nat := (rec.delta, rec.numItemsAfter)

theorem past_fields (r : JournalReader) (recs : List (BlockDelta × Nat)) :
    (r.past recs).plaintextBits = r.plaintextBits ∧ (r.past recs).arity = r.arity ∧
      (r.past recs).expectedBlock = r.expectedBlock + recs.length ∧
      (r.past recs).consumed = r.consumed + (recordsBytes xxh3 recs).length := by
  induction recs generalizing r with
  | nil => exact ⟨rfl, rfl, rfl, rfl⟩
  | cons rec rest ih =>
      obtain ⟨bits, arity, block, consumed⟩ := ih (r.advance (encodeBlockDelta rec.1).length)
      refine ⟨bits, arity, ?_, ?_⟩
      · have step : (r.advance (encodeBlockDelta rec.1).length).expectedBlock = r.expectedBlock + 1 :=
          rfl
        rw [JournalReader.past, List.foldl_cons, ← JournalReader.past, block, List.length_cons, step]
        omega
      · have step : (r.advance (encodeBlockDelta rec.1).length).consumed =
            r.consumed + (4 + 8 + (encodeBlockDelta rec.1).length + 8) := rfl
        have whole : (recordsBytes xxh3 (rec :: rest)).length =
            4 + 8 + (encodeBlockDelta rec.1).length + 8 + (recordsBytes xxh3 rest).length := by
          rw [recordsBytes, List.flatMap_cons, List.length_append, recordBytes_length, ← recordsBytes]
        rw [JournalReader.past, List.foldl_cons, ← JournalReader.past, consumed, step, whole]
        omega

theorem past_rest {recs : List (BlockDelta × Nat)} {tail : List UInt8}
    (rest : r.rest = recordsBytes xxh3 recs ++ tail) : (r.past recs).rest = tail := by
  induction recs generalizing r with
  | nil => exact rest
  | cons rec recs ih =>
      apply ih
      rw [recordsBytes, List.flatMap_cons, List.append_assoc] at rest
      show r.rest.drop _ = _
      rw [rest, List.drop_left' (recordBytes_length _ _), recordsBytes]

/-- The reader gives back the appended records up to the first that is beyond its cap. -/
theorem scan_appended {recs : List (BlockDelta × Nat)} {tail : List UInt8} {fuel : Nat}
    (numbered : Numbered r.expectedBlock recs)
    (journalable : ∀ rec ∈ recs, Journalable r rec.1 rec.2)
    (rest : r.rest = recordsBytes xxh3 recs ++ tail) (stops : (r.past recs).Stops xxh3)
    (enough : recs.length < fuel) :
    (r.scan xxh3 fuel).1.map ScanRecord.appended = recs.takeWhile withinCap ∧
      (r.scan xxh3 fuel).2.1 = r.past (recs.takeWhile withinCap) := by
  induction recs generalizing r fuel with
  | nil =>
      obtain ⟨fuel, rfl⟩ := Nat.exists_eq_add_one.mpr enough
      rw [JournalReader.scan]
      cases next : r.tryNext xxh3 with
      | error e => exact ⟨rfl, rfl⟩
      | ok out =>
          cases out with
          | none => exact ⟨rfl, rfl⟩
          | some out => exact absurd next (stops out)
  | cons rec recs ih =>
      obtain ⟨fuel, rfl⟩ := Nat.exists_eq_add_one.mpr (Nat.zero_lt_of_lt enough)
      obtain ⟨block, numbered⟩ := numbered
      have here := journalable rec List.mem_cons_self
      have first : r.rest = recordBytes xxh3 rec.1 rec.2 ++ (recordsBytes xxh3 recs ++ tail) := by
        rw [rest, recordsBytes, List.flatMap_cons, List.append_assoc, recordsBytes]
      by_cases fits : (encodeBlockDelta rec.1).length ≤ MAX_RECORD_BYTES
      · have next := tryNext_record here fits block first
        have behind : (r.advance (encodeBlockDelta rec.1).length).rest =
            recordsBytes xxh3 recs ++ tail := by
          show r.rest.drop _ = _
          rw [first, List.drop_left' (recordBytes_length _ _)]
        have later : ∀ rec' ∈ recs,
            Journalable (r.advance (encodeBlockDelta rec.1).length) rec'.1 rec'.2 := by
          intro rec' mem
          have h := journalable rec' (List.mem_cons_of_mem rec mem)
          exact ⟨h.decodes, h.length, h.items⟩
        have room : recs.length < fuel := by
          rw [List.length_cons] at enough
          omega
        obtain ⟨given, reader⟩ := ih numbered later behind stops room
        have kept : withinCap rec = true := decide_eq_true fits
        rw [JournalReader.scan, next, List.takeWhile_cons_of_pos kept]
        dsimp only
        rw [List.map_cons, given, reader]
        exact ⟨rfl, rfl⟩
      · obtain ⟨reason, next⟩ := tryNext_oversized here.length (by omega) first
        have dropped : ¬ withinCap rec = true := by
          rw [withinCap, decide_eq_true_iff]
          exact fits
        rw [JournalReader.scan, next, List.takeWhile_cons_of_neg dropped]
        exact ⟨rfl, rfl⟩

theorem recordsBytes_length_le (recs : List (BlockDelta × Nat)) :
    recs.length ≤ (recordsBytes xxh3 recs).length := by
  induction recs with
  | nil => exact Nat.zero_le _
  | cons rec recs ih =>
      rw [recordsBytes, List.flatMap_cons, List.length_append, recordBytes_length, ← recordsBytes,
        List.length_cons]
      omega

theorem headerBytes_length (baseDigest baseBlock : Nat) :
    (headerBytes xxh3 baseDigest baseBlock).length = HEADER_LEN := by
  simp [headerBytes, MAGIC, HEADER_LEN]

/-- The header is read back. -/
theorem open_header {baseDigest baseBlock : Nat} (digest : baseDigest < 2 ^ 64)
    (block : baseBlock < 2 ^ 64) (rest : List UInt8) (plaintextBits arity : Nat) :
    JournalReader.open xxh3 (headerBytes xxh3 baseDigest baseBlock ++ rest) plaintextBits arity =
      .ok (⟨baseDigest, baseBlock⟩, ⟨rest, plaintextBits, arity, HEADER_LEN, baseBlock + 1⟩) := by
  have digest : baseDigest < 256 ^ 8 := digest
  have block : baseBlock < 256 ^ 8 := block
  have head : (MAGIC ++ leBytes 8 baseDigest ++ leBytes 8 baseBlock).length = 21 := by
    simp [MAGIC]
  have magic : (headerBytes xxh3 baseDigest baseBlock ++ rest).take 5 = MAGIC := by
    rw [headerBytes]
    simp only [List.append_assoc]
    rw [List.take_left' (show MAGIC.length = 5 from rfl)]
  have covered : (headerBytes xxh3 baseDigest baseBlock ++ rest).take 21 =
      MAGIC ++ leBytes 8 baseDigest ++ leBytes 8 baseBlock := by
    rw [headerBytes, List.append_assoc, List.take_left' head]
  have stored : ((headerBytes xxh3 baseDigest baseBlock ++ rest).drop 21).take 8 =
      leBytes 8 (xxh3 (MAGIC ++ leBytes 8 baseDigest ++ leBytes 8 baseBlock)).toNat := by
    rw [headerBytes, List.append_assoc, List.drop_left' head, List.take_left' (leBytes_length _ _)]
  have named : ((headerBytes xxh3 baseDigest baseBlock ++ rest).drop 5).take 8 =
      leBytes 8 baseDigest := by
    rw [headerBytes]
    simp only [List.append_assoc]
    rw [List.drop_left' (show MAGIC.length = 5 from rfl), List.take_left' (leBytes_length _ _)]
  have height : ((headerBytes xxh3 baseDigest baseBlock ++ rest).drop 13).take 8 =
      leBytes 8 baseBlock := by
    have upTo : (MAGIC ++ leBytes 8 baseDigest).length = 13 := by simp [MAGIC]
    rw [headerBytes, List.append_assoc, List.append_assoc, List.drop_left' upTo,
      List.take_left' (leBytes_length _ _)]
  rw [JournalReader.open, if_neg, magic, if_neg (not_not.mpr rfl), covered, stored,
    leNat_leBytes_of_lt (xxh3 _).isLt, if_neg (not_not.mpr rfl), named, height,
    leNat_leBytes_of_lt digest, leNat_leBytes_of_lt block, List.drop_left' (headerBytes_length _ _)]
  rw [List.length_append, headerBytes_length]
  omega

/-- A file that ends within a record stops the reader before that record. -/
theorem cut_stops (length : (encodeBlockDelta delta).length < 2 ^ 32) {m : Nat}
    (short : m < (recordBytes xxh3 delta numItems).length)
    (rest : r.rest = (recordBytes xxh3 delta numItems).take m) : r.Stops xxh3 := by
  intro out
  rw [recordBytes_length] at short
  have count : r.rest.length = m := by
    rw [rest, List.length_take, recordBytes_length]
    omega
  rw [JournalReader.tryNext]
  by_cases none : r.rest = []
  · rw [if_pos none]
    simp
  · rw [if_neg none]
    by_cases few : r.rest.length < 4
    · rw [if_pos few]
      simp
    · have prefixed : r.rest.take 4 = leBytes 4 (encodeBlockDelta delta).length := by
        rw [rest, List.take_take, Nat.min_eq_left (by omega), recordBytes_eq,
          List.take_left' (leBytes_length _ _)]
      have declared : leNat (leBytes 4 (encodeBlockDelta delta).length) =
          (encodeBlockDelta delta).length := leNat_leBytes_of_lt length
      rw [if_neg few]
      dsimp only
      rw [prefixed, declared]
      split_ifs with cap short'
      · simp
      · simp
      · rw [List.length_drop, count] at short'
        omega
      · rw [List.length_drop, count] at short'
        omega

/-- How many records a file's first `n` record bytes hold in full. -/
def wholeRecords : List (BlockDelta × Nat) → Nat → Nat
  | [], _ => 0
  | rec :: recs, n =>
      if n < 4 + 8 + (encodeBlockDelta rec.1).length + 8 then 0
      else wholeRecords recs (n - (4 + 8 + (encodeBlockDelta rec.1).length + 8)) + 1

theorem wholeRecords_zero (recs : List (BlockDelta × Nat)) : wholeRecords recs 0 = 0 := by
  cases recs with
  | nil => rfl
  | cons rec recs => rw [wholeRecords, if_pos (by omega)]

theorem wholeRecords_le (recs : List (BlockDelta × Nat)) (n : Nat) :
    wholeRecords recs n ≤ recs.length := by
  induction recs generalizing n with
  | nil => exact le_rfl
  | cons rec recs ih =>
      rw [wholeRecords, List.length_cons]
      split
      · exact Nat.zero_le _
      · exact Nat.succ_le_succ (ih _)

/-- Cut records are whole records and an end that stops the reader. -/
theorem take_recordsBytes {recs : List (BlockDelta × Nat)}
    (lengths : ∀ rec ∈ recs, (encodeBlockDelta rec.1).length < 2 ^ 32) (n : Nat) :
    ∃ tail, (recordsBytes xxh3 recs).take n =
        recordsBytes xxh3 (recs.take (wholeRecords recs n)) ++ tail ∧
      ∀ r : JournalReader, r.rest = tail → r.Stops xxh3 := by
  induction recs generalizing n with
  | nil =>
      refine ⟨[], by simp [recordsBytes], fun r rest out => ?_⟩
      rw [JournalReader.tryNext, if_pos rest]
      simp
  | cons rec recs ih =>
      have length : (recordBytes xxh3 rec.1 rec.2).length =
          4 + 8 + (encodeBlockDelta rec.1).length + 8 := recordBytes_length _ _
      rw [wholeRecords]
      by_cases short : n < 4 + 8 + (encodeBlockDelta rec.1).length + 8
      · refine ⟨(recordBytes xxh3 rec.1 rec.2).take n, ?_, fun r rest =>
          cut_stops (lengths rec List.mem_cons_self) (length ▸ short) rest⟩
        rw [if_pos short, recordsBytes, List.flatMap_cons, List.take_append_of_le_length (by omega)]
        rfl
      · obtain ⟨tail, cut, stops⟩ := ih (fun rec' mem => lengths rec' (List.mem_cons_of_mem rec mem))
          (n - (4 + 8 + (encodeBlockDelta rec.1).length + 8))
        refine ⟨tail, ?_, stops⟩
        rw [if_neg short, recordsBytes, List.flatMap_cons, List.take_append,
          List.take_of_length_le (by omega), ← recordsBytes, length, cut, List.take_succ_cons,
          recordsBytes, recordsBytes, List.flatMap_cons, List.append_assoc]

end Reading

end RisePir.Rpc.Journal
