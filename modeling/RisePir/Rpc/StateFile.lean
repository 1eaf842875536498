import RisePir.Rpc.State
import RisePir.Server.Small
import RisePir.Server.Telescope

set_option autoImplicit false
set_option relaxedAutoImplicit false

/-! Loading a state file. A server of the binary's own lineage comes back as it was written; of
the bytes that anything else may be, the loader trusts the declared cell count, the value width
and every segment's own numbers. -/

namespace RisePir.Rpc.StateFile

open RisePir.Lib.Digits
open RisePir.Proto.Codec
open RisePir.Proto.Sizing
open RisePir.Proto.Types
open RisePir.Proto.Value
open RisePir.Upstream.Cuckoo
open RisePir.Upstream.Pir
open RisePir.Upstream.ReferencePir
open RisePir.Upstream.ReferenceTable
open RisePir.Upstream.Slots
open RisePir.Server.Core
open RisePir.Server.Small
open RisePir.Server.Telescope
open RisePir.Http.Bundles
open RisePir.Http.Setup
open RisePir.Rpc.State

variable {code : LoaderCode} {xxh3 : List UInt8 → BitVec 64} {codec : ValueCodec}

/-- The geometry this binary derives at the file's own bucket count. -/
structure OwnLineage (code : LoaderCode) (codec : ValueCodec) (params : RawParams) : Prop where
  arity : params.arity = STORE_ARITY
  buckets : params.numBuckets ≠ 0 ∧ STORE_ARITY ∣ params.numBuckets
  bucketSize : params.bucketSize = BUCKET_SIZE
  fingerprintBits : params.fingerprintBits = FINGERPRINT_BITS
  valueBits_pos : codec.valueBits ≠ 0
  plaintextBits : params.plaintextBits = code.selectors.simpleMaxPlaintextBits STORE_ARITY
    (params.numBuckets / STORE_ARITY) BUCKET_SIZE FINGERPRINT_BITS codec.valueBits

section Reading

theorem readExact_append {n : Nat} {bytes : List UInt8} (length : bytes.length = n)
    (rest : List UInt8) : readExact n (bytes ++ rest) = .ok (bytes, rest) := by
  rw [readExact, if_neg (by rw [List.length_append]; omega), List.take_left' length,
    List.drop_left' length]

theorem readNat_append {n x : Nat} (small : x < 256 ^ n) (rest : List UInt8) :
    readNat n (leBytes n x ++ rest) = .ok (x, rest) := by
  simp only [readNat, bind, Except.bind, readExact_append (leBytes_length n x), pure, Except.pure,
    leNat_leBytes_of_lt small]

theorem leWords_append (words : List (BitVec 32)) (rest : List UInt8) :
    leWords words.length ((words.flatMap fun c => leBytes 4 c.toNat) ++ rest) = words := by
  induction words with
  | nil => rfl
  | cons v words ih =>
      have length : (leBytes 4 v.toNat).length = 4 := leBytes_length 4 _
      have small : v.toNat < 256 ^ 4 := v.isLt
      rw [List.length_cons, leWords, List.flatMap_cons, List.append_assoc, List.take_left' length,
        List.drop_left' length, ih, leNat_leBytes_of_lt small]
      simp

theorem leWords_length (n : Nat) (bytes : List UInt8) : (leWords n bytes).length = n := by
  induction n generalizing bytes with
  | zero => rfl
  | succ n ih => rw [leWords, List.length_cons, ih]

theorem readExact_ok {n : Nat} {bytes field rest : List UInt8}
    (h : readExact n bytes = .ok (field, rest)) :
    field = bytes.take n ∧ field.length = n ∧ rest.length + n = bytes.length := by
  rw [readExact] at h
  split_ifs at h with short
  cases h
  refine ⟨rfl, List.length_take_of_le (by omega), ?_⟩
  rw [List.length_drop]
  omega

theorem readNat_ok {n x : Nat} {bytes rest : List UInt8} (h : readNat n bytes = .ok (x, rest)) :
    rest.length ≤ bytes.length := by
  rw [readNat, bind_eq_ok] at h
  obtain ⟨⟨field, rest'⟩, read, h⟩ := h
  cases h
  have := (readExact_ok read).2.2
  omega

end Reading

section RoundTrip

variable {complete : Bool} {numItems cellsLen : Nat} {setup : RawSetup}

/-- The widths fit their fields, as every width the codec accepts does. -/
private theorem widths_fit (valid : codec.ValidWidths) : codec.keyTagBits < 256 ^ 4 ∧
    codec.balanceBits < 256 ^ 4 ∧ codec.checksumBits < 256 ^ 4 := by
  obtain ⟨tag, balance, checksum⟩ := valid
  refine ⟨?_, ?_, ?_⟩ <;> omega

theorem readHeader_head (valid : codec.ValidWidths) (items : numItems < 2 ^ 64)
    (length : (encodeRawSetup setup).length < 2 ^ 64) (rest : List UInt8) :
    readHeader codec (headBytes codec complete numItems setup cellsLen ++ rest) =
      .ok (⟨complete, numItems, (encodeRawSetup setup).length⟩,
        encodeRawSetup setup ++ (leBytes 8 cellsLen ++ rest)) := by
  obtain ⟨tag, balance, checksum⟩ := widths_fit valid
  have items' : numItems < 256 ^ 8 := items
  have length' : (encodeRawSetup setup).length < 256 ^ 8 := length
  have flag : readNat 1 ((if complete then (1 : UInt8) else 0) ::
      (leBytes 4 codec.keyTagBits ++ (leBytes 4 codec.balanceBits ++ (leBytes 4 codec.checksumBits ++
        (leBytes 8 numItems ++ (leBytes 8 (encodeRawSetup setup).length ++
          (encodeRawSetup setup ++ (leBytes 8 cellsLen ++ rest)))))))) =
      .ok (if complete then 1 else 0, leBytes 4 codec.keyTagBits ++ (leBytes 4 codec.balanceBits ++
        (leBytes 4 codec.checksumBits ++ (leBytes 8 numItems ++
          (leBytes 8 (encodeRawSetup setup).length ++
            (encodeRawSetup setup ++ (leBytes 8 cellsLen ++ rest))))))) := by
    cases complete <;> rfl
  have checked : checkFlag (if complete then 1 else 0) = .ok complete := by cases complete <;> rfl
  rw [readHeader, headBytes]
  simp only [List.append_assoc, List.singleton_append, bind, Except.bind]
  rw [readExact_append (by decide)]
  dsimp only
  rw [checkMagic, if_pos rfl]
  dsimp only
  rw [List.cons_append, flag]
  dsimp only
  rw [checked]
  simp only [readNat_append tag, readNat_append balance, readNat_append checksum,
    readNat_append items', readNat_append length', checkCodec, and_self, if_true, pure, Except.pure]
  apply if_neg
  simp only [List.length_append, List.length_cons]
  omega

theorem readSetup_encode (fits : SetupFits setup) (lineage : OwnLineage code codec setup.params)
    (rest : List UInt8) :
    readSetup code codec (encodeRawSetup setup).length (encodeRawSetup setup ++ rest) =
      .ok (setup, rest) := by
  have buckets : ¬ (setup.params.numBuckets = 0 ∨ ¬ STORE_ARITY ∣ setup.params.numBuckets) := by
    rw [not_or, not_not]
    exact lineage.buckets
  have widths : ¬ (FINGERPRINT_BITS = 0 ∨ codec.valueBits = 0) := by
    rw [not_or]
    exact ⟨by decide, lineage.valueBits_pos⟩
  have derived : checkGeometryLineage code setup.params codec = .ok () := by
    rw [checkGeometryLineage, forNumBuckets, if_neg (by decide), if_neg (by decide), if_neg widths,
      if_neg buckets]
    dsimp only
    rw [if_pos ⟨lineage.bucketSize, lineage.fingerprintBits, lineage.plaintextBits⟩]
  rw [readSetup]
  simp only [bind, Except.bind]
  rw [readExact_append rfl]
  dsimp only
  rw [decodeSetup_encode fits]
  dsimp only
  rw [if_neg (not_not.mpr lineage.arity), derived]
  rfl

/-- The setup that is read back from an encoded one, if any is, is that one. -/
theorem readSetup_own (fits : SetupFits setup) {rest rest' : List UInt8} {setup' : RawSetup}
    (h : readSetup code codec (encodeRawSetup setup).length (encodeRawSetup setup ++ rest) =
      .ok (setup', rest')) : setup' = setup := by
  rw [readSetup] at h
  simp only [bind, Except.bind] at h
  rw [readExact_append rfl] at h
  dsimp only at h
  rw [decodeSetup_encode fits] at h
  dsimp only at h
  split_ifs at h
  cases checked : checkGeometryLineage code setup.params codec with
  | error e =>
      rw [checked] at h
      cases h
  | ok _ =>
      rw [checked] at h
      cases h
      rfl

theorem readCellsLen_append {params : RawParams} (expected : cellsLen = expectedCells code params)
    (rest : List UInt8) :
    readCellsLen code params (leBytes 8 cellsLen ++ rest) = .ok (cellsLen, rest) := by
  have small : cellsLen < 256 ^ 8 := expected ▸ Nat.mod_lt _ (by decide)
  rw [readCellsLen]
  simp only [bind, Except.bind]
  rw [readNat_append small]
  dsimp only
  rw [if_neg (not_not.mpr expected)]
  rfl

/-- What a saved body and its checksum are read back as. -/
theorem parseRaw_body (valid : codec.ValidWidths) (items : numItems < 2 ^ 64)
    (length : (encodeRawSetup setup).length < 2 ^ 64) (fits : SetupFits setup)
    (lineage : OwnLineage code codec setup.params) {cells : List (BitVec 32)}
    (expected : cells.length = expectedCells code setup.params) :
    (parseRaw code xxh3 codec (bodyBytes codec complete numItems setup cells ++
        leBytes 8 (xxh3 (bodyBytes codec complete numItems setup cells)).toNat)).outcome =
      .ok ⟨cells, setup, numItems, complete,
        (xxh3 (bodyBytes codec complete numItems setup cells)).toNat⟩ := by
  have digest : (xxh3 (bodyBytes codec complete numItems setup cells)).toNat < 256 ^ 8 :=
    (xxh3 _).isLt
  have file : bodyBytes codec complete numItems setup cells ++
      leBytes 8 (xxh3 (bodyBytes codec complete numItems setup cells)).toNat =
      headBytes codec complete numItems setup cells.length ++
        ((cells.flatMap fun c => leBytes 4 c.toNat) ++
          leBytes 8 (xxh3 (bodyBytes codec complete numItems setup cells)).toNat) := by
    rw [bodyBytes, List.append_assoc]
  have heads : ∀ rest, readHeader codec (headBytes codec complete numItems setup cells.length ++ rest) =
      .ok (⟨complete, numItems, (encodeRawSetup setup).length⟩,
        encodeRawSetup setup ++ (leBytes 8 cells.length ++ rest)) :=
    readHeader_head valid items length
  have header := heads ((cells.flatMap fun c => leBytes 4 c.toNat) ++
    leBytes 8 (xxh3 (bodyBytes codec complete numItems setup cells)).toNat)
  rw [← file] at header
  rw [parseRaw, header]
  dsimp only
  rw [readSetup_encode fits lineage]
  dsimp only
  rw [readCellsLen_append expected]
  dsimp only
  rw [readTail]
  simp only [bind, Except.bind]
  rw [readExact_append (words_length cells)]
  dsimp only
  have covered : (bodyBytes codec complete numItems setup cells ++
      leBytes 8 (xxh3 (bodyBytes codec complete numItems setup cells)).toNat).take
        ((bodyBytes codec complete numItems setup cells ++
          leBytes 8 (xxh3 (bodyBytes codec complete numItems setup cells)).toNat).length -
          (leBytes 8 (xxh3 (bodyBytes codec complete numItems setup cells)).toNat).length) =
      bodyBytes codec complete numItems setup cells := by
    rw [List.length_append, Nat.add_sub_cancel, List.take_left' rfl]
  rw [covered]
  have stored := readNat_append digest []
  rw [List.append_nil] at stored
  rw [stored]
  have words := leWords_append cells []
  rw [List.append_nil] at words
  simp [words, pure, Except.pure]

end RoundTrip

section Accepting

theorem readHeader_ok {file rest : List UInt8} {header : Header}
    (h : readHeader codec file = .ok (header, rest)) :
    header.setupLen ≤ file.length ∧ rest.length ≤ file.length := by
  rw [readHeader, bind_eq_ok] at h
  obtain ⟨⟨magic, b₀⟩, h₀, h⟩ := h
  rw [bind_eq_ok] at h
  obtain ⟨_, -, h⟩ := h
  rw [bind_eq_ok] at h
  obtain ⟨⟨flag, b₁⟩, h₁, h⟩ := h
  rw [bind_eq_ok] at h
  obtain ⟨complete, -, h⟩ := h
  rw [bind_eq_ok] at h
  obtain ⟨⟨keyTagBits, b₂⟩, h₂, h⟩ := h
  rw [bind_eq_ok] at h
  obtain ⟨⟨balanceBits, b₃⟩, h₃, h⟩ := h
  rw [bind_eq_ok] at h
  obtain ⟨⟨checksumBits, b₄⟩, h₄, h⟩ := h
  rw [bind_eq_ok] at h
  obtain ⟨_, -, h⟩ := h
  rw [bind_eq_ok] at h
  obtain ⟨⟨numItems, b₅⟩, h₅, h⟩ := h
  rw [bind_eq_ok] at h
  obtain ⟨⟨setupLen, b₆⟩, h₆, h⟩ := h
  dsimp only at h
  split_ifs at h with tooMany
  cases h
  have shorter₀ := (readExact_ok h₀).2.2
  have shorter₁ := readNat_ok h₁
  have shorter₂ := readNat_ok h₂
  have shorter₃ := readNat_ok h₃
  have shorter₄ := readNat_ok h₄
  have shorter₅ := readNat_ok h₅
  have shorter₆ := readNat_ok h₆
  dsimp only at *
  constructor <;> omega

theorem checkGeometryLineage_ok {params : RawParams} (arity : params.arity = STORE_ARITY)
    (h : checkGeometryLineage code params codec = .ok ()) : OwnLineage code codec params := by
  rw [checkGeometryLineage] at h
  cases derived : forNumBuckets code.selectors params.numBuckets STORE_ARITY BUCKET_SIZE
      FINGERPRINT_BITS codec .simple with
  | error e =>
      rw [derived] at h
      cases h
  | ok expected =>
      rw [derived] at h
      dsimp only at h
      split_ifs at h with same
      obtain ⟨nonzero, even, rfl⟩ := forNumBuckets_ok derived
      have width : codec.valueBits ≠ 0 := by
        intro zero
        rw [forNumBuckets, if_neg (by decide), if_neg (by decide), if_pos (.inr zero)] at derived
        cases derived
      exact ⟨arity, ⟨nonzero, even⟩, same.1, same.2.1, width, same.2.2⟩

theorem readSetup_ok {setupLen : Nat} {bytes rest : List UInt8} {setup : RawSetup}
    (h : readSetup code codec setupLen bytes = .ok (setup, rest)) :
    Accepted setup ∧ OwnLineage code codec setup.params := by
  rw [readSetup, bind_eq_ok] at h
  obtain ⟨⟨setupBytes, rest'⟩, -, h⟩ := h
  dsimp only at h
  cases decoded : decodeSetup setupBytes with
  | error e =>
      rw [decoded] at h
      cases h
  | ok setup' =>
      rw [decoded] at h
      dsimp only at h
      split_ifs at h with arity
      rw [bind_eq_ok] at h
      obtain ⟨⟨⟩, lineage, h⟩ := h
      cases h
      exact ⟨decodeSetup_ok decoded, checkGeometryLineage_ok (not_not.mp arity) lineage⟩

theorem readCellsLen_ok {params : RawParams} {cellsLen : Nat} {bytes rest : List UInt8}
    (h : readCellsLen code params bytes = .ok (cellsLen, rest)) :
    cellsLen = expectedCells code params := by
  rw [readCellsLen, bind_eq_ok] at h
  obtain ⟨⟨declared, rest'⟩, -, h⟩ := h
  dsimp only at h
  split_ifs at h with differs
  cases h
  exact not_not.mp differs

theorem readTail_ok {file bytes : List UInt8} {header : Header} {setup : RawSetup} {cellsLen : Nat}
    {raw : RawState} (h : readTail xxh3 file header setup cellsLen bytes = .ok raw) :
    4 * cellsLen ≤ bytes.length ∧ raw.cells.length = cellsLen ∧ raw.setup = setup := by
  rw [readTail, bind_eq_ok] at h
  obtain ⟨⟨cellBytes, rest⟩, cells, h⟩ := h
  rw [bind_eq_ok] at h
  obtain ⟨⟨stored, rest'⟩, -, h⟩ := h
  dsimp only at h
  split_ifs at h
  cases h
  have := (readExact_ok cells).2.2
  exact ⟨by omega, leWords_length _ _, rfl⟩

/-- The setup section's buffers are no longer than the file. -/
theorem setupAllocations_le {setupLen bound : Nat} {bytes : List UInt8} (len : setupLen ≤ bound)
    (within : bytes.length ≤ bound) : ∀ n ∈ setupAllocations setupLen bytes, n ≤ bound := by
  intro n hn
  rcases List.mem_cons.mp hn with rfl | later
  · exact len
  · split_ifs at later with short
    · cases later
    · rw [hintAllocations] at later
      cases head : readSetupHead (bytes.take setupLen) with
      | error e =>
          rw [head] at later
          cases later
      | ok out =>
          obtain ⟨params, block, sps, rest⟩ := out
          rw [head] at later
          have := vectorAllocations_le n later
          have := readSetupHead_length head
          have := List.length_take_le setupLen bytes
          omega

theorem parseRaw_ok {file : List UInt8} {raw : RawState}
    (h : (parseRaw code xxh3 codec file).outcome = .ok raw) : Accepted raw.setup ∧
      OwnLineage code codec raw.setup.params ∧
      raw.cells.length = expectedCells code raw.setup.params := by
  rw [parseRaw] at h
  cases header : readHeader codec file with
  | error e =>
      rw [header] at h
      cases h
  | ok out =>
      obtain ⟨head, bytes⟩ := out
      rw [header] at h
      dsimp only at h
      cases section_ok : readSetup code codec head.setupLen bytes with
      | error e =>
          rw [section_ok] at h
          cases h
      | ok out =>
          obtain ⟨setup, bytes'⟩ := out
          rw [section_ok] at h
          dsimp only at h
          obtain ⟨accepted, lineage⟩ := readSetup_ok section_ok
          cases cells : readCellsLen code setup.params bytes' with
          | error e =>
              rw [cells] at h
              cases h
          | ok out =>
              obtain ⟨cellsLen, bytes''⟩ := out
              rw [cells] at h
              obtain ⟨-, length, rfl⟩ := readTail_ok h
              exact ⟨accepted, lineage, length.trans (readCellsLen_ok cells)⟩

/-- A raw state of the binary's arity is assembled, unless the table refuses its cells or the
value bytes of the file are not the codec's. -/
theorem assemble_eq (laws : code.Laws) {raw : RawState} (accepted : Accepted raw.setup)
    {store : RawStore}
    (built : code.fromCells raw.setup.params raw.cells raw.numItems = .ok store) :
    assemble code codec raw = if codec.numBytes ≠ (raw.setup.params.valueBits + 7) / 8 then ⟨[], none⟩
      else ⟨raw.setup.backendParams.map code.hintMaterialBytes,
        some (.ok ⟨⟨raw.setup.params, raw.cells, raw.numItems,
          raw.setup.backendParams.zip raw.setup.hints, raw.setup.block, codec⟩, raw.complete,
          raw.digest⟩)⟩ := by
  have hints : raw.setup.hints.length = raw.setup.params.arity := by
    rw [← accepted.segments, ← List.length_map hintLength, ← accepted.hints, List.length_map]
  rw [assemble, built]
  dsimp only
  rw [laws.fromCells_keeps _ _ _ _ built, laws.valueSize_eq]
  split_ifs with _ segments hints'
  · rfl
  · exact absurd accepted.segments segments
  · exact absurd hints hints'
  · rfl

end Accepting

section Safety

/-- The whole geometry of a loaded server is mutually consistent. -/
structure Consistent (code : LoaderCode) (codec : ValueCodec) (server : LoadedServer) : Prop where
  lineage : OwnLineage code codec server.params
  valueBits : server.params.valueBits = codec.valueBits
  count : server.segments.length = server.params.arity
  describes : ∀ seg ∈ server.segments, seg.1.Describes (server.params.numBuckets / server.params.arity)
    (server.params.bucketSize * code.cellsPerSlot server.params) server.params.plaintextBits
  hints : ∀ seg ∈ server.segments, seg.2.data.length = hintLength seg.1
  cells : server.cells.length =
    server.params.numBuckets * server.params.bucketSize * code.cellsPerSlot server.params

/-- The loader returns, allocates no more than the file's size, and accepts nothing but a
consistent geometry. -/
structure LoadsSafely (code : LoaderCode) (xxh3 : List UInt8 → BitVec 64) (codec : ValueCodec)
    (file : List UInt8) : Prop where
  returns : load code xxh3 codec file ≠ none
  bounded : ∀ n ∈ loadAllocations code xxh3 codec file, n ≤ file.length
  consistent : ∀ loaded, load code xxh3 codec file = some (.ok loaded) →
    Consistent code codec loaded.server

/-- A file that is read as far as its cell count is at least as long as the cells it declares. -/
def CellsInside (code : LoaderCode) (codec : ValueCodec) (file : List UInt8) : Prop :=
  ∀ header bytes setup bytes' cellsLen bytes'', readHeader codec file = .ok (header, bytes) →
    readSetup code codec header.setupLen bytes = .ok (setup, bytes') →
    readCellsLen code setup.params bytes' = .ok (cellsLen, bytes'') → 4 * cellsLen ≤ file.length

/-- A file whose cells the table accepts has the codec's value width, and its segments' own
numbers are those of its geometry. -/
def FieldsAgree (code : LoaderCode) (xxh3 : List UInt8 → BitVec 64) (codec : ValueCodec)
    (file : List UInt8) : Prop :=
  ∀ raw store, (parseRaw code xxh3 codec file).outcome = .ok raw →
    code.fromCells raw.setup.params raw.cells raw.numItems = .ok store →
    raw.setup.params.valueBits = codec.valueBits ∧ ∀ sp ∈ raw.setup.backendParams,
      sp.Describes (raw.setup.params.numBuckets / raw.setup.params.arity)
        (raw.setup.params.bucketSize * code.cellsPerSlot raw.setup.params)
        raw.setup.params.plaintextBits

/-- The matrix that a segment's numbers stand for is no longer than the file. -/
def MaterialInside (code : LoaderCode) (xxh3 : List UInt8 → BitVec 64) (codec : ValueCodec)
    (file : List UInt8) : Prop :=
  ∀ raw store, (parseRaw code xxh3 codec file).outcome = .ok raw →
    code.fromCells raw.setup.params raw.cells raw.numItems = .ok store →
    ∀ sp ∈ raw.setup.backendParams, 4 * (sp.reshapeRows * sp.lweDim) ≤ file.length

/-- Of what parsing allocates, only the cell array may be longer than the file. -/
private theorem allocated_le_iff (file : List UInt8) :
    (∀ n ∈ (parseRaw code xxh3 codec file).allocated, n ≤ file.length) ↔
      CellsInside code codec file := by
  constructor
  · intro bounded header bytes setup bytes' cellsLen bytes'' hheader hsetup hcells
    apply bounded
    rw [parseRaw, hheader]
    dsimp only
    rw [hsetup]
    dsimp only
    rw [hcells]
    exact List.mem_cons_self
  · intro inside n hn
    rw [parseRaw] at hn
    cases hheader : readHeader codec file with
    | error e =>
        rw [hheader] at hn
        cases hn
    | ok out =>
        obtain ⟨header, bytes⟩ := out
        rw [hheader] at hn
        dsimp only at hn
        obtain ⟨len, within⟩ := readHeader_ok hheader
        have setupSection := setupAllocations_le len within
        cases hsetup : readSetup code codec header.setupLen bytes with
        | error e =>
            rw [hsetup] at hn
            exact setupSection n hn
        | ok out =>
            obtain ⟨setup, bytes'⟩ := out
            rw [hsetup] at hn
            dsimp only at hn
            cases hcells : readCellsLen code setup.params bytes' with
            | error e =>
                rw [hcells] at hn
                exact setupSection n hn
            | ok out =>
                obtain ⟨cellsLen, bytes''⟩ := out
                rw [hcells] at hn
                rcases List.mem_cons.mp hn with rfl | later
                · exact inside _ _ _ _ _ _ hheader hsetup hcells
                · exact setupSection n later

/-- With the codec's value width the expected cell count does not wrap around. -/
private theorem expectedCells_eq (laws : code.Laws) (valid : codec.ValidWidths) {params : RawParams}
    (lineage : OwnLineage code codec params) (small : params.numBuckets < 2 ^ 32)
    (bits : 1 ≤ params.plaintextBits ∧ params.plaintextBits ≤ 31)
    (width : params.valueBits = codec.valueBits) : expectedCells code params =
      params.numBuckets * params.bucketSize * code.cellsPerSlot params := by
  obtain ⟨tag, balance, checksum⟩ := valid
  have widths : params.valueBits ≤ 256 := by
    rw [width, ValueCodec.valueBits]
    omega
  have fp : params.fingerprintBits = 32 := lineage.fingerprintBits
  have slot := laws.cellsPerSlot_eq params (by omega) (by omega)
  have cells : code.cellsPerSlot params ≤ 318 := by
    rw [slot]
    refine (Nat.div_le_self _ _).trans ?_
    omega
  have bucket : params.bucketSize = 4 := lineage.bucketSize
  rw [expectedCells]
  apply Nat.mod_eq_of_lt
  rw [bucket]
  calc params.numBuckets * 4 * code.cellsPerSlot params ≤ 2 ^ 32 * 4 * 318 :=
        Nat.mul_le_mul (Nat.mul_le_mul_right 4 (by omega)) cells
    _ < 2 ^ 64 := by decide

private theorem zip_hint {sps : List SimpleServerParams} {hints : List Hint}
    (lengths : hints.map (fun hint => hint.data.length) = sps.map hintLength)
    {seg : SimpleServerParams × Hint} (h : seg ∈ sps.zip hints) :
    seg.2.data.length = hintLength seg.1 := by
  induction sps generalizing hints with
  | nil => cases h
  | cons sp sps ih =>
      cases hints with
      | nil => cases h
      | cons hint hints =>
          obtain ⟨head, tail⟩ := List.cons_eq_cons.mp lengths
          rcases List.mem_cons.mp h with rfl | later
          · exact head
          · exact ih tail later

/-- A file that is parsed holds the cells that it declares. -/
theorem cellsInside_of_parsed {file : List UInt8} {raw : RawState}
    (parsed : (parseRaw code xxh3 codec file).outcome = .ok raw) : CellsInside code codec file := by
  intro header bytes setup bytes' cellsLen bytes'' hheader hsetup hcells
  rw [parseRaw, hheader] at parsed
  dsimp only at parsed
  rw [hsetup] at parsed
  dsimp only at parsed
  rw [hcells] at parsed
  have read := (readTail_ok parsed).1
  have first := (readHeader_ok hheader).2
  have second : bytes'.length ≤ bytes.length := by
    rw [readSetup, bind_eq_ok] at hsetup
    obtain ⟨⟨setupBytes, rest⟩, taken, hsetup⟩ := hsetup
    dsimp only at hsetup
    have shorter := (readExact_ok taken).2.2
    cases decoded : decodeSetup setupBytes with
    | error e =>
        rw [decoded] at hsetup
        cases hsetup
    | ok decodedSetup =>
        rw [decoded] at hsetup
        dsimp only at hsetup
        split_ifs at hsetup
        rw [bind_eq_ok] at hsetup
        obtain ⟨_, -, hsetup⟩ := hsetup
        cases hsetup
        omega
  have third : bytes''.length ≤ bytes'.length := by
    rw [readCellsLen, bind_eq_ok] at hcells
    obtain ⟨⟨declared, rest⟩, taken, hcells⟩ := hcells
    have shorter := readNat_ok taken
    dsimp only at hcells
    split_ifs at hcells
    cases hcells
    exact shorter
  omega

private theorem parsed_allocations {file : List UInt8} {n : Nat}
    (mem : n ∈ (parseRaw code xxh3 codec file).allocated) :
    n ∈ loadAllocations code xxh3 codec file := by
  rw [loadAllocations]
  cases (parseRaw code xxh3 codec file).outcome with
  | error e => exact mem
  | ok raw => exact List.mem_append_left _ mem

/-- A file whose value width is the codec's is loaded, once the table accepts its cells. -/
private theorem assemble_agreeing (laws : code.Laws) {file : List UInt8}
    (agree : FieldsAgree code xxh3 codec file) {raw : RawState}
    (parsed : (parseRaw code xxh3 codec file).outcome = .ok raw) {store : RawStore}
    (built : code.fromCells raw.setup.params raw.cells raw.numItems = .ok store) :
    assemble code codec raw = ⟨raw.setup.backendParams.map code.hintMaterialBytes,
      some (.ok ⟨⟨raw.setup.params, raw.cells, raw.numItems,
        raw.setup.backendParams.zip raw.setup.hints, raw.setup.block, codec⟩, raw.complete,
        raw.digest⟩)⟩ := by
  have width : ¬ codec.numBytes ≠ (raw.setup.params.valueBits + 7) / 8 := by
    rw [(agree raw store parsed built).1]
    exact not_not.mpr rfl
  rw [assemble_eq laws (parseRaw_ok parsed).1 built, if_neg width]

/-- What a safe load shows of the file. -/
private theorem conditions_of_safe (laws : code.Laws) {file : List UInt8}
    (safe : LoadsSafely code xxh3 codec file) : CellsInside code codec file ∧
      FieldsAgree code xxh3 codec file ∧ MaterialInside code xxh3 codec file := by
  have returned : ∀ raw, (parseRaw code xxh3 codec file).outcome = .ok raw → ∀ store,
      code.fromCells raw.setup.params raw.cells raw.numItems = .ok store →
      assemble code codec raw = ⟨raw.setup.backendParams.map code.hintMaterialBytes,
        some (.ok ⟨⟨raw.setup.params, raw.cells, raw.numItems,
          raw.setup.backendParams.zip raw.setup.hints, raw.setup.block, codec⟩, raw.complete,
          raw.digest⟩)⟩ := by
    intro raw parsed store built
    have assembled : assemble code codec raw = _ := assemble_eq laws (parseRaw_ok parsed).1 built
    have width : ¬ codec.numBytes ≠ (raw.setup.params.valueBits + 7) / 8 := by
      intro differs
      rw [if_pos differs] at assembled
      apply safe.returns
      rw [load, parsed]
      dsimp only
      rw [assembled]
    rw [assembled, if_neg width]
  refine ⟨(allocated_le_iff file).mp fun n mem => safe.bounded n (parsed_allocations mem), ?_, ?_⟩
  · intro raw store parsed built
    obtain ⟨accepted, -, -⟩ := parseRaw_ok parsed
    have loads : load code xxh3 codec file = (assemble code codec raw).outcome := by rw [load, parsed]
    rw [returned raw parsed store built] at loads
    have consistent := safe.consistent _ loads
    refine ⟨consistent.valueBits, ?_⟩
    intro sp hsp
    have lengths : raw.setup.backendParams.length ≤ raw.setup.hints.length := by
      rw [← List.length_map hintLength, ← accepted.hints, List.length_map]
    rw [← List.map_fst_zip lengths] at hsp
    obtain ⟨seg, hseg, rfl⟩ := List.mem_map.mp hsp
    exact consistent.describes seg hseg
  · intro raw store parsed built sp hsp
    rw [← laws.hintMaterial_eq]
    apply safe.bounded
    rw [loadAllocations, parsed]
    dsimp only
    rw [returned raw parsed store built]
    exact List.mem_append_right _ (List.mem_map_of_mem hsp)

/-- What a file of the binary's lineage with agreeing fields is loaded as is consistent. -/
private theorem consistent_of_agreeing (laws : code.Laws) (valid : codec.ValidWidths)
    {file : List UInt8} (agree : FieldsAgree code xxh3 codec file) {raw : RawState}
    (parsed : (parseRaw code xxh3 codec file).outcome = .ok raw) {store : RawStore}
    (built : code.fromCells raw.setup.params raw.cells raw.numItems = .ok store) :
    Consistent code codec ⟨raw.setup.params, raw.cells, raw.numItems,
      raw.setup.backendParams.zip raw.setup.hints, raw.setup.block, codec⟩ := by
  obtain ⟨accepted, lineage, length⟩ := parseRaw_ok parsed
  obtain ⟨width, describes⟩ := agree raw store parsed built
  have lengths : raw.setup.hints.length = raw.setup.backendParams.length := by
    rw [← List.length_map hintLength, ← accepted.hints, List.length_map]
  refine ⟨lineage, width, ?_, ?_, ?_, ?_⟩
  · rw [List.length_zip, lengths, Nat.min_self]
    exact accepted.segments
  · intro seg hseg
    exact describes seg.1 (List.of_mem_zip hseg).1
  · intro seg hseg
    exact zip_hint accepted.hints hseg
  · obtain ⟨sp, hsp⟩ : ∃ sp, sp ∈ raw.setup.backendParams := by
      apply List.exists_mem_of_length_pos
      rw [accepted.segments]
      have := accepted.scheme
      omega
    have bits := (accepted.constructible sp hsp).2.1
    rw [(describes sp hsp).bits_eq] at bits
    exact length.trans (expectedCells_eq laws valid lineage accepted.numBuckets bits width)

private theorem loads_safely (laws : code.Laws) (valid : codec.ValidWidths) (file : List UInt8) :
    LoadsSafely code xxh3 codec file ↔ CellsInside code codec file ∧
      FieldsAgree code xxh3 codec file ∧ MaterialInside code xxh3 codec file := by
  refine ⟨conditions_of_safe laws, ?_⟩
  rintro ⟨inside, agree, material⟩
  have parsedInside : ∀ n ∈ (parseRaw code xxh3 codec file).allocated, n ≤ file.length :=
    (allocated_le_iff file).mpr inside
  cases parsed : (parseRaw code xxh3 codec file).outcome with
  | error e =>
      have loads : load code xxh3 codec file = some (.error e) := by rw [load, parsed]
      refine ⟨by rw [loads]; simp, ?_, fun loaded h => ?_⟩
      · rw [loadAllocations, parsed]
        exact parsedInside
      · rw [loads] at h
        cases h
  | ok raw =>
      have loads : load code xxh3 codec file = (assemble code codec raw).outcome := by rw [load, parsed]
      have allocates : loadAllocations code xxh3 codec file =
          (parseRaw code xxh3 codec file).allocated ++ (assemble code codec raw).allocated := by
        rw [loadAllocations, parsed]
      cases built : code.fromCells raw.setup.params raw.cells raw.numItems with
      | error e =>
          have refused : assemble code codec raw =
              ⟨[], some (.error (.corrupt ("store reconstruction: " ++ debugError e)))⟩ := by
            rw [assemble, built]
          rw [refused] at loads allocates
          refine ⟨by rw [loads]; simp, ?_, fun loaded h => ?_⟩
          · rw [allocates, List.append_nil]
            exact parsedInside
          · rw [loads] at h
            cases h
      | ok store =>
          rw [assemble_agreeing laws agree parsed built] at loads allocates
          refine ⟨by rw [loads]; simp, ?_, fun loaded h => ?_⟩
          · intro n mem
            rw [allocates] at mem
            rcases List.mem_append.mp mem with first | later
            · exact parsedInside n first
            · obtain ⟨sp, hsp, rfl⟩ := List.mem_map.mp later
              rw [laws.hintMaterial_eq]
              exact material raw store parsed built sp hsp
          · rw [loads] at h
            cases h
            exact consistent_of_agreeing laws valid agree parsed built

end Safety

section Saving

variable {p : CuckooParams} {C : SegmentedCuckoo p} {B : PirBackend}

/-- Every number a server is saved with fits its field. -/
structure Storable (s : RisePirServer C B) : Prop where
  setup : SetupFits (.of s.setup)
  items : s.store.numItems < 2 ^ 64
  length : (encodeRawSetup (.of s.setup)).length < 2 ^ 64

/-- A slot's bits are far within a word. -/
theorem slotBits_lt (p : CuckooParams) :
    p.fingerprintBits + p.valueBits + (p.plaintextBits - 1) < 2 ^ 32 := by
  have width := p.rowWidth_fits
  have bits := p.plaintextBits_range
  have slot : (p.fingerprintBits + p.valueBits + (p.plaintextBits - 1)) / p.plaintextBits ≤ 2 ^ 16 :=
    le_trans (Nat.le_mul_of_pos_left _ p.bucketSize_pos) width
  calc _ < ((p.fingerprintBits + p.valueBits + (p.plaintextBits - 1)) / p.plaintextBits + 1) *
        p.plaintextBits := by
        rw [← Nat.div_lt_iff_lt_mul (by omega)]
        omega
    _ ≤ (2 ^ 16 + 1) * 31 := Nat.mul_le_mul (by omega) bits.2
    _ < 2 ^ 32 := by decide

/-- A geometry's own slot width, as the loader computes it. -/
theorem cellsPerSlot_of (laws : code.Laws) (p : CuckooParams) :
    code.cellsPerSlot (.of p) = p.cellsPerSlot := by
  have bits := p.plaintextBits_range
  exact laws.cellsPerSlot_eq (.of p) (by show 0 < p.plaintextBits; omega) (slotBits_lt p)

/-- A geometry's own cell count, as the loader computes it. -/
theorem expectedCells_of (laws : code.Laws) (p : CuckooParams) :
    expectedCells code (.of p) = p.totalCells := by
  have total : p.numBuckets * p.bucketSize * p.cellsPerSlot = p.totalCells := by
    rw [CuckooParams.totalCells, CuckooParams.rowWidth, Nat.mul_assoc]
  have small : p.totalCells < 2 ^ 64 := by
    calc p.numBuckets * p.rowWidth ≤ 2 ^ 32 * 2 ^ 16 :=
          Nat.mul_le_mul (Nat.le_of_lt p.numBuckets_range.2) p.rowWidth_fits
      _ < 2 ^ 64 := by decide
  rw [expectedCells, cellsPerSlot_of laws]
  show p.numBuckets * p.bucketSize * p.cellsPerSlot % 2 ^ 64 = p.totalCells
  rw [total, Nat.mod_eq_of_lt small]

/-- What a saved server is parsed as. -/
def rawOf (xxh3 : List UInt8 → BitVec 64) (s : RisePirServer C B) (complete : Bool) : RawState :=
  ⟨s.store.cells, .of s.setup, s.store.numItems, complete, saveDigest xxh3 s s.valueCodec complete⟩

/-- A saved server of the binary's lineage is parsed into its own parts. -/
theorem parseRaw_save (laws : code.Laws) {s : RisePirServer C B} (valid : s.valueCodec.ValidWidths)
    (storable : Storable s) (lineage : OwnLineage code s.valueCodec (.of p)) (complete : Bool) :
    (parseRaw code xxh3 s.valueCodec (save xxh3 s s.valueCodec complete)).outcome =
      .ok (rawOf xxh3 s complete) := by
  have cells : s.store.cells.length = expectedCells code (RawSetup.of s.setup).params := by
    rw [s.store.cells_length]
    exact (expectedCells_of laws p).symm
  exact parseRaw_body valid storable.items storable.length storable.setup lineage cells

/-- The parts of a server, whatever cells and hints they hold, are assembled into them. -/
theorem assemble_parts (laws : code.Laws) (rebuilds : code.Rebuilds C) {s : RisePirServer C B}
    {raw : RawState} (cells : raw.cells = s.store.cells) (setup : raw.setup = .of s.setup)
    (items : raw.numItems = s.store.numItems) :
    (assemble code s.valueCodec raw).outcome =
      some (.ok ⟨.of s, raw.complete, raw.digest⟩) := by
  have built : code.fromCells raw.setup.params raw.cells raw.numItems =
      .ok ⟨.of p, s.store.cells, s.store.numItems⟩ := by
    rw [cells, setup, items]
    exact rebuilds s.store s.store.numItems
  have width : ¬ s.valueCodec.numBytes ≠ code.valueSizeInBytes (.of p) := by
    rw [laws.valueSize_eq, not_not, ValueCodec.numBytes, s.value_bits]
    rfl
  rw [assemble, built]
  dsimp only
  rw [if_neg width, if_neg, if_neg]
  · rw [setup]
    dsimp only
    congr 4
    show (s.segments.map SegmentState.params).zip (s.segments.map SegmentState.hint) = _
    rw [List.zip_map']
  · rw [setup, not_not]
    show (s.segments.map SegmentState.hint).length = p.arity
    rw [List.length_map, s.segments_length]
  · rw [setup, not_not]
    show (s.segments.map SegmentState.params).length = p.arity
    rw [List.length_map, s.segments_length]

/-- A saved server that is parsed at all is of the binary's lineage. -/
theorem lineage_of_parsed {s : RisePirServer C B} (valid : s.valueCodec.ValidWidths)
    (storable : Storable s) {complete : Bool} {raw : RawState}
    (parsed : (parseRaw code xxh3 s.valueCodec (save xxh3 s s.valueCodec complete)).outcome =
      .ok raw) : OwnLineage code s.valueCodec (.of p) := by
  have header : readHeader s.valueCodec (headBytes s.valueCodec complete s.store.numItems
      (.of s.setup) s.store.cells.length ++ ((s.store.cells.flatMap fun c => leBytes 4 c.toNat) ++
        leBytes 8 (saveDigest xxh3 s s.valueCodec complete))) = _ :=
    readHeader_head valid storable.items storable.length _
  have file : save xxh3 s s.valueCodec complete =
      headBytes s.valueCodec complete s.store.numItems (.of s.setup) s.store.cells.length ++
        ((s.store.cells.flatMap fun c => leBytes 4 c.toNat) ++
          leBytes 8 (saveDigest xxh3 s s.valueCodec complete)) := by
    rw [save, bodyBytes, List.append_assoc]
    rfl
  rw [parseRaw, file, header] at parsed
  dsimp only at parsed
  cases section_ok : readSetup code s.valueCodec (encodeRawSetup (.of s.setup)).length
      (encodeRawSetup (.of s.setup) ++ (leBytes 8 s.store.cells.length ++
        ((s.store.cells.flatMap fun c => leBytes 4 c.toNat) ++
          leBytes 8 (saveDigest xxh3 s s.valueCodec complete)))) with
  | error e =>
      rw [section_ok] at parsed
      cases parsed
  | ok out =>
      obtain ⟨setup, rest⟩ := out
      obtain ⟨-, lineage⟩ := readSetup_ok section_ok
      obtain rfl := readSetup_own storable.setup section_ok
      exact lineage

/-- What a saved server is loaded as, if it is loaded, is the server. -/
theorem load_save_server (laws : code.Laws) (rebuilds : code.Rebuilds C) {s : RisePirServer C B}
    (valid : s.valueCodec.ValidWidths) (storable : Storable s) {complete : Bool}
    {loaded : LoadedState}
    (loads : load code xxh3 s.valueCodec (save xxh3 s s.valueCodec complete) = some (.ok loaded)) :
    loaded.server = .of s := by
  cases parsed : (parseRaw code xxh3 s.valueCodec (save xxh3 s s.valueCodec complete)).outcome with
  | error e =>
      rw [load, parsed] at loads
      cases loads
  | ok raw =>
      have lineage := lineage_of_parsed valid storable parsed
      rw [load, parseRaw_save laws valid storable lineage] at loads
      dsimp only at loads
      rw [assemble_parts laws rebuilds rfl rfl rfl] at loads
      cases loads
      rfl

private theorem load_save_iff (laws : code.Laws) (rebuilds : code.Rebuilds C)
    {s : RisePirServer C B} (valid : s.valueCodec.ValidWidths) (storable : Storable s)
    (complete : Bool) :
    load code xxh3 s.valueCodec (save xxh3 s s.valueCodec complete) =
        some (.ok ⟨.of s, complete, saveDigest xxh3 s s.valueCodec complete⟩) ↔
      OwnLineage code s.valueCodec (.of p) := by
  constructor
  · intro loaded
    rw [load] at loaded
    cases parsed : (parseRaw code xxh3 s.valueCodec (save xxh3 s s.valueCodec complete)).outcome with
    | error e =>
        rw [parsed] at loaded
        cases loaded
    | ok raw =>
        obtain ⟨accepted, lineage, -⟩ := parseRaw_ok parsed
        rw [parsed] at loaded
        dsimp only at loaded
        cases built : code.fromCells raw.setup.params raw.cells raw.numItems with
        | error e => simp [assemble, built] at loaded
        | ok store =>
            rw [assemble_eq laws accepted built] at loaded
            split_ifs at loaded
            simp only [Option.some.injEq, Except.ok.injEq, LoadedState.mk.injEq, LoadedServer.of,
              LoadedServer.mk.injEq] at loaded
            exact loaded.1.1 ▸ lineage
  · intro lineage
    rw [load, parseRaw_save laws valid storable lineage]
    exact assemble_parts laws rebuilds rfl rfl rfl

end Saving

/-- For every file: it is loaded safely exactly when the cells it declares fit in it and, if the
table accepts them, its value width and its segments' own numbers are those of its geometry and the
matrices they stand for are no longer than the file. And a server's file brings the server back exactly
when its geometry is the binary's own. -/
theorem loads_safely_iff (laws : code.Laws) (valid : codec.ValidWidths) :
    (∀ file, LoadsSafely code xxh3 codec file ↔
      CellsInside code codec file ∧ FieldsAgree code xxh3 codec file ∧
        MaterialInside code xxh3 codec file) ∧
    ∀ {p : CuckooParams} {C : SegmentedCuckoo p} {B : PirBackend} (s : RisePirServer C B)
      (complete : Bool), code.Rebuilds C → s.valueCodec = codec → Storable s →
      (load code xxh3 codec (save xxh3 s codec complete) =
          some (.ok ⟨.of s, complete, saveDigest xxh3 s codec complete⟩) ↔
        OwnLineage code codec (.of p)) ∧
      ∀ key, (LoadedServer.of s).balanceOf C key = s.balanceOf key := by
  refine ⟨loads_safely laws valid, ?_⟩
  rintro p C B s complete rebuilds rfl storable
  exact ⟨load_save_iff laws rebuilds valid storable complete, fun key => rfl⟩

section Small

/-- A loader whose table accepts any cells of the right number and size, at nine plaintext bits. -/
def referenceLoader : LoaderCode where
  selectors := ⟨fun _ _ _ _ _ => 9, fun _ _ _ _ _ => 9⟩
  cellsPerSlot params :=
    (params.fingerprintBits + params.valueBits + (params.plaintextBits - 1)) / params.plaintextBits
  valueSizeInBytes params := (params.valueBits + 7) / 8
  hintMaterialBytes sp := 4 * (sp.reshapeRows * sp.lweDim)
  fromCells params cells numItems :=
    if cells.length = params.numBuckets * (params.bucketSize * ((params.fingerprintBits +
          params.valueBits + (params.plaintextBits - 1)) / params.plaintextBits)) ∧
        cells.all (fun cell => cell.toNat < 2 ^ params.plaintextBits) then .ok ⟨params, cells, numItems⟩
    else .error (.invalidParams "cells")

theorem referenceLoader_laws : referenceLoader.Laws where
  cellsPerSlot_eq _ _ _ := rfl
  valueSize_eq _ := rfl
  hintMaterial_eq _ := rfl
  fromCells_keeps params cells numItems store h := by
    dsimp only [referenceLoader] at h
    split_ifs at h
    cases h
    rfl

private theorem store_cell_lt {p : CuckooParams} (store : (referenceTable p).Store) :
    ∀ cell ∈ store.cells, cell.toNat < 2 ^ p.plaintextBits := by
  intro cell hmem
  obtain ⟨i, hi, rfl⟩ := List.getElem_of_mem hmem
  have bound := cell_lt store (store.cells_length ▸ hi)
  rwa [List.getD_eq_getElem _ _ hi] at bound

private theorem referenceLoader_accepts {params : RawParams} {cells : List (BitVec 32)}
    (numItems : Nat) (count : cells.length = params.numBuckets * (params.bucketSize *
      ((params.fingerprintBits + params.valueBits + (params.plaintextBits - 1)) / params.plaintextBits)))
    (bound : ∀ cell ∈ cells, cell.toNat < 2 ^ params.plaintextBits) :
    referenceLoader.fromCells params cells numItems = .ok ⟨params, cells, numItems⟩ :=
  if_pos ⟨count, List.all_eq_true.mpr fun cell mem => decide_eq_true (bound cell mem)⟩

theorem referenceLoader_rebuilds (p : CuckooParams) : referenceLoader.Rebuilds (referenceTable p) :=
  fun store numItems =>
    referenceLoader_accepts numItems store.cells_length (store_cell_lt store)

/-- Two segments of two buckets, in the slots and fingerprints of the deployment. -/
def ownParams : CuckooParams where
  arity := 2
  numBuckets := 4
  bucketSize := 4
  fingerprintBits := 32
  valueBits := 24
  plaintextBits := 9
  arity_range := smallParams.arity_range
  segments_even := smallParams.segments_even
  numBuckets_range := smallParams.numBuckets_range
  bucketSize_pos := pos_four
  fieldBits_pos := by decide
  plaintextBits_range := by decide
  rowWidth_fits := by decide

abbrev OwnServer : Type := RisePirServer (referenceTable ownParams) referencePir

theorem ownWidth : smallCodec.valueBits = ownParams.valueBits := rfl

/-- The empty server of that geometry. -/
def ownServer : OwnServer :=
  .new (emptyStore ownParams) ⟨1, 1⟩ (fun j => ⟨BitVec.ofNat 128 j, []⟩) smallCodec 7 ownWidth

theorem ownServer_storable : Storable ownServer where
  setup := by
    have fits : ∀ sp ∈ ownServer.setup.backendParams, sp.lweDim < 2 ^ 32 ∧ sp.nRows < 2 ^ 32 ∧
        sp.rowWidth < 2 ^ 32 ∧ sp.k < 2 ^ 32 ∧ sp.reshapeRows < 2 ^ 32 ∧ sp.reshapeRowWidth < 2 ^ 32 ∧
        Constructible sp := by decide
    refine ⟨by decide, by decide, by decide, by decide, by decide, by decide, by decide, by decide,
      ?_, by decide⟩
    intro sp hsp
    obtain ⟨lweDim, nRows, rowWidth, k, reshapeRows, reshapeRowWidth, constructible⟩ := fits sp hsp
    exact ⟨constructible, lweDim, nRows, rowWidth, k, reshapeRows, reshapeRowWidth⟩
  items := by decide
  length := by decide +kernel

theorem ownLineage {params : RawParams} (arity : params.arity = 2)
    (buckets : params.numBuckets ≠ 0 ∧ 2 ∣ params.numBuckets) (bucketSize : params.bucketSize = 4)
    (fingerprintBits : params.fingerprintBits = 32) (plaintextBits : params.plaintextBits = 9) :
    OwnLineage referenceLoader smallCodec params :=
  ⟨arity, buckets, bucketSize, fingerprintBits, by decide, plaintextBits⟩

/-- A server of that geometry with the same segments. -/
theorem storable_of_own {s : OwnServer}
    (params : s.setup.backendParams = ownServer.setup.backendParams)
    (hints : (s.setup.hints.map fun hint => hint.data.length) =
      ownServer.setup.hints.map fun hint => hint.data.length)
    (block : s.block < 2 ^ 64) (items : s.store.numItems < 2 ^ 64)
    (length : (encodeRawSetup (.of s.setup)).length < 2 ^ 64) : Storable s where
  setup := by
    have fits := ownServer_storable.setup
    refine ⟨fits.scheme, fits.numBuckets, fits.bucketSize, fits.fingerprintBits, fits.valueBits,
      fits.plaintextBits, block, ?_, ?_, ?_⟩
    · exact (congrArg List.length params).trans fits.segments
    · intro sp hsp
      have hsp : sp ∈ s.setup.backendParams := hsp
      rw [params] at hsp
      exact fits.params sp hsp
    · exact hints.trans (fits.hints.trans (congrArg (List.map hintLength) params.symm))
  items := items
  length := length

private def heldKey : AddressHash := smallKey 3 1 0 0

/-- That server once it has stored an account. -/
private def heldServer : OwnServer :=
  (ownServer.applyBlockReporting (Draw.mk 0 2) ⟨8, [(heldKey, 5)], []⟩).1

private theorem heldServer_storable : Storable heldServer :=
  storable_of_own (by decide +kernel) (by decide +kernel) (by decide +kernel) (by decide +kernel)
    (by decide +kernel)

private def heldFile : List UInt8 := save (fun _ => 0) heldServer smallCodec true

private theorem heldFile_parsed : (parseRaw referenceLoader (fun _ => 0) smallCodec heldFile).outcome =
    .ok (rawOf (fun _ => 0) heldServer true) :=
  parseRaw_save referenceLoader_laws (by decide) heldServer_storable
    (ownLineage rfl (by decide) rfl rfl rfl) true

private theorem heldFile_fields : FieldsAgree referenceLoader (fun _ => 0) smallCodec heldFile := by
  intro raw store parsed _
  obtain rfl := Except.ok.inj (heldFile_parsed.symm.trans parsed)
  have described : ∀ sp ∈ heldServer.setup.backendParams, sp.nRows = 2 ∧ sp.rowWidth = 28 ∧
      sp.plaintextBits = 9 ∧ 0 < sp.k ∧ sp.reshapeRowWidth = sp.k * sp.rowWidth ∧
      sp.reshapeRows = (sp.nRows + (sp.k - 1)) / sp.k := by decide +kernel
  refine ⟨rfl, fun sp hsp => ?_⟩
  obtain ⟨rows, width, bits, pos, reshaped, reshapedRows⟩ := described sp hsp
  exact ⟨rows, width, bits, pos, reshaped, reshapedRows⟩

private theorem heldFile_material : MaterialInside referenceLoader (fun _ => 0) smallCodec heldFile := by
  intro raw store parsed _
  obtain rfl := Except.ok.inj (heldFile_parsed.symm.trans parsed)
  have inside : ∀ sp ∈ heldServer.setup.backendParams,
      4 * (sp.reshapeRows * sp.lweDim) ≤ heldFile.length := by decide +kernel
  exact inside

/-- A server that holds an account is saved, loaded safely and brought back with its balance. -/
theorem loads_safely_iff_held :
    LoadsSafely referenceLoader (fun _ => 0) smallCodec heldFile ∧
      load referenceLoader (fun _ => 0) smallCodec heldFile = some (.ok ⟨.of heldServer, true, 0⟩) ∧
      (LoadedServer.of heldServer).balanceOf (referenceTable ownParams) heldKey = .ok (some 5) := by
  obtain ⟨safe, restores⟩ :=
    @loads_safely_iff referenceLoader (fun _ => 0) smallCodec referenceLoader_laws (by decide)
  obtain ⟨loads, reads⟩ := restores heldServer true (referenceLoader_rebuilds ownParams) rfl
    heldServer_storable
  refine ⟨(safe heldFile).mpr ⟨cellsInside_of_parsed heldFile_parsed, heldFile_fields,
    heldFile_material⟩, loads.mpr (ownLineage rfl (by decide) rfl rfl rfl), ?_⟩
  rw [reads]
  decide +kernel

/-- The setup of the empty server under another bucket count and value width. -/
private def forgedSetup (numBuckets valueBits : Nat) : RawSetup where
  params := ⟨2, numBuckets, 4, 32, valueBits, 9⟩
  backendParams := ownServer.setup.backendParams
  hints := ownServer.setup.hints
  block := 7

private theorem forgedSetup_fits {numBuckets valueBits : Nat} (buckets : numBuckets < 2 ^ 32)
    (value : valueBits < 2 ^ 32) : SetupFits (forgedSetup numBuckets valueBits) :=
  { ownServer_storable.setup with
    numBuckets := buckets
    valueBits := value }

private theorem forgedSetup_length (numBuckets valueBits : Nat) :
    (encodeRawSetup (forgedSetup numBuckets valueBits)).length = 363 := by
  have same : (encodeRawSetup (forgedSetup numBuckets valueBits)).length =
      (encodeRawSetup (.of ownServer.setup)).length := by
    simp only [encodeRawSetup, List.length_append, leBytes_length, List.length_singleton]
    rfl
  rw [same]
  decide +kernel

/-- A file that ends where the cells of its `2 ^ 30` buckets should begin. -/
private def oversizedFile : List UInt8 :=
  headBytes smallCodec true 0 (forgedSetup (2 ^ 30) 24) (2 ^ 30 * 4 * 7)

/-- The empty server's file with one more value bit, and with its checksum. -/
private def widenedFile (xxh3 : List UInt8 → BitVec 64) : List UInt8 :=
  bodyBytes smallCodec true 0 (forgedSetup 4 25) ownServer.store.cells ++
    leBytes 8 (xxh3 (bodyBytes smallCodec true 0 (forgedSetup 4 25) ownServer.store.cells)).toNat

private theorem widenedFile_panics (xxh3 : List UInt8 → BitVec 64) :
    load referenceLoader xxh3 smallCodec (widenedFile xxh3) = none := by
  have fits : SetupFits (forgedSetup 4 25) := forgedSetup_fits (by decide) (by decide)
  have short := forgedSetup_length 4 25
  have lineage : OwnLineage referenceLoader smallCodec (forgedSetup 4 25).params :=
    ownLineage rfl (by decide) rfl rfl rfl
  have cells : ownServer.store.cells.length = 112 := ownServer.store.cells_length.trans (by decide)
  have expected : 112 = expectedCells referenceLoader (forgedSetup 4 25).params := by
    show 112 = 4 * 4 * ((32 + 25 + (9 - 1)) / 9) % 2 ^ 64
    norm_num
  have parsed : (parseRaw referenceLoader xxh3 smallCodec (widenedFile xxh3)).outcome =
      .ok ⟨ownServer.store.cells, forgedSetup 4 25, 0, true,
        (xxh3 (bodyBytes smallCodec true 0 (forgedSetup 4 25) ownServer.store.cells)).toNat⟩ :=
    parseRaw_body (by decide) (by decide) (by omega) fits lineage (cells.trans expected)
  have built : referenceLoader.fromCells (forgedSetup 4 25).params ownServer.store.cells 0 =
      .ok ⟨(forgedSetup 4 25).params, ownServer.store.cells, 0⟩ :=
    referenceLoader_accepts 0 (cells.trans rfl) (store_cell_lt ownServer.store)
  have differs : smallCodec.numBytes ≠ (25 + 7) / 8 := by decide
  rw [load, parsed]
  exact congrArg Assembly.outcome
    ((assemble_eq referenceLoader_laws (parseRaw_ok parsed).1 built).trans (if_pos differs))

/-- A short file makes the loader allocate a hundred gigabytes, and a file whose value width is
off by one makes it panic. -/
theorem unchecked_fields_break_loading :
    ¬ LoadsSafely referenceLoader (fun _ => 0) smallCodec oversizedFile ∧
      load referenceLoader (fun _ => 0) smallCodec (widenedFile fun _ => 0) = none := by
  constructor
  · intro safe
    have inside := (allocated_le_iff oversizedFile).mp fun n mem =>
      safe.bounded n (parsed_allocations mem)
    have fits : SetupFits (forgedSetup (2 ^ 30) 24) := forgedSetup_fits (by decide) (by decide)
    have short := forgedSetup_length (2 ^ 30) 24
    have lineage : OwnLineage referenceLoader smallCodec (forgedSetup (2 ^ 30) 24).params := by
      apply ownLineage rfl _ rfl rfl rfl
      show 2 ^ 30 ≠ 0 ∧ 2 ∣ 2 ^ 30
      norm_num
    have count : 2 ^ 30 * 4 * 7 =
        expectedCells referenceLoader (forgedSetup (2 ^ 30) 24).params := by
      show 2 ^ 30 * 4 * 7 = 2 ^ 30 * 4 * ((32 + 24 + (9 - 1)) / 9) % 2 ^ 64
      norm_num
    have header : readHeader smallCodec (oversizedFile ++ []) =
        .ok (⟨true, 0, (encodeRawSetup (forgedSetup (2 ^ 30) 24)).length⟩,
          encodeRawSetup (forgedSetup (2 ^ 30) 24) ++ (leBytes 8 (2 ^ 30 * 4 * 7) ++ [])) :=
      readHeader_head (by decide) (by decide) (by omega) []
    rw [List.append_nil] at header
    have declared := inside _ _ _ _ _ _ header (readSetup_encode fits lineage _)
      (readCellsLen_append count [])
    have magic : MAGIC.length = 5 := rfl
    have length : oversizedFile.length = 405 := by
      rw [oversizedFile, headBytes]
      simp only [List.length_append, leBytes_length, short, List.length_singleton, magic]
    omega
  · exact widenedFile_panics (fun _ => 0)

end Small

end RisePir.Rpc.StateFile
