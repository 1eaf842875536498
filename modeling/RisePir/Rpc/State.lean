import RisePir.Http.Setup
import RisePir.Proto.Sizing

set_option autoImplicit false
set_option relaxedAutoImplicit false

/-! The state file: what a server writes of itself, and the loader that accepts any bytes. A
file is its bytes, and `xxh3` is the checksum of a byte string. The fixed chunk buffer that the
cells are streamed through is left out; a `usize` is 64 bits wide. -/

namespace RisePir.Rpc.State

open RisePir.Lib.Digits
open RisePir.Proto.Sizing
open RisePir.Proto.Types
open RisePir.Proto.Value
open RisePir.Upstream.Cuckoo
open RisePir.Upstream.Pir
open RisePir.Server.Core
open RisePir.Http.Wire
open RisePir.Http.Bundles
open RisePir.Http.Setup

/-- `b"RPST1"`. -/
def MAGIC_V1 : List UInt8 := [0x52, 0x50, 0x53, 0x54, 0x31]

/-- `b"RPST2"`. -/
def MAGIC_V2 : List UInt8 := [0x52, 0x50, 0x53, 0x54, 0x32]

/-- `b"RPST3"`. -/
def MAGIC : List UInt8 := [0x52, 0x50, 0x53, 0x54, 0x33]

def STORE_ARITY : Nat := 2

/-- `mainnet::BUCKET_SIZE`. -/
def BUCKET_SIZE : Nat := 4

/-- `mainnet::FINGERPRINT_BITS`. -/
def FINGERPRINT_BITS : Nat := 32

inductive StateError
  | io (msg : String)
  | corrupt (msg : String)
  deriving DecidableEq, Repr

/-- A table over parameters that nobody has checked. -/
structure RawStore where
  params : RawParams
  cells : List (BitVec 32)
  numItems : Nat
  deriving DecidableEq, Repr

/-- The dependencies' code as the loader meets it: the table's functions over unchecked
parameters, the plaintext width's selectors, and how many bytes `expand_hint_material` fills. -/
structure LoaderCode where
  selectors : PirParams
  cellsPerSlot : RawParams → Nat
  valueSizeInBytes : RawParams → Nat
  hintMaterialBytes : SimpleServerParams → Nat
  fromCells : RawParams → List (BitVec 32) → (numItems : Nat) → Except CuckooError RawStore

/-- `cells_per_slot` and `value_size_in_bytes` are the rounded-up quotients, as long as the sum
does not overflow its `u32`; a segment's material is its matrix, `reshape_rows` by `lwe_dim` words; a
table that is built holds what it was given. -/
structure LoaderCode.Laws (code : LoaderCode) : Prop where
  cellsPerSlot_eq : ∀ params : RawParams, 0 < params.plaintextBits →
    params.fingerprintBits + params.valueBits + (params.plaintextBits - 1) < 2 ^ 32 →
    code.cellsPerSlot params =
      (params.fingerprintBits + params.valueBits + (params.plaintextBits - 1)) / params.plaintextBits
  valueSize_eq : ∀ params : RawParams, code.valueSizeInBytes params = (params.valueBits + 7) / 8
  hintMaterial_eq : ∀ sp : SimpleServerParams,
    code.hintMaterialBytes sp = 4 * (sp.reshapeRows * sp.lweDim)
  fromCells_keeps : ∀ params cells numItems store,
    code.fromCells params cells numItems = .ok store → store = ⟨params, cells, numItems⟩

/-- `from_cells` rebuilds a table from the cells a table had. -/
def LoaderCode.Rebuilds (code : LoaderCode) {p : CuckooParams} (C : SegmentedCuckoo p) : Prop :=
  ∀ (store : C.Store) (numItems : Nat),
    code.fromCells (.of p) store.cells numItems = .ok ⟨.of p, store.cells, numItems⟩

/-- What a state file holds, before a table is built from it. -/
structure RawState where
  cells : List (BitVec 32)
  setup : RawSetup
  numItems : Nat
  complete : Bool
  digest : Nat
  deriving DecidableEq, Repr

/-- A loaded `RisePirServer`, whose geometry is the file's. Its material is expanded from
`segments` and its mutation log is empty. -/
structure LoadedServer where
  params : RawParams
  cells : List (BitVec 32)
  numItems : Nat
  segments : List (SimpleServerParams × Hint)
  block : Nat
  valueCodec : ValueCodec

structure LoadedState where
  server : LoadedServer
  complete : Bool
  digest : Nat

/-- What of a running server a state file can bring back. -/
def LoadedServer.of {p : CuckooParams} {C : SegmentedCuckoo p} {B : PirBackend}
    (s : RisePirServer C B) : LoadedServer :=
  ⟨.of p, s.store.cells, s.store.numItems, s.segments.map fun seg => (seg.params, seg.hint), s.block,
    s.valueCodec⟩

/-- `balance_of` on the loaded server. -/
def LoadedServer.balanceOf {p : CuckooParams} (C : SegmentedCuckoo p) (server : LoadedServer)
    (addr : AddressHash) : Except ServerError (Option Balance) :=
  match Server.Verified.get C server.valueCodec server.cells addr with
  | .ok balance => .ok balance
  | .error .corrupt => .error .corruptStoredValue
  | .error _ => .error (.fingerprintAmbiguity false)

/-- What loading came to, with the sizes in bytes of the buffers whose length the file chose. -/
structure Loading (α : Type) where
  allocated : List Nat
  outcome : Except StateError α

/-- `read_exact`. -/
def readExact (n : Nat) (bytes : List UInt8) : Except StateError (List UInt8 × List UInt8) :=
  if bytes.length < n then .error (.io "failed to fill whole buffer")
  else .ok (bytes.take n, bytes.drop n)

/-- `read_u32` and `read_u64`. -/
def readNat (n : Nat) (bytes : List UInt8) : Except StateError (Nat × List UInt8) := do
  let (field, bytes) ← readExact n bytes
  return (leNat field, bytes)

def checkMagic (magic : List UInt8) : Except StateError Unit :=
  if magic = MAGIC then .ok ()
  else if magic = MAGIC_V1 ∨ magic = MAGIC_V2 then
    let version := if magic = MAGIC_V1 then "RPST1" else "RPST2"
    .error (.corrupt (s!"state file is {version}, written before the primitive's item hash changed " ++
      "from xxh3_64 to xxh3_128 — every key hashes to a different bucket now, so these cells no " ++
      "longer describe a filter this binary can read, and loading them would miss on every lookup " ++
      "(answering 0x0 for accounts that exist). This is not disk corruption, and the geometry is " ++
      "unchanged, which is exactly why nothing cheaper catches it; move the --state file aside and " ++
      "re-bootstrap from a fresh snapshot (do not restore from backup, the file itself is fine)"))
  else .error (.corrupt "bad magic (not an RPST1/RPST2/RPST3 state file)")

def checkFlag : Nat → Except StateError Bool
  | 0 => .ok false
  | 1 => .ok true
  | other => .error (.corrupt s!"bad completeness flag {other}")

def checkCodec (codec : ValueCodec) (keyTagBits balanceBits checksumBits : Nat) :
    Except StateError Unit :=
  if keyTagBits = codec.keyTagBits ∧ balanceBits = codec.balanceBits ∧
      checksumBits = codec.checksumBits then .ok ()
  else
    .error (.corrupt (s!"value codec mismatch: file has key_tag/balance/checksum = " ++
      s!"{keyTagBits}/{balanceBits}/{checksumBits} bits, deployment configured " ++
      s!"{codec.keyTagBits}/{codec.balanceBits}/{codec.checksumBits}"))

/-- `check_geometry_lineage`. -/
def checkGeometryLineage (code : LoaderCode) (params : RawParams) (codec : ValueCodec) :
    Except StateError Unit :=
  match forNumBuckets code.selectors params.numBuckets STORE_ARITY BUCKET_SIZE FINGERPRINT_BITS codec
      .simple with
  | .error e => .error (.corrupt (s!"state file declares num_buckets {params.numBuckets}, which is " ++
      s!"not a geometry this binary can describe: {e.display}"))
  | .ok expected =>
      if params.bucketSize = expected.bucketSize ∧ params.fingerprintBits = expected.fingerprintBits ∧
          params.plaintextBits = expected.plaintextBits then .ok ()
      else
        .error (.corrupt (s!"state file geometry is (bucket_size {params.bucketSize}, " ++
          s!"fingerprint_bits {params.fingerprintBits}, plaintext_bits {params.plaintextBits}) but " ++
          s!"this binary derives (bucket_size {expected.bucketSize}, fingerprint_bits " ++
          s!"{expected.fingerprintBits}, plaintext_bits {expected.plaintextBits}) at that file's own " ++
          s!"num_buckets ({params.numBuckets}) — this is not disk corruption, it is an intact state " ++
          "file from a previous geometry lineage (ADR-0042); move the --state file aside and " ++
          "re-bootstrap from a fresh snapshot (do not restore from backup, the file itself is fine)"))

/-- The fields before the setup section. -/
structure Header where
  complete : Bool
  numItems : Nat
  setupLen : Nat
  deriving DecidableEq, Repr

/-- `parse_raw` up to `setup_len`, which is bounded by the file's own size. -/
def readHeader (codec : ValueCodec) (file : List UInt8) :
    Except StateError (Header × List UInt8) := do
  let (magic, bytes) ← readExact 5 file
  checkMagic magic
  let (flag, bytes) ← readNat 1 bytes
  let complete ← checkFlag flag
  let (keyTagBits, bytes) ← readNat 4 bytes
  let (balanceBits, bytes) ← readNat 4 bytes
  let (checksumBits, bytes) ← readNat 4 bytes
  checkCodec codec keyTagBits balanceBits checksumBits
  let (numItems, bytes) ← readNat 8 bytes
  let (setupLen, bytes) ← readNat 8 bytes
  if file.length < setupLen then
    .error (.corrupt
      s!"setup_len {setupLen} exceeds the file's own size ({file.length} bytes)")
  else return (⟨complete, numItems, setupLen⟩, bytes)

/-- The setup section, its arity and its lineage. -/
def readSetup (code : LoaderCode) (codec : ValueCodec) (setupLen : Nat) (bytes : List UInt8) :
    Except StateError (RawSetup × List UInt8) := do
  let (setupBytes, bytes) ← readExact setupLen bytes
  match decodeSetup setupBytes with
  | .error e => .error (.corrupt ("setup section: " ++ e.display))
  | .ok setup =>
      if setup.params.arity ≠ STORE_ARITY then
        .error (.corrupt (s!"state file geometry is arity {setup.params.arity} but this binary is " ++
          s!"compiled for arity {STORE_ARITY} (ADR-0034) — this is not disk corruption, it is an " ++
          "intact state file from a previous geometry lineage; move the --state file aside and " ++
          "re-bootstrap from a fresh snapshot (do not restore from backup, the file itself is fine)"))
      else
        checkGeometryLineage code setup.params codec
        return (setup, bytes)

/-- The number of cells of the file's own geometry, in a `usize`. -/
def expectedCells (code : LoaderCode) (params : RawParams) : Nat :=
  params.numBuckets * params.bucketSize * code.cellsPerSlot params % 2 ^ 64

/-- `cells_len`, which is compared with the geometry and not with the file's size. -/
def readCellsLen (code : LoaderCode) (params : RawParams) (bytes : List UInt8) :
    Except StateError (Nat × List UInt8) := do
  let (cellsLen, bytes) ← readNat 8 bytes
  if cellsLen ≠ expectedCells code params then
    .error (.corrupt (s!"cells_len {cellsLen} does not match the setup section's geometry " ++
      s!"({expectedCells code params} cells)"))
  else return (cellsLen, bytes)

/-- `n` little-endian words. -/
def leWords : Nat → List UInt8 → List (BitVec 32)
  | 0, _ => []
  | n + 1, bytes => BitVec.ofNat 32 (leNat (bytes.take 4)) :: leWords n (bytes.drop 4)

/-- The `{:#018x}` of a `u64`. -/
def hexWord (n : Nat) : String :=
  "0x" ++ String.ofList ((List.range 16).map fun i => hexDigit (n / 16 ^ (15 - i) % 16))

/-- The cells, the checksum of everything before it, and the end of the file. -/
def readTail (xxh3 : List UInt8 → BitVec 64) (file : List UInt8) (header : Header)
    (setup : RawSetup) (cellsLen : Nat) (bytes : List UInt8) : Except StateError RawState := do
  let (cellBytes, bytes) ← readExact (4 * cellsLen) bytes
  let computed := (xxh3 (file.take (file.length - bytes.length))).toNat
  let (stored, bytes) ← readNat 8 bytes
  if computed ≠ stored then
    .error (.corrupt (s!"whole-file checksum mismatch (stored {hexWord stored}, computed " ++
      s!"{hexWord computed}) — the file is corrupt; restore from backup or re-bootstrap"))
  else if bytes ≠ [] then .error (.corrupt "trailing bytes after cells section")
  else return ⟨leWords cellsLen cellBytes, setup, header.numItems, header.complete, computed⟩

/-- The setup section's buffer and the hints decoded from it. -/
def setupAllocations (setupLen : Nat) (bytes : List UInt8) : List Nat :=
  setupLen :: if bytes.length < setupLen then [] else hintAllocations (bytes.take setupLen)

/-- `parse_raw`. The cell array is allocated before its bytes are read. -/
def parseRaw (code : LoaderCode) (xxh3 : List UInt8 → BitVec 64) (codec : ValueCodec)
    (file : List UInt8) : Loading RawState :=
  match readHeader codec file with
  | .error e => ⟨[], .error e⟩
  | .ok (header, bytes) =>
      let allocated := setupAllocations header.setupLen bytes
      match readSetup code codec header.setupLen bytes with
      | .error e => ⟨allocated, .error e⟩
      | .ok (setup, bytes) =>
          match readCellsLen code setup.params bytes with
          | .error e => ⟨allocated, .error e⟩
          | .ok (cellsLen, bytes) =>
              ⟨4 * cellsLen :: allocated, readTail xxh3 file header setup cellsLen bytes⟩

/-- What assembling came to, with the sizes in bytes of the buffers whose length the file chose; no
outcome where an assertion of `from_parts` fails. -/
structure Assembly where
  allocated : List Nat
  outcome : Option (Except StateError LoadedState)

/-- `assemble`. `from_parts` expands every segment's material once its assertions have passed. -/
def assemble (code : LoaderCode) (codec : ValueCodec) (raw : RawState) : Assembly :=
  match code.fromCells raw.setup.params raw.cells raw.numItems with
  | .error e => ⟨[], some (.error (.corrupt ("store reconstruction: " ++ debugError e)))⟩
  | .ok store =>
      if codec.numBytes ≠ code.valueSizeInBytes store.params then ⟨[], none⟩
      else if raw.setup.backendParams.length ≠ store.params.arity then ⟨[], none⟩
      else if raw.setup.hints.length ≠ store.params.arity then ⟨[], none⟩
      else
        ⟨raw.setup.backendParams.map code.hintMaterialBytes,
          some (.ok ⟨⟨store.params, store.cells, store.numItems,
            raw.setup.backendParams.zip raw.setup.hints, raw.setup.block, codec⟩, raw.complete,
            raw.digest⟩)⟩

/-- `load_from`. -/
def load (code : LoaderCode) (xxh3 : List UInt8 → BitVec 64) (codec : ValueCodec)
    (file : List UInt8) : Option (Except StateError LoadedState) :=
  match (parseRaw code xxh3 codec file).outcome with
  | .error e => some (.error e)
  | .ok raw => (assemble code codec raw).outcome

/-- Everything that `load_from` allocates at a length the file chose. -/
def loadAllocations (code : LoaderCode) (xxh3 : List UInt8 → BitVec 64) (codec : ValueCodec)
    (file : List UInt8) : List Nat :=
  let parsed := parseRaw code xxh3 codec file
  match parsed.outcome with
  | .error _ => parsed.allocated
  | .ok raw => parsed.allocated ++ (assemble code codec raw).allocated

/-- A state file up to the cells. -/
def headBytes (codec : ValueCodec) (complete : Bool) (numItems : Nat) (setup : RawSetup)
    (cellsLen : Nat) : List UInt8 :=
  MAGIC ++ [if complete then 1 else 0] ++ leBytes 4 codec.keyTagBits ++ leBytes 4 codec.balanceBits ++
    leBytes 4 codec.checksumBits ++ leBytes 8 numItems ++ leBytes 8 (encodeRawSetup setup).length ++
    encodeRawSetup setup ++ leBytes 8 cellsLen

/-- A state file up to its checksum. -/
def bodyBytes (codec : ValueCodec) (complete : Bool) (numItems : Nat) (setup : RawSetup)
    (cells : List (BitVec 32)) : List UInt8 :=
  headBytes codec complete numItems setup cells.length ++ cells.flatMap fun c => leBytes 4 c.toNat

/-- `save`: the file's bytes. -/
def save {p : CuckooParams} {C : SegmentedCuckoo p} {B : PirBackend} (xxh3 : List UInt8 → BitVec 64)
    (s : RisePirServer C B) (codec : ValueCodec) (complete : Bool) : List UInt8 :=
  let body := bodyBytes codec complete s.store.numItems (.of s.setup) s.store.cells
  body ++ leBytes 8 (xxh3 body).toNat

/-- The digest that `save` reports: the checksum the file ends in. -/
def saveDigest {p : CuckooParams} {C : SegmentedCuckoo p} {B : PirBackend}
    (xxh3 : List UInt8 → BitVec 64) (s : RisePirServer C B) (codec : ValueCodec) (complete : Bool) :
    Nat :=
  (xxh3 (bodyBytes codec complete s.store.numItems (.of s.setup) s.store.cells)).toNat

end RisePir.Rpc.State
