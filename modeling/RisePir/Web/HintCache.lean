import RisePir.Lib.Splice
import Mathlib.Logic.Function.Basic

set_option autoImplicit false
set_option relaxedAutoImplicit false

/-! The browser's persistent hint cache: `load()` as a machine that waits at each IndexedDB
transaction and at each event of the `/setup` transfer. Tabs share the records of one epoch. An
`ETag` of that epoch is named by its block. -/

namespace RisePir.Web.HintCache

open RisePir.Lib.Splice

def CHUNK_SIZE : Nat := 16 * 1024 * 1024

def MAX_SETUP_RESUME_ATTEMPTS : Nat := 3

def MAX_SANE_CACHE_BYTES : Nat := 16 * 1024 * 1024 * 1024

def isSaneByteLength (n : Nat) : Bool := 0 < n && n ≤ MAX_SANE_CACHE_BYTES

/-- The `meta` record; what is only shown of it is left out. -/
structure Meta where
  mode : Option Bool
  etag : Option Nat
  totalBytes : Nat
  bytesWritten : Nat
  complete : Bool
  deriving DecidableEq, Repr

/-- The two stores, as far as they concern the epoch. -/
structure HintStore where
  record : Option Meta
  chunk : Nat → Option (List UInt8)

namespace HintStore

def empty : HintStore := ⟨none, fun _ => none⟩

def putChunk (store : HintStore) (index : Nat) (bytes : List UInt8) : HintStore :=
  { store with chunk := Function.update store.chunk index (some bytes) }

def putMeta (store : HintStore) (m : Meta) : HintStore := { store with record := some m }

end HintStore

/-- A reply of `GET /setup` that carries bytes, or the refusal of a range. -/
inductive SetupReply
  | full (etag : Nat) (body : List UInt8)
  | rest (etag : Nat) (body : List UInt8)
  | unsatisfiable
  deriving DecidableEq, Repr

/-- The `setup` handler for `Range: bytes=<off>-` with `If-Range`; `off = 0` sends neither. -/
def setupReply (body : Nat → List UInt8) (current off : Nat) (ifRange : Option Nat) : SetupReply :=
  if 0 < off ∧ ifRange = some current then
    if (body current).length ≤ off then .unsatisfiable else .rest current ((body current).drop off)
  else .full current (body current)

/-- The variables of `#attemptSetupDownload`; `dest` is the wasm input buffer. -/
structure Download where
  off : Nat
  total : Nat
  etag : Option Nat
  mode : Option Bool
  dest : Option (List UInt8)
  nextChunk : Nat
  attempt : Nat
  deriving DecidableEq, Repr

namespace Download

def fresh : Download := ⟨0, 0, none, none, none, 0, 0⟩

/-- The record that goes with what has been flushed. -/
def note (d : Download) (bytesWritten : Nat) (complete : Bool) : Meta :=
  ⟨d.mode, d.etag, d.total, bytesWritten, complete⟩

def buffer (d : Download) : List UInt8 := d.dest.getD []

/-- The bytes are from another bundle: everything held is given up. -/
def restarted (d : Download) : Download := { d with off := 0, total := 0, dest := none, nextChunk := 0 }

/-- Bytes of the body enter the buffer. -/
def receive (d : Download) (value : List UInt8) : Download :=
  { d with dest := d.dest.map (splice · d.off value), off := d.off + value.length }

end Download

/-- What an eviction returns to. -/
inductive After
  | lookPartial
  | download
  | reply (d : Download) (etag : Nat) (mode : Option Bool) (declared : Bool) (body : List UInt8)

/-- Where `load()` waits. -/
inductive Phase
  | probing
  | wantMeta (mode : Option Bool)
  | replaying (mode : Option Bool) (m : Meta) (i off : Nat) (dest : List UInt8)
  | wantPartial
  | replayPrefix (m : Meta) (i : Nat) (dest : List UInt8)
  | evicting (next : After)
  | clearing (next : After)
  | requesting (d : Download)
  | wiping (d : Download) (rest : List UInt8)
  | reading (d : Download) (rest : List UInt8)
  | chunking (d : Download) (rest : List UInt8)
  | noting (d : Download) (rest : List UInt8)
  | finalChunk (d : Download)
  | finalNote (d : Download)
  | resolving (bytes : List UInt8)
  | handed (bytes : List UInt8)
  | failed

/-- What ends a wait: a transaction commits or fails, the probe or the server replies, no usable
reply comes or the transfer breaks, bytes arrive, the body is over, the page is closed.
`stalled` says that the watchdog has fired. -/
inductive Event
  | headed (mode : Option Bool)
  | committed
  | aborted
  | replied (mode : Option Bool) (declared : Bool)
  | refused (stalled : Bool)
  | piece (n : Nat)
  | buffered
  | ended
  | closed
  deriving DecidableEq, Repr

/-- A tab; `cached` when both the database and the epoch are known. -/
structure Tab where
  cached : Bool
  phase : Phase

section Moves

/-- The loop head of `#tryReadCacheIntoWasm`. -/
def replayFrom (mode : Option Bool) (m : Meta) (i off : Nat) (dest : List UInt8) : Phase :=
  if i < (m.totalBytes + CHUNK_SIZE - 1) / CHUNK_SIZE then .replaying mode m i off dest
  else if off = m.totalBytes then .resolving dest
  else .wantPartial

/-- One chunk of a replayed entry; anything out of place gives the entry up. -/
def replayChunk (mode : Option Bool) (m : Meta) (i off : Nat) (dest : List UInt8) :
    Option (List UInt8) → Phase
  | none => .wantPartial
  | some bytes =>
      if bytes.length = 0 ∨ m.totalBytes < off + bytes.length then .wantPartial
      else replayFrom mode m (i + 1) (off + bytes.length) (splice dest off bytes)

/-- What the live mode and the first read of the record lead to. -/
def afterMeta (mode : Option Bool) : Option Meta → Phase
  | none => .wantPartial
  | some m =>
      if m.complete && 0 < m.totalBytes then
        if mode.isSome && mode ≠ m.mode then .evicting .lookPartial
        else if !isSaneByteLength m.totalBytes then .evicting .lookPartial
        else replayFrom mode m 0 0 (List.replicate m.totalBytes 0)
      else .wantPartial

/-- The loop head of the prefix replay, and the resumed download behind it. -/
def prefixFrom (m : Meta) (i : Nat) (dest : List UInt8) : Phase :=
  if i < m.bytesWritten / CHUNK_SIZE then .replayPrefix m i dest
  else .requesting ⟨i * CHUNK_SIZE, m.totalBytes, m.etag, none, some dest, i, 0⟩

/-- One chunk of a replayed prefix; anything but a full chunk evicts the entry. -/
def prefixChunk (m : Meta) (i : Nat) (dest : List UInt8) : Option (List UInt8) → Phase
  | none => .evicting .download
  | some bytes =>
      if bytes.length ≠ CHUNK_SIZE then .evicting .download
      else prefixFrom m (i + 1) (splice dest (i * CHUNK_SIZE) bytes)

/-- What the second read of the record leads to. -/
def afterPartial : Option Meta → Phase
  | none => .requesting .fresh
  | some m =>
      if !m.complete && m.etag.isSome && 0 < m.bytesWritten then
        if isSaneByteLength m.totalBytes && m.bytesWritten ≤ m.totalBytes then
          prefixFrom m 0 (List.replicate m.totalBytes 0)
        else .evicting .download
      else .requesting .fresh

/-- From the headers of a reply on. -/
def begin (cached : Bool) (d : Download) (etag : Nat) (mode : Option Bool) (declared : Bool)
    (body : List UInt8) : Phase :=
  let d := { d with etag := some etag, mode := mode.orElse fun _ => d.mode }
  match d.dest with
  | some _ => .reading d body
  | none =>
      if declared && 0 < body.length then
        let d := { d with total := body.length, dest := some (List.replicate body.length 0) }
        if cached then .wiping d body else .reading d body
      else .resolving body

def resume (cached : Bool) : After → Phase
  | .lookPartial => .wantPartial
  | .download => .requesting .fresh
  | .reply d etag mode declared body => begin cached d etag mode declared body

/-- `idbEvictEpoch` clears only where there is a record. -/
def evicted (cached : Bool) (next : After) : Option Meta → Phase
  | none => resume cached next
  | some _ => .clearing next

/-- A `200` to a range request is a regenerated bundle. -/
def answered (cached : Bool) (d : Download) (mode : Option Bool) (declared : Bool) : SetupReply → Phase
  | .unsatisfiable => .failed
  | .rest etag body => begin cached d etag mode declared body
  | .full etag body =>
      if 0 < d.off then
        if cached then .evicting (.reply d.restarted etag mode declared body)
        else begin cached d.restarted etag mode declared body
      else begin cached d etag mode declared body

/-- The `catch`: a stall with bytes in hand is resumed. -/
def caught (d : Download) (stalled : Bool) : Phase :=
  if stalled && 0 < d.off && d.attempt < MAX_SETUP_RESUME_ATTEMPTS then
    .requesting { d with attempt := d.attempt + 1 }
  else .failed

/-- The flush loop's head. -/
def flush (cached : Bool) (d : Download) (rest : List UInt8) : Phase :=
  if cached && (d.nextChunk + 1) * CHUNK_SIZE ≤ d.off then .chunking d rest else .reading d rest

/-- From the end of the body on. -/
def finish (cached : Bool) (d : Download) : Phase :=
  if d.off ≠ d.total then .failed
  else if cached then
    if d.nextChunk * CHUNK_SIZE < d.total then .finalChunk d else .finalNote d
  else .resolving d.buffer

/-- A piece of the body, unless it overruns the declared length. -/
def pieced (cached : Bool) (d : Download) (value rest : List UInt8) : Phase :=
  if d.total < d.off + value.length then .failed else flush cached (d.receive value) rest

/-- The body in one buffer. -/
def buffered (cached : Bool) (d : Download) (value : List UInt8) : Phase :=
  if d.total < d.off + value.length then .failed else finish cached (d.receive value)

end Moves

/-- One event of a tab. -/
def Tab.step (body : Nat → List UInt8) (current : Nat) (store : HintStore) (tab : Tab) (event : Event) :
    HintStore × Phase :=
  match tab.phase, event with
  | .failed, _ => (store, .failed)
  | .handed bytes, _ => (store, .handed bytes)
  | _, .closed => (store, .failed)
  | .probing, .headed mode => (store, if tab.cached then .wantMeta mode else .requesting .fresh)
  | .probing, .refused _ => (store, .failed)
  | .wantMeta mode, .committed => (store, afterMeta mode store.record)
  | .wantMeta mode, .aborted => (store, afterMeta mode none)
  | .replaying mode m i off dest, .committed => (store, replayChunk mode m i off dest (store.chunk i))
  | .replaying _ _ _ _ _, .aborted => (store, .wantPartial)
  | .wantPartial, .committed => (store, afterPartial store.record)
  | .wantPartial, .aborted => (store, afterPartial none)
  | .replayPrefix m i dest, .committed => (store, prefixChunk m i dest (store.chunk i))
  | .replayPrefix _ _ _, .aborted => (store, .evicting .download)
  | .evicting next, .committed => (store, evicted tab.cached next store.record)
  | .evicting next, .aborted => (store, resume tab.cached next)
  | .clearing next, .committed => (.empty, resume tab.cached next)
  | .clearing next, .aborted => (store, resume tab.cached next)
  | .requesting d, .replied mode declared =>
      (store, answered tab.cached d mode declared (setupReply body current d.off d.etag))
  | .requesting d, .refused stalled => (store, caught d stalled)
  | .wiping d rest, .committed => (.empty, .reading d rest)
  | .wiping d rest, .aborted => (store, .reading d rest)
  | .reading d rest, .piece n => (store, pieced tab.cached d (rest.take n) (rest.drop n))
  | .reading d rest, .buffered => (store, buffered tab.cached d rest)
  | .reading d _, .ended => (store, finish tab.cached d)
  | .reading d _, .refused stalled => (store, caught d stalled)
  | .chunking d rest, .committed =>
      (store.putChunk d.nextChunk (slice d.buffer (d.nextChunk * CHUNK_SIZE) CHUNK_SIZE),
        .noting { d with nextChunk := d.nextChunk + 1 } rest)
  | .chunking d rest, .aborted => (store, .reading d rest)
  | .noting d rest, .committed =>
      (store.putMeta (d.note (d.nextChunk * CHUNK_SIZE) false), flush tab.cached d rest)
  | .noting d rest, .aborted => (store, flush tab.cached d rest)
  | .finalChunk d, .committed =>
      (store.putChunk d.nextChunk (d.buffer.drop (d.nextChunk * CHUNK_SIZE)),
        .finalNote { d with nextChunk := d.nextChunk + 1 })
  | .finalChunk d, .aborted => (store, .finalNote { d with nextChunk := d.nextChunk + 1 })
  | .finalNote d, .committed => (store.putMeta (d.note d.total true), .resolving d.buffer)
  | .finalNote d, .aborted => (store, .resolving d.buffer)
  | .resolving bytes, .committed => (store, .handed bytes)
  | .resolving _, .aborted => (store, .failed)
  | phase, _ => (store, phase)

/-- The browser's tabs before one deployment, whose `/setup` serves the bundle of `current` and
has served those of `served`. -/
structure World where
  current : Nat
  served : List Nat
  store : HintStore
  tabs : Nat → Tab

inductive Step
  | regenerate (block : Nat)
  | tab (t : Nat) (event : Event)
  deriving DecidableEq, Repr

namespace World

/-- Every tab is about to load, and nothing is cached. -/
def start (current : Nat) (cached : Nat → Bool) : World :=
  ⟨current, [current], .empty, fun t => ⟨cached t, .probing⟩⟩

def step (body : Nat → List UInt8) (w : World) : Step → World
  | .regenerate block => { w with current := block, served := block :: w.served }
  | .tab t event =>
      let out := (w.tabs t).step body w.current w.store event
      { w with
        store := out.1
        tabs := Function.update w.tabs t { w.tabs t with phase := out.2 } }

end World

end RisePir.Web.HintCache
