import RisePir.Web.HintCache

set_option autoImplicit false
set_option relaxedAutoImplicit false

/-! Interleaved loads over one cache. As long as no load writes its bundle beside another's, or
under a load that replays another's, whatever reaches the module is one bundle in full. -/

namespace RisePir.Web.CacheRuns

open RisePir.Lib.Splice
open RisePir.Web.HintCache

variable {body : Nat → List UInt8} {served : List Nat} {store : HintStore}

/-- Every entry of the cache is of the bundle under one `ETag`. -/
structure HoldsOnly (body : Nat → List UInt8) (store : HintStore) (e : Nat) : Prop where
  record : ∀ m, store.record = some m → m.etag = some e
  chunks : ∀ i bytes, store.chunk i = some bytes →
    bytes = slice (body e) (i * CHUNK_SIZE) CHUNK_SIZE ∨ bytes = (body e).drop (i * CHUNK_SIZE)

/-- A record that some load has written. -/
def Genuine (body : Nat → List UInt8) (served : List Nat) (m : Meta) : Prop :=
  ∃ e ∈ served, m.etag = some e ∧ m.totalBytes = (body e).length ∧
    (m.complete = false → CHUNK_SIZE ≤ m.bytesWritten ∧ m.bytesWritten ≤ m.totalBytes)

/-- The cache holds entries of at most one bundle. -/
structure StoreOk (body : Nat → List UInt8) (served : List Nat) (store : HintStore) : Prop where
  only : ∃ e, HoldsOnly body store e
  genuine : ∀ m, store.record = some m → Genuine body served m

/-- The buffer holds what its `ETag` names, up to `off`. -/
structure Holding (body : Nat → List UInt8) (served : List Nat) (d : Download) (e : Nat) : Prop where
  served : e ∈ served
  etag : d.etag = some e
  total : d.total = (body e).length
  filled : ∃ dest, d.dest = some dest ∧ Filled dest (body e) d.off

/-- A load that replays records of a bundle, with the bytes it has so far. -/
def Replaying (body : Nat → List UInt8) (served : List Nat) (store : HintStore) (m : Meta)
    (dest : List UInt8) (off : Nat) (placed : Nat → Prop) : Prop :=
  Genuine body served m ∧ ∃ e, m.etag = some e ∧ HoldsOnly body store e ∧ Filled dest (body e) off ∧
    placed (body e).length

def AfterOk (body : Nat → List UInt8) (served : List Nat) : After → Prop
  | .reply d etag _ _ bytes => d.dest = none ∧ d.off = 0 ∧ etag ∈ served ∧ bytes = body etag
  | _ => True

/-- What holds of a load wherever it waits. -/
def PhaseOk (body : Nat → List UInt8) (served : List Nat) (store : HintStore) : Phase → Prop
  | .replaying _ m i off dest => Replaying body served store m dest off
      fun length => off = i * CHUNK_SIZE ∨ off = length
  | .replayPrefix m i dest => Replaying body served store m dest (i * CHUNK_SIZE)
      fun _ => m.complete = false
  | .evicting next => AfterOk body served next
  | .clearing next => AfterOk body served next
  | .requesting d => (d.dest = none ∧ d.off = 0) ∨ (0 < d.off ∧ ∃ e, Holding body served d e)
  | .wiping d rest => ∃ e, Holding body served d e ∧ rest = (body e).drop d.off
  | .reading d rest => ∃ e, Holding body served d e ∧ rest = (body e).drop d.off
  | .chunking d rest => (∃ e, Holding body served d e ∧ rest = (body e).drop d.off) ∧
      (d.nextChunk + 1) * CHUNK_SIZE ≤ d.off
  | .noting d rest => (∃ e, Holding body served d e ∧ rest = (body e).drop d.off) ∧
      0 < d.nextChunk ∧ d.nextChunk * CHUNK_SIZE ≤ d.off
  | .finalChunk d => (∃ e, Holding body served d e) ∧ d.off = d.total
  | .finalNote d => (∃ e, Holding body served d e) ∧ d.off = d.total
  | .resolving bytes => ∃ e ∈ served, bytes = body e
  | .handed bytes => ∃ e ∈ served, bytes = body e
  | _ => True

theorem chunk_pos : 0 < CHUNK_SIZE := by decide

theorem holdsOnly_empty (body : Nat → List UInt8) (e : Nat) : HoldsOnly body .empty e :=
  ⟨fun m h => (by cases h), fun i bytes h => (by cases h)⟩

theorem HoldsOnly.putChunk {e index : Nat} {bytes : List UInt8} (h : HoldsOnly body store e)
    (own : bytes = slice (body e) (index * CHUNK_SIZE) CHUNK_SIZE ∨
      bytes = (body e).drop (index * CHUNK_SIZE)) : HoldsOnly body (store.putChunk index bytes) e := by
  refine ⟨h.record, fun i content hget => ?_⟩
  rw [HintStore.putChunk] at hget
  dsimp only at hget
  by_cases here : i = index
  · subst here
    rw [Function.update_self] at hget
    cases hget
    exact own
  · rw [Function.update_of_ne here] at hget
    exact h.chunks i content hget

theorem HoldsOnly.putMeta {e : Nat} {m : Meta} (h : HoldsOnly body store e) (own : m.etag = some e) :
    HoldsOnly body (store.putMeta m) e := by
  refine ⟨fun m' hget => ?_, h.chunks⟩
  cases hget
  exact own

namespace Holding

variable {d : Download} {e : Nat}

theorem buffer (h : Holding body served d e) : Filled d.buffer (body e) d.off := by
  obtain ⟨dest, hdest, filled⟩ := h.filled
  rw [Download.buffer, hdest]
  exact filled

theorem receive (h : Holding body served d e) {value : List UInt8} (next : value <+: (body e).drop d.off) :
    Holding body served (d.receive value) e := by
  obtain ⟨dest, hdest, filled⟩ := h.filled
  exact ⟨h.served, h.etag, h.total, _, by rw [Download.receive, hdest]; rfl, filled.piece next⟩

theorem whole (h : Holding body served d e) (all : d.off = d.total) : d.buffer = body e :=
  h.buffer.full (all.trans h.total)

end Holding

section Phases

variable {cached : Bool} {d : Download} {e : Nat}

theorem begin_ok {etag : Nat} (mode : Option Bool) (declared : Bool) {bytes : List UInt8}
    (known : etag ∈ served) (held : (d.dest = none ∧ d.off = 0 ∧ bytes = body etag) ∨
      (Holding body served d etag ∧ bytes = (body etag).drop d.off)) :
    PhaseOk body served store (begin cached d etag mode declared bytes) := by
  rw [begin]
  dsimp only
  rcases held with ⟨hnone, hoff, rfl⟩ | ⟨holding, rfl⟩
  · rw [hnone]
    dsimp only
    by_cases sized : (declared && 0 < (body etag).length) = true
    · have start : Holding body served { d with
          etag := some etag
          mode := mode.orElse fun _ => d.mode
          total := (body etag).length
          dest := some (List.replicate (body etag).length 0) } etag := by
        refine ⟨known, rfl, rfl, _, rfl, ?_⟩
        dsimp only
        rw [hoff]
        exact Filled.start 0 (body etag)
      rw [if_pos sized]
      cases cached with
      | true => exact ⟨etag, start, by rw [hoff]; rfl⟩
      | false => exact ⟨etag, start, by rw [hoff]; rfl⟩
    · rw [if_neg sized]
      exact ⟨etag, known, rfl⟩
  · obtain ⟨dest, hdest, filled⟩ := holding.filled
    rw [hdest]
    exact ⟨etag, ⟨known, rfl, holding.total, dest, rfl, filled⟩, rfl⟩

theorem resume_ok {next : After} (h : AfterOk body served next) :
    PhaseOk body served store (resume cached next) := by
  cases next with
  | lookPartial => trivial
  | download => exact .inl ⟨rfl, rfl⟩
  | reply d etag mode declared bytes =>
      obtain ⟨none, start, known, hbytes⟩ := h
      exact begin_ok mode declared known (.inl ⟨none, start, hbytes⟩)

theorem evicted_ok {next : After} (m : Option Meta) (h : AfterOk body served next) :
    PhaseOk body served store (evicted cached next m) := by
  cases m with
  | none => exact resume_ok h
  | some m => exact h

theorem answered_ok {current : Nat} (mode : Option Bool) (declared : Bool) (known : current ∈ served)
    (h : PhaseOk body served store (.requesting d)) :
    PhaseOk body served store (answered cached d mode declared (setupReply body current d.off d.etag)) := by
  rcases h with ⟨hnone, hoff⟩ | ⟨ahead, e, holding⟩
  · rw [setupReply, if_neg (by omega), answered, if_neg (by omega)]
    exact begin_ok mode declared known (.inl ⟨hnone, hoff, rfl⟩)
  · rw [setupReply, holding.etag]
    by_cases same : e = current
    · subst same
      rw [if_pos ⟨ahead, rfl⟩]
      by_cases past : (body e).length ≤ d.off
      · rw [if_pos past]
        trivial
      · rw [if_neg past]
        exact begin_ok mode declared known (.inr ⟨holding, rfl⟩)
    · rw [if_neg (by simp [same]), answered, if_pos ahead]
      cases cached with
      | true => exact ⟨rfl, rfl, known, rfl⟩
      | false =>
          have restarted : d.restarted.dest = none ∧ d.restarted.off = 0 ∧ body current = body current :=
            ⟨rfl, rfl, rfl⟩
          exact begin_ok mode declared known (.inl restarted)

theorem caught_ok (stalled : Bool) (h : d.off = 0 ∨ ∃ e, Holding body served d e) :
    PhaseOk body served store (caught d stalled) := by
  rw [caught]
  by_cases again : (stalled && 0 < d.off && d.attempt < MAX_SETUP_RESUME_ATTEMPTS) = true
  · rw [if_pos again]
    simp only [Bool.and_eq_true, decide_eq_true_eq] at again
    rcases h with none | ⟨e, holding⟩
    · omega
    · exact .inr ⟨again.1.2, e, holding.served, holding.etag, holding.total, holding.filled⟩
  · rw [if_neg again]
    trivial

theorem flush_ok {rest : List UInt8} (h : ∃ e, Holding body served d e ∧ rest = (body e).drop d.off) :
    PhaseOk body served store (flush cached d rest) := by
  rw [flush]
  by_cases whole : (cached && (d.nextChunk + 1) * CHUNK_SIZE ≤ d.off) = true
  · rw [if_pos whole]
    simp only [Bool.and_eq_true, decide_eq_true_eq] at whole
    exact ⟨h, whole.2⟩
  · rw [if_neg whole]
    exact h

theorem finish_ok (h : Holding body served d e) : PhaseOk body served store (finish cached d) := by
  rw [finish]
  by_cases short : d.off ≠ d.total
  · rw [if_pos short]
    trivial
  · have all : d.off = d.total := not_not.mp short
    rw [if_neg short]
    cases cached with
    | false => exact ⟨e, h.served, h.whole all⟩
    | true =>
        by_cases left : d.nextChunk * CHUNK_SIZE < d.total
        · rw [if_pos rfl, if_pos left]
          exact ⟨⟨e, h⟩, all⟩
        · rw [if_pos rfl, if_neg left]
          exact ⟨⟨e, h⟩, all⟩

theorem replayFrom_ok (mode : Option Bool) {m : Meta} {i off : Nat} {dest : List UInt8}
    (h : Replaying body served store m dest off fun length => off = i * CHUNK_SIZE ∨ off = length) :
    PhaseOk body served store (replayFrom mode m i off dest) := by
  rw [replayFrom]
  by_cases more : i < (m.totalBytes + CHUNK_SIZE - 1) / CHUNK_SIZE
  · rw [if_pos more]
    exact h
  · rw [if_neg more]
    by_cases all : off = m.totalBytes
    · rw [if_pos all]
      obtain ⟨⟨e, known, hetag, htotal, -⟩, e', hetag', -, filled, -⟩ := h
      cases hetag.symm.trans hetag'
      exact ⟨e, known, filled.full (all.trans htotal)⟩
    · rw [if_neg all]
      trivial

theorem prefixFrom_ok {m : Meta} {i : Nat} {dest : List UInt8}
    (h : Replaying body served store m dest (i * CHUNK_SIZE) fun _ => m.complete = false) :
    PhaseOk body served store (prefixFrom m i dest) := by
  rw [prefixFrom]
  by_cases more : i < m.bytesWritten / CHUNK_SIZE
  · rw [if_pos more]
    exact h
  · rw [if_neg more]
    obtain ⟨⟨e, known, hetag, htotal, written⟩, e', hetag', -, filled, incomplete⟩ := h
    cases hetag.symm.trans hetag'
    have : 0 < m.bytesWritten / CHUNK_SIZE := Nat.div_pos (written incomplete).1 chunk_pos
    refine .inr ⟨Nat.mul_pos (by omega) chunk_pos, e, known, hetag, htotal, dest, rfl, filled⟩

theorem afterMeta_ok (mode : Option Bool) {m : Option Meta} {e : Nat} (only : HoldsOnly body store e)
    (read : ∀ m', m = some m' → store.record = some m' ∧ Genuine body served m') :
    PhaseOk body served store (afterMeta mode m) := by
  cases m with
  | none => trivial
  | some m =>
      obtain ⟨stored, genuine⟩ := read m rfl
      rw [afterMeta]
      by_cases hit : (m.complete && 0 < m.totalBytes) = true
      · rw [if_pos hit]
        by_cases differs : (mode.isSome && mode ≠ m.mode) = true
        · rw [if_pos differs]
          trivial
        · rw [if_neg differs]
          by_cases insane : (!isSaneByteLength m.totalBytes) = true
          · rw [if_pos insane]
            trivial
          · rw [if_neg insane]
            obtain ⟨e', known, hetag, htotal, written⟩ := genuine
            cases (only.record m stored).symm.trans hetag
            refine replayFrom_ok mode ⟨⟨e, known, hetag, htotal, written⟩, e, hetag, only, ?_,
              .inl (Nat.zero_mul _).symm⟩
            rw [htotal]
            exact Filled.start 0 (body e)
      · rw [if_neg hit]
        trivial

theorem afterPartial_ok {m : Option Meta} {e : Nat} (only : HoldsOnly body store e)
    (read : ∀ m', m = some m' → store.record = some m' ∧ Genuine body served m') :
    PhaseOk body served store (afterPartial m) := by
  cases m with
  | none => exact .inl ⟨rfl, rfl⟩
  | some m =>
      obtain ⟨stored, genuine⟩ := read m rfl
      rw [afterPartial]
      by_cases part : (!m.complete && m.etag.isSome && 0 < m.bytesWritten) = true
      · rw [if_pos part]
        simp only [Bool.and_eq_true, Bool.not_eq_true'] at part
        by_cases sane : (isSaneByteLength m.totalBytes && m.bytesWritten ≤ m.totalBytes) = true
        · rw [if_pos sane]
          obtain ⟨e', known, hetag, htotal, written⟩ := genuine
          cases (only.record m stored).symm.trans hetag
          refine prefixFrom_ok ⟨⟨e, known, hetag, htotal, written⟩, e, hetag, only, ?_, part.1.1⟩
          rw [htotal, Nat.zero_mul]
          exact Filled.start 0 (body e)
        · rw [if_neg sane]
          trivial
      · rw [if_neg part]
        exact .inl ⟨rfl, rfl⟩

end Phases

/-- The download whose bytes or record the pending transaction writes. -/
def writing : Phase → Option Download
  | .chunking d _ => some d
  | .noting d _ => some d
  | .finalChunk d => some d
  | .finalNote d => some d
  | _ => none

/-- The record that a load is replaying. -/
def replays : Phase → Option Meta
  | .replaying _ m _ _ _ => some m
  | .replayPrefix m _ _ => some m
  | _ => none

/-- A pending write is of the bundle that the download holds. -/
theorem writing_holds {phase : Phase} (h : PhaseOk body served store phase) {d : Download}
    (writes : writing phase = some d) : ∃ e, Holding body served d e := by
  cases phase with
  | chunking d' rest =>
      cases writes
      obtain ⟨⟨e, holding, -⟩, -⟩ := h
      exact ⟨e, holding⟩
  | noting d' rest =>
      cases writes
      obtain ⟨⟨e, holding, -⟩, -⟩ := h
      exact ⟨e, holding⟩
  | finalChunk d' =>
      cases writes
      exact h.1
  | finalNote d' =>
      cases writes
      exact h.1
  | _ => cases writes

/-- What one event keeps: the cache's invariant, the load's own, and every bundle that the cache
was limited to, unless a write of another goes through. -/
structure Kept (body : Nat → List UInt8) (served : List Nat) (store : HintStore) (phase : Phase)
    (event : Event) (out : HintStore × Phase) : Prop where
  cacheOk : StoreOk body served out.1
  loadOk : PhaseOk body served out.1 out.2
  only : ∀ e, HoldsOnly body store e →
    (event = .committed → ∀ d, writing phase = some d → d.etag = some e) → HoldsOnly body out.1 e

section Events

variable {phase phase' : Phase} {event : Event}

theorem kept_same (ok : StoreOk body served store) (h : PhaseOk body served store phase') :
    Kept body served store phase event (store, phase') :=
  ⟨ok, h, fun _ only _ => only⟩

theorem kept_empty (h : PhaseOk body served .empty phase') :
    Kept body served store phase event (.empty, phase') :=
  ⟨⟨⟨0, holdsOnly_empty body 0⟩, fun m hget => (by cases hget)⟩, h, fun e _ _ => holdsOnly_empty body e⟩

theorem kept_chunk {d : Download} {e index : Nat} {bytes : List UInt8} (ok : StoreOk body served store)
    (writes : writing phase = some d) (hetag : d.etag = some e) (only : HoldsOnly body store e)
    (own : bytes = slice (body e) (index * CHUNK_SIZE) CHUNK_SIZE ∨
      bytes = (body e).drop (index * CHUNK_SIZE))
    (h : PhaseOk body served (store.putChunk index bytes) phase') :
    Kept body served store phase .committed (store.putChunk index bytes, phase') := by
  refine ⟨⟨⟨e, only.putChunk own⟩, ok.genuine⟩, h, fun e' only' same => ?_⟩
  cases hetag.symm.trans (same rfl d writes)
  exact only'.putChunk own

theorem kept_meta {d : Download} {e : Nat} {m : Meta} (writes : writing phase = some d)
    (hetag : d.etag = some e) (only : HoldsOnly body store e) (own : m.etag = some e)
    (genuine : Genuine body served m) (h : PhaseOk body served (store.putMeta m) phase') :
    Kept body served store phase .committed (store.putMeta m, phase') := by
  refine ⟨⟨⟨e, only.putMeta own⟩, fun m' hget => ?_⟩, h, fun e' only' same => ?_⟩
  · cases hget
    exact genuine
  · cases hetag.symm.trans (same rfl d writes)
    exact only'.putMeta own

end Events

section Reads

variable {cached : Bool}

/-- A replayed chunk is the next part of the body, unless the load gives the cache up. -/
theorem replayChunk_ok {mode : Option Bool} {m : Meta} {i off : Nat} {dest : List UInt8}
    (h : PhaseOk body served store (.replaying mode m i off dest)) :
    PhaseOk body served store (replayChunk mode m i off dest (store.chunk i)) := by
  cases hchunk : store.chunk i with
  | none => trivial
  | some bytes =>
      rw [replayChunk]
      by_cases bad : bytes.length = 0 ∨ m.totalBytes < off + bytes.length
      · rw [if_pos bad]
        trivial
      · rw [if_neg bad]
        obtain ⟨genuine, e, hetag, only, filled, placed⟩ := h
        have htotal : m.totalBytes = (body e).length := by
          obtain ⟨e', -, hetag', htotal, -⟩ := genuine
          cases hetag.symm.trans hetag'
          exact htotal
        have inside := filled.inside
        have here : off = i * CHUNK_SIZE := by
          rcases placed with here | all
          · exact here
          · omega
        have own := only.chunks i bytes hchunk
        rw [← here] at own
        have next : bytes <+: (body e).drop off := by
          rcases own with rfl | rfl
          · exact List.take_prefix _ _
          · exact List.prefix_refl _
        have length : bytes.length = CHUNK_SIZE ∨ bytes.length = (body e).length - off := by
          rcases own with rfl | rfl
          · rw [slice, List.length_take, List.length_drop]
            omega
          · rw [List.length_drop]
            omega
        refine replayFrom_ok mode ⟨genuine, e, hetag, only, filled.piece next, ?_⟩
        rw [Nat.add_mul, Nat.one_mul, ← here]
        omega

theorem prefixChunk_ok {m : Meta} {i : Nat} {dest : List UInt8}
    (h : PhaseOk body served store (.replayPrefix m i dest)) :
    PhaseOk body served store (prefixChunk m i dest (store.chunk i)) := by
  cases hchunk : store.chunk i with
  | none => trivial
  | some bytes =>
      rw [prefixChunk]
      by_cases bad : bytes.length ≠ CHUNK_SIZE
      · rw [if_pos bad]
        trivial
      · rw [if_neg bad]
        obtain ⟨genuine, e, hetag, only, filled, incomplete⟩ := h
        have next : bytes <+: (body e).drop (i * CHUNK_SIZE) := by
          rcases only.chunks i bytes hchunk with rfl | rfl
          · exact List.take_prefix _ _
          · exact List.prefix_refl _
        refine prefixFrom_ok ⟨genuine, e, hetag, only, ?_, incomplete⟩
        have after := filled.piece next
        rw [not_not.mp bad] at after
        rwa [Nat.add_mul, Nat.one_mul]

theorem drop_received (l : List UInt8) (off n : Nat) :
    (l.drop off).drop n = l.drop (off + ((l.drop off).take n).length) := by
  rw [List.drop_drop, List.length_take]
  by_cases short : n ≤ (l.drop off).length
  · rw [Nat.min_eq_left short]
  · rw [Nat.min_eq_right (by omega)]
    rw [List.length_drop] at short ⊢
    rw [List.drop_of_length_le (by omega), List.drop_of_length_le (by omega)]

theorem pieced_ok {d : Download} {rest : List UInt8} (n : Nat)
    (h : PhaseOk body served store (.reading d rest)) :
    PhaseOk body served store (pieced cached d (rest.take n) (rest.drop n)) := by
  rw [pieced]
  by_cases long : d.total < d.off + (rest.take n).length
  · rw [if_pos long]
    trivial
  · rw [if_neg long]
    obtain ⟨e, holding, rfl⟩ := h
    refine flush_ok ⟨e, holding.receive (List.take_prefix _ _), ?_⟩
    exact drop_received (body e) d.off n

theorem buffered_ok {d : Download} {rest : List UInt8} (h : PhaseOk body served store (.reading d rest)) :
    PhaseOk body served store (buffered cached d rest) := by
  rw [buffered]
  by_cases long : d.total < d.off + rest.length
  · rw [if_pos long]
    trivial
  · rw [if_neg long]
    obtain ⟨e, holding, rfl⟩ := h
    exact finish_ok (holding.receive (List.prefix_refl _))

end Reads

section Waits

variable {current : Nat} {cached : Bool} {d : Download} {rest : List UInt8}

/-- Whatever ends a wait, if a write that goes through finds the cache limited to its bundle, keeps
what `Kept` says. -/
def Keeps (body : Nat → List UInt8) (served : List Nat) (store : HintStore) (current : Nat)
    (cached : Bool) (phase : Phase) : Prop :=
  ∀ event, (event = .committed → ∀ d e, writing phase = some d → d.etag = some e →
    HoldsOnly body store e) →
      Kept body served store phase event ((⟨cached, phase⟩ : Tab).step body current store event)

theorem probing_keeps (ok : StoreOk body served store) :
    Keeps body served store current cached .probing := by
  intro event clean
  cases event with
  | headed mode =>
      cases cached with
      | true => exact kept_same ok trivial
      | false => exact kept_same ok (.inl ⟨rfl, rfl⟩)
  | refused stalled => exact kept_same ok trivial
  | closed => exact kept_same ok trivial
  | _ => exact kept_same ok trivial

theorem wantMeta_keeps (ok : StoreOk body served store) (mode : Option Bool) :
    Keeps body served store current cached (.wantMeta mode) := by
  obtain ⟨e, only⟩ := ok.only
  intro event clean
  cases event with
  | committed => exact kept_same ok (afterMeta_ok mode only fun m hm => ⟨hm, ok.genuine m hm⟩)
  | aborted => exact kept_same ok (afterMeta_ok mode only fun m hm => (by cases hm))
  | closed => exact kept_same ok trivial
  | _ => exact kept_same ok trivial

theorem wantPartial_keeps (ok : StoreOk body served store) :
    Keeps body served store current cached .wantPartial := by
  obtain ⟨e, only⟩ := ok.only
  intro event clean
  cases event with
  | committed => exact kept_same ok (afterPartial_ok only fun m hm => ⟨hm, ok.genuine m hm⟩)
  | aborted => exact kept_same ok (afterPartial_ok only fun m hm => (by cases hm))
  | closed => exact kept_same ok trivial
  | _ => exact kept_same ok trivial

theorem evicting_keeps (ok : StoreOk body served store) {next : After}
    (h : PhaseOk body served store (.evicting next)) :
    Keeps body served store current cached (.evicting next) := by
  intro event clean
  cases event with
  | committed => exact kept_same ok (evicted_ok store.record h)
  | aborted => exact kept_same ok (resume_ok h)
  | closed => exact kept_same ok trivial
  | _ => exact kept_same ok h

theorem clearing_keeps (ok : StoreOk body served store) {next : After}
    (h : PhaseOk body served store (.clearing next)) :
    Keeps body served store current cached (.clearing next) := by
  intro event clean
  cases event with
  | committed => exact kept_empty (resume_ok h)
  | aborted => exact kept_same ok (resume_ok h)
  | closed => exact kept_same ok trivial
  | _ => exact kept_same ok h

theorem requesting_keeps (known : current ∈ served) (ok : StoreOk body served store)
    (h : PhaseOk body served store (.requesting d)) :
    Keeps body served store current cached (.requesting d) := by
  intro event clean
  cases event with
  | replied mode declared => exact kept_same ok (answered_ok mode declared known h)
  | refused stalled =>
      refine kept_same ok (caught_ok stalled ?_)
      exact h.imp And.right And.right
  | closed => exact kept_same ok trivial
  | _ => exact kept_same ok h

theorem resolving_keeps (ok : StoreOk body served store) {bytes : List UInt8}
    (h : PhaseOk body served store (.resolving bytes)) :
    Keeps body served store current cached (.resolving bytes) := by
  intro event clean
  cases event with
  | committed => exact kept_same ok h
  | aborted => exact kept_same ok trivial
  | closed => exact kept_same ok trivial
  | _ => exact kept_same ok h

theorem wiping_keeps (ok : StoreOk body served store)
    (h : PhaseOk body served store (.wiping d rest)) :
    Keeps body served store current cached (.wiping d rest) := by
  intro event clean
  cases event with
  | committed => exact kept_empty h
  | aborted => exact kept_same ok h
  | closed => exact kept_same ok trivial
  | _ => exact kept_same ok h

theorem replaying_keeps (ok : StoreOk body served store) {mode : Option Bool} {m : Meta} {i off : Nat}
    {dest : List UInt8} (h : PhaseOk body served store (.replaying mode m i off dest)) :
    Keeps body served store current cached (.replaying mode m i off dest) := by
  intro event clean
  cases event with
  | committed => exact kept_same ok (replayChunk_ok h)
  | aborted => exact kept_same ok trivial
  | closed => exact kept_same ok trivial
  | _ => exact kept_same ok h

theorem replayPrefix_keeps (ok : StoreOk body served store) {m : Meta} {i : Nat} {dest : List UInt8}
    (h : PhaseOk body served store (.replayPrefix m i dest)) :
    Keeps body served store current cached (.replayPrefix m i dest) := by
  intro event clean
  cases event with
  | committed => exact kept_same ok (prefixChunk_ok h)
  | aborted => exact kept_same ok trivial
  | closed => exact kept_same ok trivial
  | _ => exact kept_same ok h

theorem reading_keeps (ok : StoreOk body served store)
    (h : PhaseOk body served store (.reading d rest)) :
    Keeps body served store current cached (.reading d rest) := by
  intro event clean
  cases event with
  | piece n => exact kept_same ok (pieced_ok n h)
  | buffered => exact kept_same ok (buffered_ok h)
  | ended =>
      obtain ⟨e, holding, -⟩ := h
      exact kept_same ok (finish_ok holding)
  | refused stalled =>
      obtain ⟨e, holding, -⟩ := h
      exact kept_same ok (caught_ok stalled (.inr ⟨e, holding⟩))
  | closed => exact kept_same ok trivial
  | _ => exact kept_same ok h

theorem chunking_keeps (ok : StoreOk body served store)
    (h : PhaseOk body served store (.chunking d rest)) :
    Keeps body served store current cached (.chunking d rest) := by
  intro event clean
  obtain ⟨⟨e, holding, hrest⟩, whole⟩ := h
  cases event with
  | committed =>
      refine kept_chunk (d := d) ok rfl holding.etag (clean rfl d e rfl holding.etag) (.inl ?_) ?_
      · refine holding.buffer.slice_eq ?_
        rwa [Nat.add_mul, Nat.one_mul] at whole
      · exact ⟨⟨e, ⟨holding.served, holding.etag, holding.total, holding.filled⟩, hrest⟩,
          Nat.succ_pos _, whole⟩
  | aborted => exact kept_same ok ⟨e, holding, hrest⟩
  | closed => exact kept_same ok trivial
  | _ => exact kept_same ok ⟨⟨e, holding, hrest⟩, whole⟩

theorem noting_keeps (ok : StoreOk body served store)
    (h : PhaseOk body served store (.noting d rest)) :
    Keeps body served store current cached (.noting d rest) := by
  intro event clean
  obtain ⟨⟨e, holding, hrest⟩, some_chunk, flushed⟩ := h
  cases event with
  | committed =>
      refine kept_meta (d := d) rfl holding.etag (clean rfl d e rfl holding.etag) holding.etag ?_
        (flush_ok ⟨e, holding, hrest⟩)
      refine ⟨e, holding.served, holding.etag, holding.total, fun _ => ⟨?_, ?_⟩⟩
      · exact Nat.le_mul_of_pos_left CHUNK_SIZE some_chunk
      · exact flushed.trans (holding.buffer.inside.trans holding.total.ge)
  | aborted => exact kept_same ok (flush_ok ⟨e, holding, hrest⟩)
  | closed => exact kept_same ok trivial
  | _ => exact kept_same ok ⟨⟨e, holding, hrest⟩, some_chunk, flushed⟩

theorem finalChunk_keeps (ok : StoreOk body served store)
    (h : PhaseOk body served store (.finalChunk d)) :
    Keeps body served store current cached (.finalChunk d) := by
  intro event clean
  obtain ⟨⟨e, holding⟩, all⟩ := h
  have next : Holding body served { d with nextChunk := d.nextChunk + 1 } e :=
    ⟨holding.served, holding.etag, holding.total, holding.filled⟩
  cases event with
  | committed =>
      refine kept_chunk (d := d) ok rfl holding.etag (clean rfl d e rfl holding.etag) (.inr ?_)
        ⟨⟨e, next⟩, all⟩
      rw [holding.whole all]
  | aborted => exact kept_same ok ⟨⟨e, next⟩, all⟩
  | closed => exact kept_same ok trivial
  | _ => exact kept_same ok ⟨⟨e, holding⟩, all⟩

theorem finalNote_keeps (ok : StoreOk body served store)
    (h : PhaseOk body served store (.finalNote d)) :
    Keeps body served store current cached (.finalNote d) := by
  intro event clean
  obtain ⟨⟨e, holding⟩, all⟩ := h
  cases event with
  | committed =>
      refine kept_meta (d := d) rfl holding.etag (clean rfl d e rfl holding.etag) holding.etag ?_
        ⟨e, holding.served, holding.whole all⟩
      exact ⟨e, holding.served, holding.etag, holding.total, fun incomplete => (by cases incomplete)⟩
  | aborted => exact kept_same ok ⟨e, holding.served, holding.whole all⟩
  | closed => exact kept_same ok trivial
  | _ => exact kept_same ok ⟨⟨e, holding⟩, all⟩

end Waits

/-- One event of a load, before any cache entries and any server. -/
theorem step_kept {current : Nat} (known : current ∈ served) (ok : StoreOk body served store) (tab : Tab)
    (h : PhaseOk body served store tab.phase) {event : Event}
    (clean : event = .committed → ∀ d e, writing tab.phase = some d → d.etag = some e →
      HoldsOnly body store e) :
    Kept body served store tab.phase event (tab.step body current store event) := by
  obtain ⟨cached, phase⟩ := tab
  dsimp only at h clean
  cases phase with
  | failed => exact kept_same ok trivial
  | handed bytes => exact kept_same ok h
  | probing => exact probing_keeps ok event clean
  | wantMeta mode => exact wantMeta_keeps ok mode event clean
  | wantPartial => exact wantPartial_keeps ok event clean
  | evicting next => exact evicting_keeps ok h event clean
  | clearing next => exact clearing_keeps ok h event clean
  | requesting d => exact requesting_keeps known ok h event clean
  | resolving bytes => exact resolving_keeps ok h event clean
  | wiping d rest => exact wiping_keeps ok h event clean
  | replaying mode m i off dest => exact replaying_keeps ok h event clean
  | replayPrefix m i dest => exact replayPrefix_keeps ok h event clean
  | reading d rest => exact reading_keeps ok h event clean
  | chunking d rest => exact chunking_keeps ok h event clean
  | noting d rest => exact noting_keeps ok h event clean
  | finalChunk d => exact finalChunk_keeps ok h event clean
  | finalNote d => exact finalNote_keeps ok h event clean

theorem Genuine.mono {served' : List Nat} (sub : ∀ e ∈ served, e ∈ served') {m : Meta}
    (h : Genuine body served m) : Genuine body served' m := by
  obtain ⟨e, known, rest⟩ := h
  exact ⟨e, sub e known, rest⟩

theorem Holding.mono {served' : List Nat} (sub : ∀ e ∈ served, e ∈ served') {d : Download} {e : Nat}
    (h : Holding body served d e) : Holding body served' d e :=
  ⟨sub e h.served, h.etag, h.total, h.filled⟩

/-- A load does not mind a server that goes on, nor a cache that stays with what it replays. -/
theorem PhaseOk.mono {served' : List Nat} {store' : HintStore} (sub : ∀ e ∈ served, e ∈ served')
    {phase : Phase} (h : PhaseOk body served store phase)
    (only : ∀ m e, replays phase = some m → m.etag = some e → HoldsOnly body store e →
      HoldsOnly body store' e) : PhaseOk body served' store' phase := by
  have after : ∀ {next : After}, AfterOk body served next → AfterOk body served' next := by
    intro next hnext
    cases next with
    | reply d etag mode declared bytes =>
        obtain ⟨none, start, known, hbytes⟩ := hnext
        exact ⟨none, start, sub etag known, hbytes⟩
    | _ => trivial
  have part : ∀ {d rest}, (∃ e, Holding body served d e ∧ rest = (body e).drop d.off) →
      ∃ e, Holding body served' d e ∧ rest = (body e).drop d.off := by
    rintro d rest ⟨e, holding, hrest⟩
    exact ⟨e, holding.mono sub, hrest⟩
  have whole : ∀ {bytes}, (∃ e ∈ served, bytes = body e) → ∃ e ∈ served', bytes = body e := by
    rintro bytes ⟨e, known, hbytes⟩
    exact ⟨e, sub e known, hbytes⟩
  cases phase with
  | replaying mode m i off dest =>
      obtain ⟨genuine, e, hetag, held, filled, placed⟩ := h
      exact ⟨genuine.mono sub, e, hetag, only m e rfl hetag held, filled, placed⟩
  | replayPrefix m i dest =>
      obtain ⟨genuine, e, hetag, held, filled, placed⟩ := h
      exact ⟨genuine.mono sub, e, hetag, only m e rfl hetag held, filled, placed⟩
  | evicting next => exact after h
  | clearing next => exact after h
  | requesting d =>
      rcases h with start | ⟨ahead, e, holding⟩
      · exact .inl start
      · exact .inr ⟨ahead, e, holding.mono sub⟩
  | wiping d rest => exact part h
  | reading d rest => exact part h
  | chunking d rest => exact ⟨part h.1, h.2⟩
  | noting d rest => exact ⟨part h.1, h.2⟩
  | finalChunk d => exact ⟨h.1.imp fun e holding => holding.mono sub, h.2⟩
  | finalNote d => exact ⟨h.1.imp fun e holding => holding.mono sub, h.2⟩
  | resolving bytes => exact whole h
  | handed bytes => exact whole h
  | _ => trivial

/-- A write that goes through finds entries of its own bundle only, and no load in the middle of
replaying another's. -/
def Clean (body : Nat → List UInt8) (w : World) : Step → Prop
  | .regenerate _ => True
  | .tab t event => event = .committed → ∀ d e, writing (w.tabs t).phase = some d → d.etag = some e →
      HoldsOnly body w.store e ∧ ∀ t' m, replays (w.tabs t').phase = some m → m.etag = some e

def CleanRun (body : Nat → List UInt8) : World → List Step → Prop
  | _, [] => True
  | w, step :: rest => Clean body w step ∧ CleanRun body (w.step body step) rest

/-- Between any two steps. -/
structure Sound (body : Nat → List UInt8) (w : World) : Prop where
  current : w.current ∈ w.served
  cacheOk : StoreOk body w.served w.store
  loads : ∀ t, PhaseOk body w.served w.store (w.tabs t).phase

theorem sound_start (body : Nat → List UInt8) (current : Nat) (cached : Nat → Bool) :
    Sound body (.start current cached) :=
  ⟨List.mem_singleton_self current, ⟨⟨0, holdsOnly_empty body 0⟩, fun m h => (by cases h)⟩,
    fun _ => trivial⟩

theorem sound_step {w : World} (h : Sound body w) {step : Step} (clean : Clean body w step) :
    Sound body (w.step body step) := by
  cases step with
  | regenerate block =>
      have sub : ∀ e ∈ w.served, e ∈ block :: w.served := fun e he => List.mem_cons_of_mem block he
      exact ⟨List.mem_cons_self, ⟨h.cacheOk.only, fun m hm => (h.cacheOk.genuine m hm).mono sub⟩,
        fun t => (h.loads t).mono sub fun _ _ _ _ only => only⟩
  | tab t event =>
      have kept := step_kept h.current h.cacheOk (w.tabs t) (h.loads t)
        fun committed d e writes hetag => (clean committed d e writes hetag).1
      refine ⟨h.current, kept.cacheOk, fun t' => ?_⟩
      rw [World.step]
      dsimp only
      by_cases same : t' = t
      · subst same
        rw [Function.update_self]
        exact kept.loadOk
      · rw [Function.update_of_ne same]
        refine (h.loads t').mono (fun e he => he) fun m e replaying hetag only => ?_
        refine kept.only e only fun committed d writes => ?_
        obtain ⟨e', holding⟩ := writing_holds (h.loads t) writes
        have own := (clean committed d e' writes holding.etag).2 t' m replaying
        rw [holding.etag, ← own, hetag]

theorem sound_run {w : World} (h : Sound body w) {steps : List Step} (clean : CleanRun body w steps) :
    Sound body (steps.foldl (World.step body) w) := by
  induction steps generalizing w with
  | nil => exact h
  | cons step rest ih => exact ih (sound_step h clean.1) clean.2

section Alone

variable {current : Nat} {cached : Bool}

/-- Events of one load while nothing else happens. -/
def solo (body : Nat → List UInt8) (current : Nat) (cached : Bool) (s : HintStore × Phase)
    (events : List Event) : HintStore × Phase :=
  events.foldl (fun s event => Tab.step body current s.1 ⟨cached, s.2⟩ event) s

theorem solo_cons (s : HintStore × Phase) (event : Event) (rest : List Event) :
    solo body current cached s (event :: rest) =
      solo body current cached (Tab.step body current s.1 ⟨cached, s.2⟩ event) rest := rfl

theorem foldl_solo {w : World} {t : Nat} {events : List Event} {store : HintStore} {phase : Phase}
    (alone : solo body w.current (w.tabs t).cached (w.store, (w.tabs t).phase) events = (store, phase)) :
    (events.map (Step.tab t)).foldl (World.step body) w =
      { w with store, tabs := Function.update w.tabs t ⟨(w.tabs t).cached, phase⟩ } := by
  induction events generalizing w with
  | nil =>
      cases alone
      simp
  | cons event rest ih =>
      rw [List.map_cons, List.foldl_cons, ih (w := w.step body (.tab t event))]
      · simp [World.step]
      · rw [solo_cons] at alone
        have same : ((w.step body (.tab t event)).tabs t) =
            ⟨(w.tabs t).cached, ((w.tabs t).step body w.current w.store event).2⟩ :=
          Function.update_self t _ _
        rw [same]
        exact alone

end Alone

/-- However loads interleave, stall, resume and fail, as long as every write that goes through is
clean, what a load hands to the module is in full one bundle that was served under one `ETag`. -/
theorem handed_one_bundle (body : Nat → List UInt8) (current : Nat) (cached : Nat → Bool)
    (steps : List Step) (clean : CleanRun body (.start current cached) steps) :
    let w := steps.foldl (World.step body) (.start current cached)
    ∀ t bytes, (w.tabs t).phase = .handed bytes → ∃ e ∈ w.served, bytes = body e := by
  intro w t bytes handed
  have load := (sound_run (sound_start body current cached) clean).loads t
  rw [show ((steps.foldl (World.step body) (.start current cached)).tabs t).phase = .handed bytes
    from handed] at load
  exact load

section Reused

private theorem clean_idle {w : World} {t : Nat} {event : Event}
    (idle : writing (w.tabs t).phase = none) : Clean body w (.tab t event) := by
  intro _ d e writes _
  rw [idle] at writes
  cases writes

private theorem cleanRun_append {w : World} {steps rest : List Step} (first : CleanRun body w steps)
    (second : CleanRun body (steps.foldl (World.step body) w) rest) : CleanRun body w (steps ++ rest) := by
  induction steps generalizing w with
  | nil => exact second
  | cons step more ih => exact ⟨first.1, ih first.2 second⟩

private def short (e : Nat) : List UInt8 := [1, 2, UInt8.ofNat e]

private def filling : List Event :=
  [.headed none, .committed, .committed, .replied none true, .committed, .piece 3, .ended]

private def reusing : List Event := [.headed none, .committed, .committed, .committed]

private def quiet : List Step :=
  filling.map (Step.tab 0) ++ ([.committed, .committed, .committed].map (Step.tab 0) ++
    (.regenerate 2 :: reusing.map (Step.tab 1)))

private def whole : Download := ⟨3, 3, some 1, none, some [1, 2, 1], 0, 0⟩

private theorem replays_alone {phase : Phase} (quietly : replays phase = none) (t : Nat) (m : Meta) :
    replays (Function.update (fun _ => (⟨true, .probing⟩ : Tab)) 0 ⟨true, phase⟩ t).phase ≠ some m := by
  by_cases here : t = 0
  · subst here
    rw [Function.update_self, quietly]
    simp
  · rw [Function.update_of_ne here]
    simp [replays]

private theorem filling_solo : solo short 1 true (.empty, .probing) filling =
    (.empty, .finalChunk whole) := by
  let ready : Download := ⟨0, 3, some 1, none, some [0, 0, 0], 0, 0⟩
  have begins : solo short 1 true (.empty, .probing)
      [.headed none, .committed, .committed, .replied none true, .committed] =
        (.empty, .reading ready [1, 2, 1]) := by rfl
  have receives : Tab.step short 1 .empty ⟨true, .reading ready [1, 2, 1]⟩ (.piece 3) =
      (.empty, .reading whole []) := by
    have received : ready.receive [1, 2, 1] = whole := by decide
    have piece : Tab.step short 1 .empty ⟨true, .reading ready [1, 2, 1]⟩ (.piece 3) =
        (.empty, pieced true ready [1, 2, 1] []) := rfl
    rw [piece, pieced, if_neg (by decide), received, flush, if_neg (by decide)]
  have ends : Tab.step short 1 .empty ⟨true, .reading whole []⟩ .ended = (.empty, .finalChunk whole) := by
    have closes : Tab.step short 1 .empty ⟨true, .reading whole []⟩ .ended =
        (.empty, finish true whole) := rfl
    rw [closes, finish, if_neg (by decide), if_pos rfl, if_pos (by decide)]
  have parts : filling = [.headed none, .committed, .committed, .replied none true, .committed] ++
      [.piece 3, .ended] := rfl
  have joins : ∀ s events more, solo short 1 true s (events ++ more) =
      solo short 1 true (solo short 1 true s events) more := fun _ _ _ => List.foldl_append
  rw [parts, joins, begins, solo_cons, receives, solo_cons, ends]
  exact List.foldl_nil

private theorem quiet_clean : CleanRun short (.start 1 fun _ => true) quiet := by
  let w : World := { World.start 1 (fun _ => true) with
    tabs := Function.update (fun _ => ⟨true, .probing⟩) 0 ⟨true, .finalChunk whole⟩ }
  have filled : (filling.map (Step.tab 0)).foldl (World.step short) (.start 1 fun _ => true) = w :=
    foldl_solo (w := .start 1 fun _ => true) filling_solo
  refine cleanRun_append ⟨clean_idle rfl, clean_idle rfl, clean_idle rfl, clean_idle rfl,
    clean_idle rfl, clean_idle rfl, clean_idle rfl, trivial⟩ ?_
  rw [filled]
  refine ⟨?_, ?_, clean_idle rfl, trivial, clean_idle rfl, clean_idle rfl, clean_idle rfl,
    clean_idle rfl, trivial⟩
  · intro _ d e _ _
    refine ⟨holdsOnly_empty short e, fun t m replaying => ?_⟩
    exact absurd replaying (replays_alone rfl t m)
  · intro _ d e writes hetag
    cases writes
    cases hetag
    refine ⟨(holdsOnly_empty short 1).putChunk (.inr rfl), fun t m replaying => ?_⟩
    have tabs : (w.step short (.tab 0 .committed)).tabs =
        Function.update (fun _ => (⟨true, .probing⟩ : Tab)) 0
          ⟨true, .finalNote { whole with nextChunk := 1 }⟩ := Function.update_idem _ _ _
    rw [tabs] at replaying
    exact absurd replaying (replays_alone rfl t m)

/-- A load fills the cache, the server regenerates, and the next tab has the first bundle. -/
theorem handed_one_bundle_reused : ∃ e ∈ [2, 1], [1, 2, 1] = short e :=
  handed_one_bundle short 1 (fun _ => true) quiet quiet_clean 1 [1, 2, 1] rfl

end Reused

section Spliced

private def opened (e : Nat) (b : List UInt8) : Download :=
  ⟨0, b.length, some e, some true, some (List.replicate b.length 0), 0, 0⟩

private def half (e : Nat) (b : List UInt8) : Download := (opened e b).receive (b.take CHUNK_SIZE)

private def flushed (e : Nat) (b : List UInt8) : Download := { half e b with nextChunk := 1 }

private def ended (e : Nat) (b : List UInt8) : Download :=
  (flushed e b).receive ((b.drop CHUNK_SIZE).take 1)

private theorem take_chunk {b : List UInt8} (one : b.length = CHUNK_SIZE + 1) :
    (b.take CHUNK_SIZE).length = CHUNK_SIZE := by
  rw [List.length_take, one]
  omega

private theorem take_last {b : List UInt8} (one : b.length = CHUNK_SIZE + 1) :
    ((b.drop CHUNK_SIZE).take 1).length = 1 := by
  rw [List.length_take, List.length_drop, one]
  omega

private theorem begin_opened {b : List UInt8} (one : b.length = CHUNK_SIZE + 1) (e : Nat) :
    begin true .fresh e (some true) true b = .wiping (opened e b) b := by
  have sized : (true && decide (0 < b.length)) = true := by simp [one]
  rw [begin]
  dsimp only [Download.fresh]
  rw [if_pos sized, if_pos rfl]
  rfl

private theorem pieced_half {b : List UInt8} (one : b.length = CHUNK_SIZE + 1) (e : Nat) :
    pieced true (opened e b) (b.take CHUNK_SIZE) (b.drop CHUNK_SIZE) =
      .chunking (half e b) (b.drop CHUNK_SIZE) := by
  have fits : ¬ (opened e b).total < (opened e b).off + (b.take CHUNK_SIZE).length := by
    rw [take_chunk one]
    simp only [opened, one]
    omega
  have full : (true && decide ((0 + 1) * CHUNK_SIZE ≤ (half e b).off)) = true := by
    simp only [half, Download.receive, opened, take_chunk one]
    simp
  rw [pieced, if_neg fits, flush]
  exact if_pos full

private theorem flush_flushed {b : List UInt8} (one : b.length = CHUNK_SIZE + 1) (e : Nat) :
    flush true (flushed e b) (b.drop CHUNK_SIZE) = .reading (flushed e b) (b.drop CHUNK_SIZE) := by
  rw [flush]
  refine if_neg ?_
  simp only [flushed, half, Download.receive, opened, take_chunk one, Bool.true_and, decide_eq_true_eq]
  have := chunk_pos
  omega

private theorem pieced_ended {b : List UInt8} (one : b.length = CHUNK_SIZE + 1) (e : Nat) :
    pieced true (flushed e b) ((b.drop CHUNK_SIZE).take 1) ((b.drop CHUNK_SIZE).drop 1) =
      .reading (ended e b) ((b.drop CHUNK_SIZE).drop 1) := by
  have fits : ¬ (flushed e b).total < (flushed e b).off + ((b.drop CHUNK_SIZE).take 1).length := by
    rw [take_last one]
    simp only [flushed, half, Download.receive, opened, take_chunk one, one]
    omega
  rw [pieced, if_neg fits, flush]
  refine if_neg ?_
  simp only [flushed, half, Download.receive, opened, take_chunk one, take_last one, Bool.true_and,
    decide_eq_true_eq]
  have : 1 < CHUNK_SIZE := by decide
  omega

private theorem finish_ended {b : List UInt8} (one : b.length = CHUNK_SIZE + 1) (e : Nat) :
    finish true (ended e b) = .finalChunk (ended e b) := by
  have all : ¬ (ended e b).off ≠ (ended e b).total := by
    simp only [ended, flushed, half, Download.receive, opened, take_chunk one, take_last one, one]
    omega
  have left : (ended e b).nextChunk * CHUNK_SIZE < (ended e b).total := by
    simp only [ended, flushed, half, Download.receive, opened, one]
    omega
  rw [finish, if_neg all, if_pos rfl, if_pos left]

/-- What the first tab leaves when it has its first chunk, and the second tab after it. -/
private def firstStore (body : Nat → List UInt8) : HintStore :=
  (HintStore.empty.putChunk 0 (slice (half 1 (body 1)).buffer (0 * CHUNK_SIZE) CHUNK_SIZE)).putMeta
    ((flushed 1 (body 1)).note (1 * CHUNK_SIZE) false)

private def secondStore (body : Nat → List UInt8) : HintStore :=
  HintStore.empty.putChunk 0 (slice (half 2 (body 2)).buffer (0 * CHUNK_SIZE) CHUNK_SIZE)

private def thirdStore (body : Nat → List UInt8) : HintStore :=
  ((secondStore body).putChunk 1 ((ended 1 (body 1)).buffer.drop (1 * CHUNK_SIZE))).putMeta
    ((ended 1 (body 1)).note (body 1).length true)

private def early : List Event := [.headed (some true), .committed, .committed]

private def firstHalf : List Event :=
  [.headed (some true), .committed, .committed, .replied (some true) true, .committed, .piece CHUNK_SIZE,
    .committed, .committed]

private def overtake : List Event :=
  [.replied (some true) true, .committed, .piece CHUNK_SIZE, .committed, .closed]

private def secondHalf : List Event := [.piece 1, .ended, .committed, .committed]

private def hit : List Event := [.headed (some true), .committed, .committed, .committed, .committed]

private theorem early_solo : solo body 1 true (.empty, .probing) early =
    (.empty, .requesting .fresh) := rfl

private theorem firstHalf_solo (one : ∀ e, (body e).length = CHUNK_SIZE + 1) :
    solo body 1 true (.empty, .probing) firstHalf =
    (firstStore body, .reading (flushed 1 (body 1)) ((body 1).drop CHUNK_SIZE)) := by
  change solo body 1 true (.empty, begin true .fresh 1 (some true) true (body 1))
    [.committed, .piece CHUNK_SIZE, .committed, .committed] = _
  rw [begin_opened (one 1)]
  change solo body 1 true (.empty, pieced true (opened 1 (body 1))
    ((body 1).take CHUNK_SIZE) ((body 1).drop CHUNK_SIZE)) [.committed, .committed] = _
  rw [pieced_half (one 1)]
  change (firstStore body, flush true (flushed 1 (body 1)) ((body 1).drop CHUNK_SIZE)) = _
  rw [flush_flushed (one 1)]

private theorem overtake_solo (one : ∀ e, (body e).length = CHUNK_SIZE + 1) :
    solo body 2 true (firstStore body, .requesting .fresh) overtake =
    (secondStore body, .failed) := by
  change solo body 2 true (firstStore body, begin true .fresh 2 (some true) true (body 2))
    [.committed, .piece CHUNK_SIZE, .committed, .closed] = _
  rw [begin_opened (one 2)]
  change solo body 2 true (.empty, pieced true (opened 2 (body 2))
    ((body 2).take CHUNK_SIZE) ((body 2).drop CHUNK_SIZE)) [.committed, .closed] = _
  rw [pieced_half (one 2)]
  rfl

private theorem secondHalf_solo (one : ∀ e, (body e).length = CHUNK_SIZE + 1) : ∃ phase, solo body 2 true
    (secondStore body, .reading (flushed 1 (body 1)) ((body 1).drop CHUNK_SIZE)) secondHalf =
      (thirdStore body, phase) := by
  refine ⟨.resolving (ended 1 (body 1)).buffer, ?_⟩
  change solo body 2 true (secondStore body, pieced true (flushed 1 (body 1))
    (((body 1).drop CHUNK_SIZE).take 1) (((body 1).drop CHUNK_SIZE).drop 1))
      [.ended, .committed, .committed] = _
  rw [pieced_ended (one 1)]
  change solo body 2 true (secondStore body, finish true (ended 1 (body 1))) [.committed, .committed] = _
  rw [finish_ended (one 1)]
  rfl

private theorem half_filled {b : List UInt8} (one : b.length = CHUNK_SIZE + 1) (e : Nat) :
    Filled (half e b).buffer b CHUNK_SIZE := by
  have filled := (Filled.start (0 : UInt8) b).piece (List.take_prefix CHUNK_SIZE b)
  rwa [Nat.zero_add, take_chunk one] at filled

private theorem ended_buffer {b : List UInt8} (one : b.length = CHUNK_SIZE + 1) (e : Nat) :
    (ended e b).buffer = b := by
  have filled := (half_filled one e).piece (List.take_prefix 1 (b.drop CHUNK_SIZE))
  rw [take_last one] at filled
  have off : (flushed e b).off = CHUNK_SIZE := by
    simp only [flushed, half, Download.receive, opened, take_chunk one]
    omega
  have buffer : (ended e b).buffer =
      splice (half e b).buffer (flushed e b).off ((b.drop CHUNK_SIZE).take 1) := rfl
  rw [buffer, off]
  exact filled.full one.symm

/-- What the third tab puts together. -/
private def mixed (body : Nat → List UInt8) : List UInt8 :=
  (body 2).take CHUNK_SIZE ++ (body 1).drop CHUNK_SIZE

private theorem mixed_length (one : ∀ e, (body e).length = CHUNK_SIZE + 1) :
    (mixed body).length = CHUNK_SIZE + 1 := by
  rw [mixed, List.length_append, take_chunk (one 2), List.length_drop, one 1]
  omega

private theorem mixed_filled (one : ∀ e, (body e).length = CHUNK_SIZE + 1) (zeros : List UInt8)
    (start : Filled zeros (mixed body) 0) :
    Filled (splice zeros 0 ((body 2).take CHUNK_SIZE)) (mixed body) CHUNK_SIZE ∧
      splice (splice zeros 0 ((body 2).take CHUNK_SIZE)) CHUNK_SIZE ((body 1).drop CHUNK_SIZE) =
        mixed body := by
  have first := start.piece (List.prefix_append ((body 2).take CHUNK_SIZE) ((body 1).drop CHUNK_SIZE))
  rw [Nat.zero_add, take_chunk (one 2)] at first
  have rest : (mixed body).drop CHUNK_SIZE = (body 1).drop CHUNK_SIZE := by
    rw [mixed, List.drop_append_of_le_length (take_chunk (one 2)).ge,
      List.drop_of_length_le (take_chunk (one 2)).le, List.nil_append]
  have next : (body 1).drop CHUNK_SIZE <+: (mixed body).drop CHUNK_SIZE :=
    rest.symm ▸ List.prefix_refl _
  have second := first.piece next
  refine ⟨first, second.full ?_⟩
  have total := mixed_length one
  have tail : ((body 1).drop CHUNK_SIZE).length = (body 1).length - CHUNK_SIZE := List.length_drop
  have length := one 1
  omega

private theorem hit_solo (one : ∀ e, (body e).length = CHUNK_SIZE + 1) :
    solo body 2 true (thirdStore body, .probing) hit = (thirdStore body, .handed (mixed body)) := by
  have chunk₀ : (thirdStore body).chunk 0 = some ((body 2).take CHUNK_SIZE) := by
    have held : slice (half 2 (body 2)).buffer 0 CHUNK_SIZE = slice (body 2) 0 CHUNK_SIZE :=
      (half_filled (one 2) 2).slice_eq (by omega)
    change some (slice (half 2 (body 2)).buffer (0 * CHUNK_SIZE) CHUNK_SIZE) = _
    rw [Nat.zero_mul, held]
    rfl
  have chunk₁ : (thirdStore body).chunk 1 = some ((body 1).drop CHUNK_SIZE) := by
    change some ((ended 1 (body 1)).buffer.drop (1 * CHUNK_SIZE)) = _
    rw [Nat.one_mul, ended_buffer (one 1)]
  let m := (ended 1 (body 1)).note (body 1).length true
  let zeros : List UInt8 := List.replicate m.totalBytes 0
  have total : m.totalBytes = CHUNK_SIZE + 1 := one 1
  have count : (m.totalBytes + CHUNK_SIZE - 1) / CHUNK_SIZE = 2 := by
    rw [total]
    decide
  have start : Filled zeros (mixed body) 0 := by
    have := Filled.start (0 : UInt8) (mixed body)
    rwa [mixed_length one, ← total] at this
  obtain ⟨-, all⟩ := mixed_filled one zeros start
  have opens : afterMeta (some true) (some m) = .replaying (some true) m 0 0 zeros := by
    have complete : (m.complete && decide (0 < m.totalBytes)) = true := by
      change (true && decide (0 < m.totalBytes)) = true
      rw [total]
      decide
    have sane : isSaneByteLength m.totalBytes = true := by
      rw [total]
      decide
    rw [afterMeta, if_pos complete, if_neg (by simp [m, Download.note, ended, flushed, half,
      Download.receive, opened]), if_neg (by simp [sane]), replayFrom, if_pos (by rw [count]; omega)]
  have first : replayChunk (some true) m 0 0 zeros (some ((body 2).take CHUNK_SIZE)) =
      .replaying (some true) m 1 CHUNK_SIZE (splice zeros 0 ((body 2).take CHUNK_SIZE)) := by
    have good : ¬ (CHUNK_SIZE = 0 ∨ CHUNK_SIZE + 1 < 0 + CHUNK_SIZE) := by decide
    rw [replayChunk, take_chunk (one 2), total, if_neg good, replayFrom, if_pos (by rw [count]; omega)]
    simp only [Nat.zero_add]
  have second : replayChunk (some true) m 1 CHUNK_SIZE (splice zeros 0 ((body 2).take CHUNK_SIZE))
      (some ((body 1).drop CHUNK_SIZE)) = .resolving (mixed body) := by
    have length : ((body 1).drop CHUNK_SIZE).length = 1 := by
      rw [List.length_drop, one 1]
      omega
    rw [replayChunk, length, total, if_neg (by omega), all, replayFrom, if_neg (by rw [count]; omega),
      if_pos total.symm]
  change solo body 2 true (thirdStore body, afterMeta (some true) (some m)) [.committed, .committed,
    .committed] = _
  rw [opens]
  change solo body 2 true (thirdStore body, replayChunk (some true) m 0 0 zeros ((thirdStore body).chunk 0))
    [.committed, .committed] = _
  rw [chunk₀, first]
  change solo body 2 true (thirdStore body, replayChunk (some true) m 1 CHUNK_SIZE _
    ((thirdStore body).chunk 1)) [.committed] = _
  rw [chunk₁, second]
  rfl

/-- Tab 1 has seen an empty cache when tab 0 starts on the bundle of block 1. Before tab 0 is done,
tab 1 clears the cache for the bundle of block 2, leaves its first chunk there and is closed; tab 2
comes last. -/
def splicing : List Step :=
  early.map (Step.tab 1) ++ (firstHalf.map (Step.tab 0) ++ (.regenerate 2 ::
    (overtake.map (Step.tab 1) ++ (secondHalf.map (Step.tab 0) ++ hit.map (Step.tab 2)))))

private theorem splicing_run (one : ∀ e, (body e).length = CHUNK_SIZE + 1) :
    ((splicing.foldl (World.step body) (.start 1 fun _ => true)).tabs 2).phase =
      .handed (mixed body) := by
  obtain ⟨phase, second⟩ := secondHalf_solo one
  let w₁ : World := ⟨1, [1], .empty, Function.update (fun _ => ⟨true, .probing⟩) 1 ⟨true, .requesting .fresh⟩⟩
  let w₂ : World := { w₁ with
    store := firstStore body
    tabs := Function.update w₁.tabs 0
      ⟨true, .reading (flushed 1 (body 1)) ((body 1).drop CHUNK_SIZE)⟩ }
  let w₃ : World := { w₂ with current := 2, served := [2, 1] }
  let w₄ : World := { w₃ with
    store := secondStore body
    tabs := Function.update w₃.tabs 1 ⟨true, .failed⟩ }
  let w₅ : World := { w₄ with
    store := thirdStore body
    tabs := Function.update w₄.tabs 0 ⟨true, phase⟩ }
  have h₁ : (early.map (Step.tab 1)).foldl (World.step body) (.start 1 fun _ => true) = w₁ :=
    foldl_solo (w := .start 1 fun _ => true) early_solo
  have h₂ : (firstHalf.map (Step.tab 0)).foldl (World.step body) w₁ = w₂ :=
    foldl_solo (w := w₁) (firstHalf_solo one)
  have h₃ : w₂.step body (.regenerate 2) = w₃ := rfl
  have h₄ : (overtake.map (Step.tab 1)).foldl (World.step body) w₃ = w₄ :=
    foldl_solo (w := w₃) (overtake_solo one)
  have h₅ : (secondHalf.map (Step.tab 0)).foldl (World.step body) w₄ = w₅ :=
    foldl_solo (w := w₄) second
  rw [splicing, List.foldl_append, h₁, List.foldl_append, h₂, List.foldl_cons, h₃, List.foldl_append, h₄,
    List.foldl_append, h₅, foldl_solo (w := w₅) (hit_solo one)]
  change (Function.update w₅.tabs 2 ⟨true, .handed (mixed body)⟩ 2).phase = _
  rw [Function.update_self]

/-- Bundles of one length, two chunks each. -/
def bundle (e : Nat) : List UInt8 := List.replicate (CHUNK_SIZE + 1) (if e = 1 then 0 else 1)

private theorem bundle_length (e : Nat) : (bundle e).length = CHUNK_SIZE + 1 := List.length_replicate

/-- The third load is a cache hit on the first chunk of one bundle and the last of the other. -/
theorem splices_two_bundles : (∀ e e', (bundle e).length = (bundle e').length) ∧
    ∃ bytes, ((splicing.foldl (World.step bundle) (.start 1 fun _ => true)).tabs 2).phase =
      .handed bytes ∧ ∀ e, bytes ≠ bundle e := by
  refine ⟨fun e e' => (bundle_length e).trans (bundle_length e').symm, mixed bundle,
    splicing_run bundle_length, fun e same => ?_⟩
  have first : (mixed bundle)[0]? = some 1 := by
    rw [mixed, List.getElem?_append_left (by rw [take_chunk (bundle_length 2)]; decide),
      List.getElem?_take_of_lt (by decide), bundle, List.getElem?_replicate, if_pos (by omega),
      if_neg (by decide)]
  have last : (mixed bundle)[CHUNK_SIZE]? = some 0 := by
    rw [mixed, List.getElem?_append_right (take_chunk (bundle_length 2)).le,
      take_chunk (bundle_length 2), Nat.sub_self, List.getElem?_drop, bundle, List.getElem?_replicate,
      if_pos (by omega), if_pos rfl]
  rw [same, bundle, List.getElem?_replicate, if_pos (by omega)] at first
  rw [same, bundle, List.getElem?_replicate, if_pos (by omega)] at last
  exact absurd (Option.some.inj (first.symm.trans last)) (by decide)

end Spliced

end RisePir.Web.CacheRuns
