import RisePir.Http.Lifetime
import RisePir.Http.Ranges

set_option autoImplicit false
set_option relaxedAutoImplicit false

/-! Resuming an interrupted `/setup`. The `ETag` names one bundle for as long as the process
runs, so a range that is served under it continues the bytes it was first served with. -/

namespace RisePir.Http.Resume

open RisePir.Lib.Digits
open RisePir.Lib.Text
open RisePir.Proto.Types
open RisePir.Upstream.Cuckoo
open RisePir.Upstream.Pir
open RisePir.Server.Core
open RisePir.Server.DeltaRing
open RisePir.Server.Small
open RisePir.Http.Lifetime
open RisePir.Http.Node
open RisePir.Http.Ranges
open RisePir.Http.Serving
open RisePir.Http.SetupWindow
open RisePir.Http.Wire

variable {p : CuckooParams} {C : SegmentedCuckoo p} {B : PirBackend} {http : HeaderCode}

section Text

theorem Visible.append {a b : List Char} (ha : Visible a) (hb : Visible b) : Visible (a ++ b) := by
  intro c hc
  rcases List.mem_append.mp hc with hc | hc
  · exact ha c hc
  · exact hb c hc

theorem toDigits_visible (n : Nat) : Visible (Nat.toDigits 10 n) := by
  intro c hc
  have digit : 48 ≤ c.toNat ∧ c.toNat ≤ 57 :=
    Char.isDigit_iff_toNat.mp (Nat.isDigit_of_mem_toDigits (by decide) (by decide) hc)
  simp only [visible, decide_eq_true_eq]
  omega

theorem etagOf_visible {epoch : String} (h : Visible epoch.toList) (block : Nat) :
    Visible (etagOf epoch block) := by
  unfold etagOf
  refine Visible.append (Visible.append (Visible.append ?_ h) ?_) ?_
  · decide
  · exact Visible.append (a := ['-']) (by decide) (toDigits_visible block)
  · decide

theorem etagOf_inj {epoch : String} {a b : Nat} (h : etagOf epoch a = etagOf epoch b) : a = b := by
  unfold etagOf at h
  have digits : '-' :: Nat.toDigits 10 a = '-' :: Nat.toDigits 10 b := by
    simpa [List.append_assoc] using h
  exact toDigits_inj (List.cons.inj digits).2

end Text

section Answers

variable {tags : Tags} {etag : List Char} {bytes : List UInt8} {headers : SetupHeaders}

theorem sliceInclusive_of_le {first last : Nat} (ordered : first ≤ last) (below : last < bytes.length) :
    sliceInclusive bytes first last = some ((bytes.take (last + 1)).drop first) := by
  apply if_pos
  omega

/-- The slice of a satisfiable range, with all its headers. -/
theorem partialContent_of_le (laws : http.Laws) {first last : Nat} (ordered : first ≤ last)
    (below : last < bytes.length) : ∃ resp, partialContent http tags bytes first last = some resp ∧ resp.status = 206 ∧
      resp.header "etag" = some tags.etag ∧ resp.body = (bytes.take (last + 1)).drop first := by
  have shown : Visible ("bytes ".toList ++ Nat.toDigits 10 first ++ '-' :: Nat.toDigits 10 last ++
      '/' :: Nat.toDigits 10 bytes.length) := by
    refine Visible.append (Visible.append (Visible.append (by decide) (toDigits_visible first)) ?_) ?_
    · exact Visible.append (a := ['-']) (by decide) (toDigits_visible last)
    · exact Visible.append (a := ['/']) (by decide) (toDigits_visible bytes.length)
  obtain ⟨value, made, -⟩ := laws _ shown
  unfold partialContent
  rw [sliceInclusive_of_le ordered below, made]
  refine ⟨_, rfl, rfl, ?_, rfl⟩
  simp [SetupResponse.header, Tags.headers]

theorem rangeNotSatisfiable_some (laws : http.Laws) (bytes : List UInt8) :
    ∃ resp, rangeNotSatisfiable http bytes = some resp ∧ resp.status = 416 := by
  have shown : Visible ("bytes */".toList ++ Nat.toDigits 10 bytes.length) :=
    Visible.append (by decide) (toDigits_visible bytes.length)
  obtain ⟨value, made, -⟩ := laws _ shown
  unfold rangeNotSatisfiable
  rw [made]
  exact ⟨_, rfl, rfl⟩

theorem full_header (tags : Tags) (bytes : List UInt8) :
    (full tags bytes).header "etag" = some tags.etag := by
  simp [SetupResponse.header, full, Tags.headers]

/-- What a client sends to continue at byte `off` of the bundle that `etag` names. -/
def resumeHeaders (http : HeaderCode) (etag : HeaderValue) (off : Nat) : SetupHeaders where
  ifNoneMatch := none
  ifRange := some etag
  range := http.fromStr (BYTES_UNIT ++ (Nat.toDigits 10 off ++ ['-']))

theorem resume_visible (off : Nat) : Visible (BYTES_UNIT ++ (Nat.toDigits 10 off ++ ['-'])) :=
  Visible.append (by decide) (Visible.append (toDigits_visible off) (by decide))

/-- An open range from an offset inside the bundle: to its end, when the offset is a `u64`. -/
theorem parseRange_resume {off total : Nat} (below : off < total) :
    parseRange (BYTES_UNIT ++ (Nat.toDigits 10 off ++ ['-'])) total =
      if off < 2 ^ 64 then some (.satisfiable off (total - 1)) else some .unsupported := by
  have digits : ∀ c ∈ Nat.toDigits 10 off, c.isDigit = true :=
    fun c hc => Nat.isDigit_of_mem_toDigits (by decide) (by decide) hc
  split_ifs with fits
  · have begins : Begins (BYTES_UNIT ++ (Nat.toDigits 10 off ++ ['-'])) off [] :=
      ⟨Nat.toDigits 10 off, rfl, by simp, parseUnsigned_toDigits fits⟩
    rw [parseRange_begins begins, if_neg (by omega)]
    have final : checkedSub total 1 = some (total - 1) := if_pos (by omega)
    simp [closeRange, final]
  · apply parseRange_other
    rintro ⟨first, rest, text, same, -, read⟩
    obtain ⟨dash, -, -⟩ := separator_free read
    have dashless : '-' ∉ Nat.toDigits 10 off := by
      intro mem
      have := digits '-' mem
      simp at this
    have parts : splitOnce '-' (text ++ '-' :: rest) = some (text, rest) := splitOnce_append dash
    rw [← List.append_cancel_left same, splitOnce_append dashless] at parts
    cases parts
    have unread : parseU64 (Nat.toDigits 10 off) = none := by
      unfold parseU64
      rw [parseUnsigned_digits (by omega) Nat.toDigits_ne_nil digits, Nat.ofDigitChars_ten_toDigits,
        if_neg fits]
    rw [unread] at read
    cases read

/-- The answer to a resume request: the rest of the bundle when `If-Range` names it, and the
whole bundle otherwise. -/
theorem respond_resume (laws : http.Laws) {named : HeaderValue} {off : Nat}
    (below : http.toStr named = some etag → off < bytes.length) :
    ∃ resp, respond http tags etag bytes (resumeHeaders http named off) = some resp ∧
      resp.header "etag" = some tags.etag ∧
      ((http.toStr named = some etag ∧ resp.status = 206 ∧ resp.body = bytes.drop off) ∨
        (http.toStr named = some etag → 2 ^ 64 ≤ off) ∧ resp.status = 200 ∧ resp.body = bytes) := by
  have whole := full_header tags bytes
  obtain ⟨value, made, reads⟩ := laws _ (resume_visible off)
  unfold respond resumeHeaders
  simp only [Option.any_none, Bool.false_eq_true, if_false, made, Option.bind_some]
  by_cases same : http.toStr named = some etag
  · rw [if_pos same]
    unfold serveRange
    rw [reads]
    have inside := below same
    dsimp only
    rw [parseRange_resume inside]
    split_ifs with fits
    · have ordered : off ≤ bytes.length - 1 := by omega
      have final : bytes.length - 1 < bytes.length := by omega
      obtain ⟨resp, served, status, tagged, body⟩ := partialContent_of_le laws ordered final
      refine ⟨resp, served, tagged, .inl ⟨same, status, ?_⟩⟩
      rw [body, List.take_of_length_le (by omega)]
    · exact ⟨_, rfl, whole, .inr ⟨fun _ => by omega, rfl, rfl⟩⟩
  · rw [if_neg same]
    exact ⟨_, rfl, whole, .inr ⟨fun h => absurd h same, rfl, rfl⟩⟩

theorem serveRange_some (laws : http.Laws) (tags : Tags) (bytes : List UInt8) (range : HeaderValue) :
    ∃ resp, serveRange http tags bytes range = some resp ∧
      (resp.status = 200 → resp = full tags bytes) := by
  unfold serveRange
  cases http.toStr range with
  | none => exact ⟨_, rfl, fun _ => rfl⟩
  | some raw =>
      obtain ⟨outcome, parsed, spec⟩ := parseRange_spec raw bytes.length
      dsimp only
      rw [parsed]
      cases outcome with
      | unsupported => exact ⟨_, rfl, fun _ => rfl⟩
      | unsatisfiable =>
          obtain ⟨resp, served, status⟩ := rangeNotSatisfiable_some laws bytes
          exact ⟨resp, served, fun h => absurd (status.symm.trans h) (by decide)⟩
      | satisfiable first last =>
          obtain ⟨ordered, below, -⟩ := spec.satisfiable first last rfl
          obtain ⟨resp, served, status, -⟩ := partialContent_of_le laws ordered below
          exact ⟨resp, served, fun h => absurd (status.symm.trans h) (by decide)⟩

/-- Whatever the headers, nothing panics, and a `200` is the whole bundle under its own tag. -/
theorem respond_some (laws : http.Laws) (tags : Tags) (etag : List Char) (bytes : List UInt8)
    (headers : SetupHeaders) : ∃ resp, respond http tags etag bytes headers = some resp ∧
      (resp.status = 200 → resp = full tags bytes) := by
  unfold respond
  by_cases cached : (headers.ifNoneMatch.any fun raw => ifNoneMatchHits http raw etag) = true
  · rw [if_pos cached]
    refine ⟨_, rfl, fun h => ?_⟩
    simp [notModified] at h
  · rw [if_neg cached]
    cases headers.range with
    | none => exact ⟨_, rfl, fun _ => rfl⟩
    | some range =>
        dsimp only
        by_cases same : headers.ifRange.bind http.toStr = some etag
        · rw [if_pos same]
          exact serveRange_some laws tags bytes range
        · rw [if_neg same]
          exact ⟨_, rfl, fun _ => rfl⟩

end Answers

section Bundles

variable {node node' : NodeState C B} {bundle : SetupBundle}

/-- The cached bundle is of a block that the server has passed, and at the head the head's. -/
structure Kept (node : NodeState C B) : Prop where
  le : ∀ cached, node.setupCache = some cached → cached.block ≤ node.server.block
  head : ∀ cached, node.setupCache = some cached → cached.block = node.server.block →
    cached = node.server.setup

/-- From here on `bundle` is the only one of its block. -/
structure Pinned (bundle : SetupBundle) (node : NodeState C B) : Prop where
  le : bundle.block ≤ node.server.block
  head : bundle.block = node.server.block → node.server.setup = bundle
  cache : ∀ cached, node.setupCache = some cached → cached.block = bundle.block → cached = bundle

/-- What an applied block leaves of the node that the bundles depend on. -/
theorem applied_keeps {rng : C.Rng} {update : BlockUpdate} {out : BlockDelta × BlockApplyReport}
    (step : node.applyBlockReporting rng update = (node', .ok out)) :
    node.server.block < node'.server.block ∧ node'.setupCache = node.setupCache ∧
      node'.epoch = node.epoch := by
  unfold NodeState.applyBlockReporting at step
  cases hs : node.server.applyBlockReporting rng update with
  | mk server r =>
      rw [hs] at step
      cases r with
      | error e => cases step
      | ok applied =>
          cases step
          refine ⟨?_, rfl, rfl⟩
          unfold RisePirServer.applyBlockReporting at hs
          split_ifs at hs with stale
          · cases hs
          · cases ha : applyEntries node.server.valueCodec ⟨rng, node.server.store⟩ update with
            | mk t r =>
                rw [ha] at hs
                cases r with
                | error e => cases hs
                | ok kinds =>
                    cases hs
                    show node.server.block < update.block
                    omega

theorem failed_keeps {rng : C.Rng} {update : BlockUpdate} {e : ServerError}
    (step : node.applyBlockReporting rng update = (node', .error e)) :
    node'.server.setup = node.server.setup ∧ node'.setupCache = node.setupCache ∧
      node'.epoch = node.epoch := by
  unfold NodeState.applyBlockReporting at step
  cases hs : node.server.applyBlockReporting rng update with
  | mk server r =>
      rw [hs] at step
      cases r with
      | ok applied => cases step
      | error e' =>
          obtain ⟨hsegments, hblock, -⟩ := RisePirServer.apply_error_keeps hs
          cases step
          refine ⟨?_, rfl, rfl⟩
          rw [RisePirServer.setup, RisePirServer.setup, hsegments, hblock]

/-- `/setup` hands out what it leaves in the cache: the bundle that was there, or the head's. -/
theorem setupBytes_keeps (node : NodeState C B) :
    node.setupBytes.1.server = node.server ∧ node.setupBytes.1.epoch = node.epoch ∧
      node.setupBytes.1.setupCache = some node.setupBytes.2 ∧
      (node.setupCache = some node.setupBytes.2 ∨ node.setupBytes.2 = node.server.setup) := by
  unfold NodeState.setupBytes
  cases hcache : node.setupCache with
  | none => exact ⟨rfl, rfl, rfl, .inr rfl⟩
  | some cached =>
      dsimp only
      by_cases fresh : node.server.block - cached.block ≤ node.freshWindow
      · rw [if_pos fresh]
        exact ⟨rfl, rfl, hcache, .inl rfl⟩
      · rw [if_neg fresh]
        exact ⟨rfl, rfl, rfl, .inr rfl⟩

theorem Kept.applied (h : Kept node) (later : node.server.block < node'.server.block)
    (cache : node'.setupCache = node.setupCache) : Kept node' := by
  constructor
  · intro cached hcached
    rw [cache] at hcached
    have := h.le cached hcached
    omega
  · intro cached hcached same
    rw [cache] at hcached
    have := h.le cached hcached
    omega

theorem Kept.failed (h : Kept node) (setup : node'.server.setup = node.server.setup)
    (cache : node'.setupCache = node.setupCache) : Kept node' := by
  have block : node'.server.block = node.server.block := congrArg SetupBundle.block setup
  constructor
  · intro cached hcached
    rw [cache] at hcached
    rw [block]
    exact h.le cached hcached
  · intro cached hcached same
    rw [cache] at hcached
    rw [setup]
    exact h.head cached hcached (same.trans block)

/-- A bundle handed out is the only one of its block from then on. -/
theorem Kept.served (h : Kept node) :
    Kept node.setupBytes.1 ∧ Pinned node.setupBytes.2 node.setupBytes.1 := by
  obtain ⟨server, -, cache, source⟩ := setupBytes_keeps node
  have le : node.setupBytes.2.block ≤ node.server.block := by
    rcases source with held | head
    · exact h.le _ held
    · rw [head]
      exact le_refl _
  have head : node.setupBytes.2.block = node.server.block → node.setupBytes.2 = node.server.setup := by
    intro same
    rcases source with held | head
    · exact h.head _ held same
    · exact head
  refine ⟨⟨?_, ?_⟩, ⟨?_, ?_, ?_⟩⟩
  · intro cached hcached
    rw [cache] at hcached
    cases hcached
    rwa [server]
  · intro cached hcached same
    rw [cache] at hcached
    cases hcached
    rw [server] at same ⊢
    exact head same
  · rwa [server]
  · intro same
    rw [server] at same ⊢
    exact (head same).symm
  · intro cached hcached _
    rw [cache] at hcached
    cases hcached
    rfl

theorem Pinned.applied (h : Pinned bundle node) (later : node.server.block < node'.server.block)
    (cache : node'.setupCache = node.setupCache) : Pinned bundle node' := by
  have le := h.le
  refine ⟨by omega, fun same => ?_, ?_⟩
  · omega
  · rw [cache]
    exact h.cache

theorem Pinned.failed (h : Pinned bundle node) (setup : node'.server.setup = node.server.setup)
    (cache : node'.setupCache = node.setupCache) : Pinned bundle node' := by
  have block : node'.server.block = node.server.block := congrArg SetupBundle.block setup
  refine ⟨?_, ?_, ?_⟩
  · rw [block]
    exact h.le
  · rw [block, setup]
    exact h.head
  · rw [cache]
    exact h.cache

/-- Another request to `/setup` regenerates the head's bundle at most. -/
theorem Pinned.setup (h : Pinned bundle node) : Pinned bundle node.setupBytes.1 := by
  obtain ⟨server, -, cache, source⟩ := setupBytes_keeps node
  refine ⟨?_, ?_, ?_⟩
  · rw [server]
    exact h.le
  · rw [server]
    exact h.head
  · intro cached hcached same
    rw [cache] at hcached
    cases hcached
    rcases source with held | head
    · exact h.cache _ held same
    · rw [head] at same ⊢
      exact h.head same.symm

/-- What `/setup` hands out under the block of a pinned bundle is that bundle. -/
theorem Pinned.served (h : Pinned bundle node) (same : node.setupBytes.2.block = bundle.block) :
    node.setupBytes.2 = bundle := by
  obtain ⟨-, -, cache, -⟩ := setupBytes_keeps node
  exact h.setup.cache _ cache same

end Bundles

section Downloads

variable {start node node' : NodeState C B} {stopped : Bool} {etag : HeaderValue} {body : List UInt8}
  {parts : List (List UInt8)}

/-- A download in one run of a process, with the bundle that was first served whole under
`etag`: what the process does, and the parts a client has so far, each cut where its transfer
broke. -/
inductive Download (http : HeaderCode) (start : NodeState C B) (etag : HeaderValue) (body : List UInt8) :
    Bool → NodeState C B → List (List UInt8) → Prop
  /-- The first whole answer under the tag goes to someone else, or to the client itself. -/
  | published {ds : List BlockDelta} {stopped : Bool} {node node' : NodeState C B}
      {headers : SetupHeaders} {resp : SetupResponse} {parts : List (List UInt8)}
      (run : FollowRun start ds stopped node)
      (served : setupHandler http node headers = (node', some resp)) (status : resp.status = 200)
      (tagged : resp.header "etag" = some etag) (carried : resp.body = body)
      (own : parts = [] ∨ ∃ cut < resp.body.length, parts = [resp.body.take cut]) :
      Download http start etag body stopped node' parts
  | applied {node node' : NodeState C B} {parts : List (List UInt8)} {rng : C.Rng}
      {update : BlockUpdate} {out : BlockDelta × BlockApplyReport}
      (download : Download http start etag body false node parts)
      (next : update.block = node.server.block + 1)
      (step : node.applyBlockReporting rng update = (node', .ok out)) :
      Download http start etag body false node' parts
  | failed {stopped : Bool} {node node' : NodeState C B} {parts : List (List UInt8)} {rng : C.Rng}
      {update : BlockUpdate} {e : ServerError}
      (download : Download http start etag body stopped node parts)
      (step : node.applyBlockReporting rng update = (node', .error e)) :
      Download http start etag body true node' parts
  /-- Anyone's request, whatever its headers. -/
  | requested {stopped : Bool} {node : NodeState C B} {parts : List (List UInt8)}
      (headers : SetupHeaders) (download : Download http start etag body stopped node parts) :
      Download http start etag body stopped (setupHandler http node headers).1 parts
  /-- The client's own first request, after the tag was published. -/
  | begun {stopped : Bool} {node node' : NodeState C B} {resp : SetupResponse} {cut : Nat}
      (download : Download http start etag body stopped node [])
      (served : setupHandler http node ⟨none, none, none⟩ = (node', some resp))
      (status : resp.status = 200) (tagged : resp.header "etag" = some etag)
      (below : cut < resp.body.length) :
      Download http start etag body stopped node' [resp.body.take cut]
  /-- A part from the offset reached, cut in its turn. -/
  | resumed {stopped : Bool} {node node' : NodeState C B} {parts : List (List UInt8)}
      {resp : SetupResponse} {cut : Nat} (download : Download http start etag body stopped node parts)
      (started : parts ≠ [])
      (served : setupHandler http node (resumeHeaders http etag parts.flatten.length) = (node', some resp))
      (status : resp.status = 206) (below : cut < resp.body.length) :
      Download http start etag body stopped node' (parts ++ [resp.body.take cut])

/-- What a download rests on: the tag's bundle is pinned, and the parts begin it. -/
structure Continues (http : HeaderCode) (etag : HeaderValue) (body : List UInt8) (node : NodeState C B)
    (parts : List (List UInt8)) : Prop where
  kept : Kept node
  epoch : Visible node.epoch.toList
  pinned : ∃ bundle, Pinned bundle node ∧ encodeSetup bundle = body ∧
    http.fromStr (etagOf node.epoch bundle.block) = some etag
  begins : ∃ rest, parts.flatten ++ rest = body
  below : parts ≠ [] → parts.flatten.length < body.length

theorem tagsOf_some (laws : http.Laws) (epoch : Visible node.epoch.toList) (block : Nat) :
    ∃ tags, tagsOf http node block = some tags ∧
      http.fromStr (etagOf node.epoch block) = some tags.etag := by
  obtain ⟨etag, named, -⟩ := laws _ (etagOf_visible epoch block)
  obtain ⟨header, made, -⟩ := laws _ epoch
  unfold tagsOf
  rw [named, made]
  exact ⟨_, rfl, rfl⟩

/-- The answer to a request, from the bundle handed out. -/
theorem setupHandler_respond (laws : http.Laws) (epoch : Visible node.epoch.toList) (headers : SetupHeaders) :
    ∃ tags, http.fromStr (etagOf node.epoch node.setupBytes.2.block) = some tags.etag ∧
      setupHandler http node headers = (node.setupBytes.1, respond http tags
        (etagOf node.epoch node.setupBytes.2.block) (encodeSetup node.setupBytes.2) headers) := by
  obtain ⟨tags, made, etag⟩ := tagsOf_some laws epoch node.setupBytes.2.block
  refine ⟨tags, etag, ?_⟩
  unfold setupHandler
  dsimp only
  rw [made]
  rfl

/-- A whole answer: the bundle handed out, under its own tag. -/
theorem whole_answer (laws : http.Laws) (epoch : Visible node.epoch.toList) {headers : SetupHeaders}
    {resp : SetupResponse} (served : setupHandler http node headers = (node', some resp))
    (status : resp.status = 200) : node' = node.setupBytes.1 ∧
      resp.body = encodeSetup node.setupBytes.2 ∧
      resp.header "etag" = http.fromStr (etagOf node.epoch node.setupBytes.2.block) := by
  obtain ⟨tags, etag, eq⟩ := setupHandler_respond laws epoch headers
  obtain ⟨resp', responded, whole⟩ := respond_some laws tags (etagOf node.epoch node.setupBytes.2.block)
    (encodeSetup node.setupBytes.2) headers
  rw [eq, responded] at served
  cases served
  refine ⟨rfl, ?_, ?_⟩
  · rw [whole status]
    rfl
  · rw [whole status, full_header, etag]

/-- The tag of the bundle handed out is a pinned bundle's only when it is that bundle. -/
theorem Continues.same_bundle (laws : http.Laws) (h : Continues http etag body node parts)
    (tagged : http.fromStr (etagOf node.epoch node.setupBytes.2.block) = some etag) :
    encodeSetup node.setupBytes.2 = body := by
  obtain ⟨bundle, pinned, rfl, named⟩ := h.pinned
  have same : node.setupBytes.2.block = bundle.block := etagOf_inj (laws.fromStr_inj
    (etagOf_visible h.epoch _) (etagOf_visible h.epoch _) tagged named)
  rw [pinned.served same]

/-- The answer to the next resume request. -/
theorem Continues.answer (laws : http.Laws) (h : Continues http etag body node parts) (started : parts ≠ []) :
    ∃ resp, setupHandler http node (resumeHeaders http etag parts.flatten.length) =
        (node.setupBytes.1, some resp) ∧
      ((resp.status = 206 ∧ resp.header "etag" = some etag ∧ parts.flatten ++ resp.body = body) ∨
        (resp.status = 200 ∧ resp.body = encodeSetup node.setupBytes.2 ∧
          resp.header "etag" = http.fromStr (etagOf node.epoch node.setupBytes.2.block) ∧
          (resp.header "etag" = some etag → 2 ^ 64 ≤ parts.flatten.length))) := by
  obtain ⟨tags, tag, eq⟩ := setupHandler_respond laws h.epoch (resumeHeaders http etag parts.flatten.length)
  have named : http.toStr etag = some (etagOf node.epoch node.setupBytes.2.block) → tags.etag = etag := by
    intro same
    obtain ⟨bundle, -, -, etag_eq⟩ := h.pinned
    have text := laws.toStr_fromStr (etagOf_visible h.epoch _) etag_eq
    rw [same, Option.some.injEq] at text
    rw [← text, tag, Option.some.injEq] at etag_eq
    exact etag_eq
  have whole : tags.etag = etag → encodeSetup node.setupBytes.2 = body := by
    rintro rfl
    exact h.same_bundle laws tag
  have below : http.toStr etag = some (etagOf node.epoch node.setupBytes.2.block) →
      parts.flatten.length < (encodeSetup node.setupBytes.2).length := by
    intro same
    rw [whole (named same)]
    exact h.below started
  obtain ⟨resp, responded, tagged, answer⟩ := @respond_resume _ tags _ _ laws _ _ below
  refine ⟨resp, by rw [eq, responded], ?_⟩
  rcases answer with ⟨same, status, rest⟩ | ⟨far, status, all⟩
  · left
    refine ⟨status, by rw [tagged, named same], ?_⟩
    obtain ⟨tail, split⟩ := h.begins
    rw [rest, whole (named same), ← split, List.drop_left]
  · right
    refine ⟨status, all, by rw [tagged, tag], ?_⟩
    intro current
    rw [tagged, Option.some.injEq] at current
    apply far
    rw [← current]
    exact laws.toStr_fromStr (etagOf_visible h.epoch _) tag

theorem kept_of_run {ds : List BlockDelta} (run : FollowRun start ds stopped node)
    (kept : Kept start) : Kept node := by
  induction run with
  | start => exact kept
  | applied run next step ih =>
      obtain ⟨later, cache, -⟩ := applied_keeps step
      exact ih.applied later cache
  | failed run step ih =>
      obtain ⟨setup, cache, -⟩ := failed_keeps step
      exact ih.failed setup cache
  | setup run ih => exact ih.served.1

theorem Continues.applied (h : Continues http etag body node parts) {rng : C.Rng} {update : BlockUpdate}
    {out : BlockDelta × BlockApplyReport}
    (step : node.applyBlockReporting rng update = (node', .ok out)) :
    Continues http etag body node' parts := by
  obtain ⟨later, cache, epoch⟩ := applied_keeps step
  obtain ⟨bundle, pinned, carried, named⟩ := h.pinned
  refine ⟨h.kept.applied later cache, ?_, ⟨bundle, pinned.applied later cache, carried, ?_⟩, h.begins,
    h.below⟩
  · rw [epoch]
    exact h.epoch
  · rw [epoch]
    exact named

theorem Continues.failed (h : Continues http etag body node parts) {rng : C.Rng} {update : BlockUpdate}
    {e : ServerError} (step : node.applyBlockReporting rng update = (node', .error e)) :
    Continues http etag body node' parts := by
  obtain ⟨setup, cache, epoch⟩ := failed_keeps step
  obtain ⟨bundle, pinned, carried, named⟩ := h.pinned
  refine ⟨h.kept.failed setup cache, ?_, ⟨bundle, pinned.failed setup cache, carried, ?_⟩, h.begins,
    h.below⟩
  · rw [epoch]
    exact h.epoch
  · rw [epoch]
    exact named

theorem Continues.requested (h : Continues http etag body node parts) :
    Continues http etag body node.setupBytes.1 parts := by
  obtain ⟨-, epoch, -⟩ := setupBytes_keeps node
  obtain ⟨bundle, pinned, carried, named⟩ := h.pinned
  refine ⟨h.kept.served.1, ?_, ⟨bundle, pinned.setup, carried, ?_⟩, h.begins, h.below⟩
  · rw [epoch]
    exact h.epoch
  · rw [epoch]
    exact named

/-- One more part, cut before its end. -/
theorem Continues.extended (h : Continues http etag body node parts) {part : List UInt8} {cut : Nat}
    (next : parts.flatten ++ part = body) (below : cut < part.length) :
    Continues http etag body node (parts ++ [part.take cut]) := by
  have joined : (parts ++ [part.take cut]).flatten = parts.flatten ++ part.take cut := by
    simp
  refine ⟨h.kept, h.epoch, h.pinned, ⟨part.drop cut, ?_⟩, fun _ => ?_⟩
  · rw [joined, List.append_assoc, List.take_append_drop, next]
  · rw [joined, ← next, List.length_append, List.length_append, List.length_take]
    omega

/-- Every step of a run keeps the tag's bundle, and every part continues the ones before. -/
theorem Download.continues (laws : http.Laws) (kept : Kept start) (epoch : Visible start.epoch.toList)
    (download : Download http start etag body stopped node parts) :
    Continues http etag body node parts := by
  induction download with
  | @published ds stopped node node' headers resp parts run served status tagged carried own =>
      have same := FollowRun.epoch run
      have shown : Visible node.epoch.toList := by rwa [same]
      obtain ⟨rfl, whole, tag⟩ := whole_answer laws shown served status
      obtain ⟨-, epoch_eq, -⟩ := setupBytes_keeps node
      have none_yet : Continues http etag body node.setupBytes.1 [] := by
        obtain ⟨kept', pinned⟩ := (kept_of_run run kept).served
        refine ⟨kept', ?_, ⟨_, pinned, whole.symm.trans carried, ?_⟩, ⟨body, rfl⟩, fun h => absurd rfl h⟩
        · rwa [epoch_eq]
        · rw [epoch_eq, ← tag, tagged]
      rcases own with rfl | ⟨cut, below, rfl⟩
      · exact none_yet
      · exact none_yet.extended carried below
  | applied download next step ih => exact ih.applied step
  | failed download step ih => exact ih.failed step
  | requested headers download ih => exact ih.requested
  | begun download served status tagged below ih =>
      obtain ⟨rfl, whole, tag⟩ := whole_answer laws ih.epoch served status
      have carried := whole.trans (ih.same_bundle laws (tag.symm.trans tagged))
      exact ih.requested.extended carried below
  | resumed download started served status below ih =>
      obtain ⟨resp', served', answer⟩ := ih.answer laws started
      rw [served] at served'
      cases served'
      rcases answer with ⟨-, -, joined⟩ | ⟨whole, -⟩
      · exact ih.requested.extended joined below
      · rw [status] at whole
        cases whole

theorem lineageEpoch_visible (keccak256 : List UInt8 → List UInt8) (params : List SimpleServerParams) :
    Visible (lineageEpoch keccak256 params).toList := by
  have digit : ∀ n, visible (hexDigit n).toNat = true := by
    intro n
    by_cases small : n < 16
    · interval_cases n <;> decide
    · have beyond : hexDigit n = '0' := by
        unfold hexDigit
        rw [List.getD_eq_default]
        show 16 ≤ n
        omega
      rw [beyond]
      decide
  intro c hc
  simp only [lineageEpoch, String.toList_ofList, List.mem_flatMap, List.mem_cons, List.not_mem_nil,
    or_false] at hc
  obtain ⟨byte, -, rfl | rfl⟩ := hc
  · exact digit _
  · exact digit _

/-- A process as it starts: nothing cached, and an epoch that can stand in a header. -/
theorem starts_kept (keccak256 : List UInt8 → List UInt8) (first : RisePirServer C B) {capacity : Nat}
    (capacity_pos : 0 < capacity) (complete : Bool) (seeds : List BlockDelta) :
    Kept ((NodeState.new keccak256 first (.new capacity capacity_pos) complete).seedHistory seeds) ∧
      Visible ((NodeState.new keccak256 first (.new capacity capacity_pos)
        complete).seedHistory seeds).epoch.toList := by
  have seeded : ∀ (l : List BlockDelta) (n : NodeState C B),
      (n.seed l).setupCache = n.setupCache ∧ (n.seed l).epoch = n.epoch := by
    intro l
    induction l with
    | nil => exact fun n => ⟨rfl, rfl⟩
    | cons d l ih => exact fun n => ih _
  obtain ⟨cache, epoch⟩ := seeded seeds (NodeState.new keccak256 first (.new capacity capacity_pos) complete)
  constructor
  · constructor
    · intro cached hcached
      rw [NodeState.seedHistory, cache] at hcached
      cases hcached
    · intro cached hcached
      rw [NodeState.seedHistory, cache] at hcached
      cases hcached
  · rw [NodeState.seedHistory, epoch]
    exact lineageEpoch_visible keccak256 _

end Downloads

/-- For every run of a process, and a download in it that began with the bundle first served
under a tag and was cut anywhere: the next resume request is answered with the rest of that
bundle, or with a whole bundle under its own tag, which is another one while offsets are `u64`.
And for every text and total, `parse_range` returns what the text says, in range for a slice. -/
theorem resumable_setup (laws : http.Laws) (keccak256 : List UInt8 → List UInt8) (first : RisePirServer C B) {capacity : Nat}
    (capacity_pos : 0 < capacity) (complete : Bool) (seeds : List BlockDelta) :
    (∀ (etag : HeaderValue) (body : List UInt8) (stopped : Bool) (node : NodeState C B)
        (parts : List (List UInt8)),
      Download http ((NodeState.new keccak256 first (.new capacity capacity_pos)
        complete).seedHistory seeds) etag body stopped node parts → parts ≠ [] →
      ∃ node' resp, setupHandler http node (resumeHeaders http etag parts.flatten.length) = (node', some resp) ∧
        ((resp.status = 206 ∧ resp.header "etag" = some etag ∧ parts.flatten ++ resp.body = body) ∨
          (resp.status = 200 ∧ resp.body = encodeSetup node.setupBytes.2 ∧
            resp.header "etag" = http.fromStr (etagOf node.epoch node.setupBytes.2.block) ∧
            (resp.header "etag" = some etag → 2 ^ 64 ≤ parts.flatten.length)))) ∧
      ∀ (raw : List Char) (total : Nat), ∃ outcome, parseRange raw total = some outcome ∧
        ParsedRange raw total outcome ∧
        ∀ first last, outcome = .satisfiable first last → ∀ bytes : List UInt8, bytes.length = total →
          sliceInclusive bytes first last = some ((bytes.take (last + 1)).drop first) := by
  constructor
  · intro etag body stopped node parts download started
    obtain ⟨kept, epoch⟩ := starts_kept keccak256 first capacity_pos complete seeds
    have continues := download.continues laws kept epoch
    obtain ⟨resp, served, answer⟩ := continues.answer laws started
    exact ⟨node.setupBytes.1, resp, served, answer⟩
  · intro raw total
    obtain ⟨outcome, parsed, spec⟩ := parseRange_spec raw total
    refine ⟨outcome, parsed, spec, ?_⟩
    intro first last eq bytes length
    obtain ⟨ordered, below, -⟩ := spec.satisfiable first last eq
    apply sliceInclusive_of_le ordered
    omega

section Interrupted

/-- Headers as the `http` crate reads and writes visible text. -/
private def asciiHeaders : HeaderCode where
  toStr value :=
    if value.all fun byte => visible byte.toNat then
      some (value.map fun byte => Char.ofNat byte.toNat)
    else none
  fromStr text :=
    if text.all fun c => visible c.toNat then some (text.map fun c => UInt8.ofNat c.toNat) else none

private theorem asciiHeaders_laws : asciiHeaders.Laws := by
  intro text shown
  have small : ∀ c ∈ text, c.toNat < 256 := by
    intro c hc
    have := shown c hc
    simp only [visible, decide_eq_true_eq] at this
    omega
  have code : ∀ c ∈ text, (UInt8.ofNat c.toNat).toNat = c.toNat := by
    intro c hc
    simpa using small c hc
  have all : (text.map fun c => UInt8.ofNat c.toNat).all (fun byte => visible byte.toNat) = true := by
    simp only [List.all_eq_true, List.mem_map]
    rintro byte ⟨c, hc, rfl⟩
    rw [code c hc]
    exact shown c hc
  have made : asciiHeaders.fromStr text = some (text.map fun c => UInt8.ofNat c.toNat) := by
    apply if_pos
    simpa [Visible] using shown
  refine ⟨_, made, (if_pos all).trans ?_⟩
  rw [List.map_map]
  congr 1
  calc text.map ((fun byte : UInt8 => Char.ofNat byte.toNat) ∘ fun c => UInt8.ofNat c.toNat)
      = text.map id := by
        apply List.map_congr_left
        intro c hc
        simp [code c hc]
    _ = text := List.map_id text

private def freshNode : SmallNode :=
  (NodeState.new smallDigest (smallServer 0) (.new 8 pos_eight) true).seedHistory []

private def fifthCoin : BlockUpdate := ⟨1, [(smallKey 3 1 0 0, 5)], []⟩

theorem setup_longer (bundle : SetupBundle) : 5 < (encodeSetup bundle).length := by
  simp only [encodeSetup, SETUP_MAGIC, List.length_append, List.length_cons, List.length_nil,
    leBytes_length]
  omega

/-- While the tag is still the current one, the answer is a part. -/
private theorem partial_while_current {etag : HeaderValue} {body got : List UInt8} {node : SmallNode}
    {resp : SetupResponse} (current : http.fromStr (etagOf node.epoch node.setupBytes.2.block) = some etag)
    (near : got.length < 2 ^ 64)
    (answer : (resp.status = 206 ∧ resp.header "etag" = some etag ∧ got ++ resp.body = body) ∨
      (resp.status = 200 ∧ resp.body = encodeSetup node.setupBytes.2 ∧
        resp.header "etag" = http.fromStr (etagOf node.epoch node.setupBytes.2.block) ∧
        (resp.header "etag" = some etag → 2 ^ 64 ≤ got.length))) :
    resp.status = 206 ∧ got ++ resp.body = body := by
  rcases answer with ⟨status, -, joined⟩ | ⟨-, -, tagged, far⟩
  · exact ⟨status, joined⟩
  · have := far (tagged.trans current)
    omega

/-- Cut after three bytes, then, past block 1, after two more. -/
theorem resumable_setup_cutTwice : ∃ (etag : HeaderValue) (body : List UInt8) (node : SmallNode)
    (parts : List (List UInt8)) (node' : SmallNode) (resp : SetupResponse),
    parts.flatten.length = 5 ∧ node.server.block = 1 ∧
      setupHandler asciiHeaders node (resumeHeaders asciiHeaders etag 5) = (node', some resp) ∧ resp.status = 206 ∧
      parts.flatten ++ resp.body = body := by
  have epoch : Visible freshNode.epoch.toList := lineageEpoch_visible smallDigest _
  obtain ⟨tags, tagged, served⟩ := setupHandler_respond asciiHeaders_laws epoch ⟨none, none, none⟩
  have block : freshNode.setupBytes.2.block = 0 := by decide
  rw [block] at tagged
  obtain ⟨body, whole⟩ : ∃ body, encodeSetup freshNode.setupBytes.2 = body := ⟨_, rfl⟩
  have long := setup_longer freshNode.setupBytes.2
  rw [whole] at served long
  have opened : Download asciiHeaders freshNode tags.etag body false freshNode.setupBytes.1 [body.take 3] :=
    Download.published (.start freshNode) served rfl (full_header tags _) rfl
      (.inr ⟨3, show 3 < body.length by omega, rfl⟩)
  have ok : (freshNode.setupBytes.1.applyBlockReporting (draw 0) fifthCoin).2.toOption.isSome = true := by
    decide
  cases step : freshNode.setupBytes.1.applyBlockReporting (draw 0) fifthCoin with
  | mk node r =>
      rw [step] at ok
      cases r with
      | error e => cases ok
      | ok out =>
          have after : node = (freshNode.setupBytes.1.applyBlockReporting (draw 0) fifthCoin).1 := by
            rw [step]
          have head : node.server.block = 1 := by
            rw [after]
            decide
          have again : node.setupBytes.2.block = 0 ∧ node.setupBytes.1.setupBytes.2.block = 0 := by
            rw [after]
            decide
          have lineage : node.epoch = freshNode.epoch := (applied_keeps step).2.2
          have moved := Download.applied opened (by decide) step
          have three : [body.take 3].flatten.length = 3 := by
            simp
            omega
          obtain ⟨node₁, resp, answered, answer⟩ := (resumable_setup asciiHeaders_laws smallDigest (smallServer 0)
            (by omega) true []).1 _ _ _ _ _ moved (by simp)
          have near : [body.take 3].flatten.length < 2 ^ 64 := by omega
          obtain ⟨status, joined⟩ := partial_while_current (by rw [lineage, again.1, tagged]) near answer
          have longer : 2 < resp.body.length := by
            have total := congrArg List.length joined
            rw [List.length_append] at total
            omega
          have twice := Download.resumed moved (by simp) answered status longer
          have five : ([body.take 3] ++ [resp.body.take 2]).flatten.length = 5 := by
            simp
            omega
          obtain ⟨node₂, last, answered', answer'⟩ := (resumable_setup asciiHeaders_laws smallDigest (smallServer 0)
            (by omega) true []).1 _ _ _ _ _ twice (by simp)
          have kept : node₁ = node.setupBytes.1 := congrArg Prod.fst answered.symm
          subst kept
          obtain ⟨server, epoch_eq, -⟩ := setupBytes_keeps node
          have near' : ([body.take 3] ++ [resp.body.take 2]).flatten.length < 2 ^ 64 := by omega
          obtain ⟨status', joined'⟩ := partial_while_current (by rw [epoch_eq, lineage, again.2, tagged])
            near' answer'
          rw [five] at answered'
          exact ⟨tags.etag, body, node.setupBytes.1, _, node₂, last, five, by rw [server, head], answered',
            status', joined'⟩

end Interrupted

end RisePir.Http.Resume
