import RisePir.Rpc.Epochs
import RisePir.Rpc.Moves

set_option autoImplicit false
set_option relaxedAutoImplicit false

/-! What a session's rolling delta covers: exactly the blocks from the one its hint is pinned
at to its pending head, under the epoch and the mode of the setup response behind the hint. -/

namespace RisePir.Rpc.Coverage

open Relation
open RisePir.Lib.Sparse
open RisePir.Proto.Types
open RisePir.Proto.Codec
open RisePir.Proto.Value
open RisePir.Upstream.Cuckoo
open RisePir.Upstream.Pir
open RisePir.Upstream.ReferencePir
open RisePir.Upstream.ReferenceTable
open RisePir.Client.Core
open RisePir.Client.Delta
open RisePir.Client.EndToEnd
open RisePir.Client.Rewind
open RisePir.Server.Core
open RisePir.Server.CellDelta
open RisePir.Server.DeltaRing
open RisePir.Server.Run
open RisePir.Server.Small
open RisePir.Server.Telescope
open RisePir.Http.Bundles
open RisePir.Http.Lifetime
open RisePir.Http.Node
open RisePir.Http.Serving
open RisePir.Http.SetupWindow
open RisePir.Rpc.Epochs
open RisePir.Rpc.Moves
open RisePir.Rpc.NativeSession

variable {T : Tables} {B : PirBackend}

/-- One delta of a session: the node it came from and the range it was asked for. -/
structure Link (T : Tables) (B : PirBackend) where
  node : AnyNode T B
  fromBlock : Nat
  toBlock : Nat
  delta : BlockDelta

/-- The blocks whose deltas are summed in a link. -/
def Link.blocks (l : Link T B) : List Nat :=
  (l.node.node.ring.selected l.fromBlock l.toBlock).map BlockDelta.block

/-- A link of a node under the epoch: one retained delta for each block of its range, and
their sum. -/
structure Genuine (world : AnyNode T B → Prop) (epoch : String) (l : Link T B) : Prop where
  reached : world l.node
  epoch : l.node.node.epoch = epoch
  ahead : l.fromBlock < l.toBlock
  blocks : l.blocks = List.range' (l.fromBlock + 1) (l.toBlock - l.fromBlock)
  summed : l.node.node.ring.range l.fromBlock l.toBlock = some l.delta
  canonical : l.delta.IsCanonical
  magnitude : ∀ j row offset, |l.delta.at j row offset| < 2 ^ 31

/-- Links from one block to another, each beginning where the last one ended. -/
inductive Chain : Nat → List (Link T B) → Nat → Prop
  | nil (block : Nat) : Chain block [] block
  | snoc {start : Nat} {links : List (Link T B)} {l : Link T B} (init : Chain start links l.fromBlock) :
      Chain start (links ++ [l]) l.toBlock

/-- The sum of the links' deltas at a cell. -/
def linkSum (links : List (Link T B)) (j row offset : Nat) : Int :=
  (links.map fun l => l.delta.at j row offset).sum

theorem linkSum_append (links : List (Link T B)) (l : Link T B) (j row offset : Nat) :
    linkSum (links ++ [l]) j row offset = linkSum links j row offset + l.delta.at j row offset := by
  simp [linkSum]

variable {world : AnyNode T B → Prop} {epoch : String} {links : List (Link T B)} {start stop : Nat}

theorem Chain.le (h : Chain start links stop) (genuine : ∀ l ∈ links, Genuine world epoch l) :
    start ≤ stop := by
  induction h with
  | nil => exact Nat.le_refl _
  | snoc init ih =>
      have first := ih fun l hl => genuine l (by simp [hl])
      exact first.trans (genuine _ (by simp)).ahead.le

/-- A chain covers each block once and in order. -/
theorem Chain.blocks (h : Chain start links stop) (genuine : ∀ l ∈ links, Genuine world epoch l) :
    links.flatMap Link.blocks = List.range' (start + 1) (stop - start) := by
  induction h with
  | nil => simp
  | @snoc links l init ih =>
      have earlier : ∀ m ∈ links, Genuine world epoch m := fun m hm => genuine m (by simp [hm])
      have last := genuine l (by simp)
      have le := init.le earlier
      have ahead := last.ahead
      rw [List.flatMap_append, ih earlier, List.flatMap_singleton, last.blocks]
      obtain ⟨m, hm⟩ := Nat.exists_eq_add_of_le le
      obtain ⟨n, hn⟩ := Nat.exists_eq_add_of_le ahead.le
      rw [hn, hm, show start + m - start = m by omega, show start + m + n - (start + m) = n by omega,
        show start + m + n - start = m + n by omega, show start + m + 1 = start + 1 + m by omega,
        List.range'_append_1]

/-- The nodes of an epoch stand on one lineage. -/
def OneHistory (world : AnyNode T B → Prop) (keccak256 : List UInt8 → List UInt8) (codec : ValueCodec)
    (epoch : String) : Prop :=
  ∃ L : Lineage T B keccak256 codec, ∀ n, world n → n.node.epoch = epoch →
    ∃ node i, n = ⟨L.params, node⟩ ∧ L.Holds node i

/-- Fewer deltas than could overflow an `i64`, or an epoch that is one lineage. -/
def Bounded (world : AnyNode T B → Prop) (keccak256 : List UInt8 → List UInt8) (codec : ValueCodec)
    (epoch : String) (links : List (Link T B)) : Prop :=
  links.length < 2 ^ 32 ∨ OneHistory world keccak256 codec epoch

/-- The rolling delta is the sum of the links, cell by cell. -/
structure Exact {p : CuckooParams} {C : SegmentedCuckoo p} (client : RisePirClient C B)
    (links : List (Link T B)) : Prop where
  segments : client.delta.perSegment.length = p.arity
  noZeros : client.delta.NoZeros
  sums : ∀ j row offset, client.delta.at j row offset = linkSum links j row offset

/-- What a session holds: the hint of one setup response, that response's mode and epoch, and
a rolling delta that leads from its block to the pending head. -/
structure Covers (world : AnyNode T B → Prop) (keccak256 : List UInt8 → List UInt8) (codec : ValueCodec)
    (a : AnySession T B) (home : AnyNode T B) (links : List (Link T B)) : Prop where
  reached : world home
  params : a.params = home.params
  epoch : a.session.epoch = home.node.epoch
  arity : a.session.arity = home.params.arity
  mode : a.session.strictNotFound = !home.node.complete
  pinned : a.session.client.pinnedBlock = home.node.setupBytes.2.block
  hints : ∀ (j : Nat) st, a.session.client.states[j]? = some st → ∃ sp hint,
    home.node.setupBytes.2.backendParams[j]? = some sp ∧ home.node.setupBytes.2.hints[j]? = some hint ∧
      B.stateParams st = sp ∧ B.stateHint st = hint
  head : a.session.client.delta.head = a.session.pendingHead
  chain : Chain a.session.client.pinnedBlock links a.session.pendingHead
  genuine : ∀ l ∈ links, Genuine world a.session.epoch l
  exact : Bounded world keccak256 codec a.session.epoch links → Exact a.session.client links

section Sums

theorem linkSum_magnitude (genuine : ∀ l ∈ links, Genuine world epoch l) (j row offset : Nat) :
    |linkSum links j row offset| ≤ links.length * (2 ^ 31 - 1) := by
  induction links with
  | nil => simp [linkSum]
  | cons l links ih =>
      have first := (genuine l (by simp)).magnitude j row offset
      have rest := ih fun m hm => genuine m (List.mem_cons_of_mem l hm)
      have cons : linkSum (l :: links) j row offset = l.delta.at j row offset +
          linkSum links j row offset := rfl
      have sum := abs_add_le (l.delta.at j row offset) (linkSum links j row offset)
      rw [cons]
      push_cast [List.length_cons]
      omega

variable {keccak256 : List UInt8 → List UInt8} {codec : ValueCodec}

/-- On a lineage, a link is the sum of the lineage's deltas over its range. -/
theorem link_sum (logLaws : ∀ p, (T p).LogLaws) {L : Lineage T B keccak256 codec}
    (on : ∀ n, world n → n.node.epoch = epoch → ∃ node i, n = ⟨L.params, node⟩ ∧ L.Holds node i)
    {l : Link T B} (genuine : Genuine world epoch l) (j row offset : Nat) :
    l.delta.at j row offset =
      sumAt (between (L.deltas 0 L.blocks) l.fromBlock l.toBlock) j row offset := by
  obtain ⟨node, i, hn, holds⟩ := on l.node genuine.reached genuine.epoch
  have run := L.run (Nat.zero_le i) holds.inside
  have head := L.block_eq logLaws holds.inside
  have word := L.word
  have inside := holds.inside
  have history := run_history (logLaws _) run (by omega)
  have summed := genuine.summed
  rw [hn] at summed
  have below : ∀ d ∈ L.deltas 0 i, d.block ≤ (L.server i).block :=
    fun d hd => (run_inside (logLaws _) run hd).2
  obtain ⟨-, le, -, -, sums⟩ := history.range_served below (by omega) holds.ring summed
  have later : between (L.deltas i L.blocks) l.fromBlock l.toBlock = [] :=
    List.filter_eq_nil_iff.mpr fun d hd => by
      have := run_inside (logLaws _) (L.run holds.inside (Nat.le_refl _)) hd
      simp
      omega
  rw [sums, between, between, Lineage.deltas_append (Nat.zero_le i) holds.inside, List.filter_append,
    ← between, ← between, later, List.append_nil]

theorem chain_sum (logLaws : ∀ p, (T p).LogLaws) {L : Lineage T B keccak256 codec}
    (on : ∀ n, world n → n.node.epoch = epoch → ∃ node i, n = ⟨L.params, node⟩ ∧ L.Holds node i)
    (h : Chain start links stop) (genuine : ∀ l ∈ links, Genuine world epoch l) (j row offset : Nat) :
    linkSum links j row offset =
      sumAt (between (L.deltas 0 L.blocks) start stop) j row offset := by
  induction h with
  | nil =>
      have none : between (L.deltas 0 L.blocks) start start = [] :=
        List.filter_eq_nil_iff.mpr fun d _ => by
          simp only [decide_eq_true_eq]
          omega
      rw [none]
      rfl
  | @snoc links l init ih =>
      have earlier : ∀ m ∈ links, Genuine world epoch m := fun m hm => genuine m (by simp [hm])
      have last := genuine l (by simp)
      have first := sumAt_upTo (L.deltas 0 L.blocks) (init.le earlier) j row offset
      have second := sumAt_upTo (L.deltas 0 L.blocks) last.ahead.le j row offset
      have whole := sumAt_upTo (L.deltas 0 L.blocks) ((init.le earlier).trans last.ahead.le) j row offset
      rw [linkSum_append, ih earlier, link_sum logLaws on last]
      omega

/-- One more link keeps every sum within `i64`. -/
theorem ingest_fits (logLaws : ∀ p, (T p).LogLaws) (bounded : Bounded world keccak256 codec epoch links)
    (h : Chain start links stop) (genuine : ∀ l ∈ links, Genuine world epoch l) {l : Link T B}
    (next : Genuine world epoch l) (continues : l.fromBlock = stop) (j row offset : Nat) :
    InI64 (linkSum links j row offset) ∧
      InI64 (linkSum links j row offset + l.delta.at j row offset) := by
  rcases bounded with few | ⟨L, on⟩
  · have sum := abs_le.mp (linkSum_magnitude genuine j row offset)
    have last := abs_lt.mp (next.magnitude j row offset)
    have count : (links.length : Int) ≤ 2 ^ 32 - 1 := by omega
    unfold InI64
    constructor <;> constructor <;> nlinarith
  · subst continues
    have history := L.history logLaws
    rw [← linkSum_append]
    have all : ∀ m ∈ links ++ [l], Genuine world epoch m := by
      intro m hm
      rcases List.mem_append.mp hm with hm | hm
      · exact genuine m hm
      · rw [List.mem_singleton.mp hm]
        exact next
    constructor
    · rw [chain_sum logLaws on h genuine]
      exact inI64_of_magnitude (history.between_magnitude (h.le genuine) j row offset)
    · rw [chain_sum logLaws on (.snoc h) all]
      exact inI64_of_magnitude (history.between_magnitude ((Chain.snoc h).le all) j row offset)

end Sums

section Steps

variable {keccak256 : List UInt8 → List UInt8} {codec : ValueCodec} {a a' : AnySession T B}
  {home : AnyNode T B}

/-- What a fetch brings under the session's epoch is a genuine link. -/
theorem fetched_genuine (logLaws : ∀ p, (T p).LogLaws)
    (deployed : ∀ n, world n → Deployed keccak256 n.node) {plaintextBits arity fromBlock target : Nat}
    {delta : BlockDelta} (ahead : fromBlock < target)
    (fetched : Fetched world epoch plaintextBits arity fromBlock target delta) :
    ∃ n, Genuine world epoch ⟨n, fromBlock, target, delta⟩ ∧ delta.block = target ∧
      delta.perSegment.length = arity := by
  obtain ⟨n, reached, hepoch, summed, range, decoded⟩ := fetched
  obtain ⟨genesis, live, ds, -, retains⟩ := (deployed n reached).retains (logLaws _)
  obtain ⟨blocks, block, segments, canonical, small, own⟩ := retains.range_covers (logLaws _) range
  obtain ⟨rfl, rfl⟩ := decode_unique decoded own
  refine ⟨n, ⟨reached, hepoch.symm, ahead, blocks, range, canonical, fun j row offset => ?_⟩, block,
    segments⟩
  have pow : (2 : Int) ^ n.params.plaintextBits ≤ 2 ^ 31 :=
    pow_le_pow_right₀ (by omega) n.params.plaintextBits_range.2
  exact (small j row offset).trans_le pow

/-- What an ingest leaves alone, and the head it leaves. -/
theorem ingestDelta_head {p : CuckooParams} {C : SegmentedCuckoo p} {client client' : RisePirClient C B}
    {d : BlockDelta} {result : Except ClientError Unit}
    (step : client.ingestDelta d = (client', result)) :
    client'.states = client.states ∧ client'.pinnedBlock = client.pinnedBlock ∧
      client'.valueCodec = client.valueCodec ∧
      client'.delta.head = (match result with | .ok _ => d.block | .error _ => client.delta.head) := by
  unfold RisePirClient.ingestDelta PendingDelta.ingest at step
  by_cases old : d.block ≤ client.delta.head
  · rw [if_pos old] at step
    cases step
    exact ⟨rfl, rfl, rfl, rfl⟩
  by_cases count : d.perSegment.length ≠ client.delta.perSegment.length
  · rw [if_neg old, if_pos count] at step
    cases step
    exact ⟨rfl, rfl, rfl, rfl⟩
  rw [if_neg old, if_neg count] at step
  cases hms : ingestSegments client.delta.perSegment d.perSegment with
  | mk ms r =>
      rw [hms] at step
      cases r <;>
      · cases step
        exact ⟨rfl, rfl, rfl, rfl⟩

/-- A covered range that is still bounded takes the next delta whole. -/
theorem Covers.ingest (logLaws : ∀ p, (T p).LogLaws) (h : Covers world keccak256 codec a home links)
    {l : Link T B} (next : Genuine world a.session.epoch l) (continues : l.fromBlock = a.session.pendingHead)
    (block : l.delta.block = l.toBlock) (segments : l.delta.perSegment.length = a.session.arity)
    (bounded : Bounded world keccak256 codec a.session.epoch links) :
    ∃ client, a.session.client.ingestDelta l.delta = (client, .ok ()) ∧
      Exact client (links ++ [l]) := by
  have exact := h.exact bounded
  have fits := fun j row offset => ingest_fits logLaws bounded h.chain h.genuine next continues j row offset
  obtain ⟨pending, hpending, -, length, noZeros, sums⟩ := PendingDelta.ingest_ok exact.noZeros
    (show a.session.client.delta.head < l.delta.block by rw [h.head, block, ← continues]; exact next.ahead)
    (by rw [segments, h.arity, exact.segments, h.params]) next.canonical
    (fun j row offset => by rw [exact.sums]; exact (fits j row offset).1)
    (fun j row offset => by rw [exact.sums]; exact (fits j row offset).2)
  refine ⟨{ a.session.client with delta := pending }, ?_, ?_⟩
  · rw [RisePirClient.ingestDelta, hpending]
  · refine ⟨length.trans exact.segments, noZeros, fun j row offset => ?_⟩
    rw [linkSum_append, ← exact.sums]
    exact sums j row offset

theorem bounded_init {l : Link T B} (h : Bounded world keccak256 codec epoch (links ++ [l])) :
    Bounded world keccak256 codec epoch links :=
  h.imp (fun few => by rw [List.length_append, List.length_singleton] at few; omega) id

/-- A session made from a setup response. -/
theorem covers_fromBundle (logLaws : ∀ p, (T p).LogLaws) (clientLaws : B.ClientLaws)
    (deployed : ∀ n, world n → Deployed keccak256 n.node) {n : AnyNode T B} (reached : world n) :
    Covers world keccak256 codec
      (.fromBundle T B keccak256 n.node.setupBytes.2 codec n.node.complete) n [] := by
  obtain ⟨genesis, live, ds, -, retains⟩ := (deployed n reached).retains (logLaws _)
  obtain ⟨params, hepoch⟩ := retains.bundle_epoch (logLaws _)
  refine ⟨reached, params, hepoch, congrArg CuckooParams.arity params, rfl, rfl, fun j st hst => ?_, rfl,
    .nil _, by simp, fun _ => ⟨?_, PendingDelta.new_noZeros _ _, fun j row offset => ?_⟩⟩
  · simp only [AnySession.fromBundle, RisePirClient.fromSetup, List.getElem?_zipWith] at hst
    cases hsp : n.node.setupBytes.2.backendParams[j]? with
    | none => simp [hsp] at hst
    | some sp =>
        cases hhint : n.node.setupBytes.2.hints[j]? with
        | none => simp [hsp, hhint] at hst
        | some hint =>
            rw [hsp, hhint] at hst
            cases hst
            exact ⟨sp, hint, rfl, rfl, clientLaws.setup_params _ _, clientLaws.setup_hint _ _⟩
  · exact List.length_replicate
  · exact PendingDelta.at_new _ _ _ _ _

theorem Covers.move (logLaws : ∀ p, (T p).LogLaws) (clientLaws : B.ClientLaws)
    (deployed : ∀ n, world n → Deployed keccak256 n.node)
    (h : Covers world keccak256 codec a home links) (step : Move world keccak256 codec a a') :
    ∃ home' links', Covers world keccak256 codec a' home' links' := by
  cases step with
  | @ingested p s target delta client ahead fetched step =>
      obtain ⟨n, genuine, block, segments⟩ := fetched_genuine logLaws deployed ahead fetched
      obtain ⟨states, pinned, -, head⟩ := ingestDelta_head step
      dsimp only at head
      refine ⟨home, links ++ [⟨n, s.pendingHead, target, delta⟩], h.reached, h.params, h.epoch, h.arity,
        h.mode, pinned.trans h.pinned, ?_, head, ?_, ?_, fun bounded => ?_⟩
      · dsimp only
        rw [states]
        exact h.hints
      · dsimp only
        rw [pinned, block]
        exact .snoc h.chain
      · intro l hl
        rcases List.mem_append.mp hl with hl | hl
        · exact h.genuine l hl
        · rw [List.mem_singleton.mp hl]
          exact genuine
      · obtain ⟨client', step', exact⟩ := h.ingest logLaws genuine rfl block segments (bounded_init bounded)
        cases (Prod.mk.inj (step.symm.trans step')).1
        exact exact
  | @refused p s target delta client e ahead fetched step =>
      obtain ⟨n, genuine, block, segments⟩ := fetched_genuine logLaws deployed ahead fetched
      obtain ⟨states, pinned, -, head⟩ := ingestDelta_head step
      dsimp only at head
      refine ⟨home, links, h.reached, h.params, h.epoch, h.arity, h.mode, pinned.trans h.pinned, ?_,
        head.trans h.head, ?_, h.genuine, fun bounded => ?_⟩
      · dsimp only
        rw [states]
        exact h.hints
      · dsimp only
        rw [pinned]
        exact h.chain
      · obtain ⟨client', step', -⟩ := h.ingest logLaws genuine rfl block segments bounded
        cases (Prod.mk.inj (step.symm.trans step')).2
  | asked s coins key =>
      refine ⟨home, links, h.reached, h.params, h.epoch, h.arity, h.mode, h.pinned, fun j st hst => ?_,
        h.head, h.chain, h.genuine, fun bounded => ?_⟩
      · obtain ⟨st₀, row, h₀, -, rfl, -⟩ := buildQuery_states coins key hst
        rw [clientLaws.query_params, clientLaws.query_hint]
        exact h.hints j st₀ h₀
      · have exact := h.exact bounded
        exact ⟨exact.segments, exact.noZeros, exact.sums⟩
  | @replaced s n reached =>
      exact ⟨n, [], covers_fromBundle logLaws clientLaws deployed reached⟩

theorem Covers.moves (logLaws : ∀ p, (T p).LogLaws) (clientLaws : B.ClientLaws)
    (deployed : ∀ n, world n → Deployed keccak256 n.node)
    (h : ∃ home links, Covers world keccak256 codec a home links)
    (steps : ReflTransGen (Move world keccak256 codec) a a') :
    ∃ home links, Covers world keccak256 codec a' home links := by
  induction steps with
  | refl => exact h
  | tail steps step ih =>
      obtain ⟨home, links, covers⟩ := ih
      exact covers.move logLaws clientLaws deployed step

/-- A number read off a session: a node under the session's epoch answered its query at the
block the rolling delta has reached, and an absent account is zero only because the setup
response behind the hint said the deployment is complete. -/
structure ReadAt (world : AnyNode T B → Prop) (key : AddressHash) (a : AnySession T B)
    (home n : AnyNode T B) (b : Balance) : Prop where
  reached : world n
  epoch : n.node.epoch = home.node.epoch
  block : n.node.server.block = a.session.client.delta.head
  answer : ∃ queries body responses lookup, ∃ ctx : QueryCtx, ctx.queries = queries ∧
    answerBody n.node (some a.session.epoch) (encodeQueryBundle queries) = .ok body ∧
    decodeResponseBundle body a.session.reshapeRowWidthPerSeg a.session.arity =
      .ok (responses, n.node.server.block) ∧
    a.session.client.finish .simple key ctx responses n.node.server.block = some (.ok lookup) ∧
    (lookup = .found b ∨ (lookup = .notFound ∧ home.node.complete = true ∧ b = 0))

/-- A lookup finishes only where the pending delta ends. -/
theorem finish_ok_head {p : CuckooParams} {C : SegmentedCuckoo p} {client : RisePirClient C B}
    {kind : ResponseRewind} {key : AddressHash} {ctx : QueryCtx} {responses : List Response} {atBlock : Nat}
    {lookup : Lookup} (h : client.finish kind key ctx responses atBlock = some (.ok lookup)) :
    client.delta.head = atBlock := by
  by_contra hne
  unfold RisePirClient.finish at h
  rw [if_pos (Ne.symm hne)] at h
  split at h <;> cases h

/-- A number means that the lookup succeeded at the rolling delta's head. -/
theorem finishLookup_ok {p : CuckooParams} {s : Session (T p) B} {key : AddressHash} {ctx : QueryCtx}
    {responses : List Response} {atBlock : Nat} {b : Balance}
    (h : finishLookup s key ctx responses atBlock = .ok b) : atBlock = s.client.delta.head ∧
      ∃ lookup, s.client.finish .simple key ctx responses atBlock = some (.ok lookup) ∧
        (lookup = .found b ∨ (lookup = .notFound ∧ s.strictNotFound = false ∧ b = 0)) := by
  unfold finishLookup at h
  cases hfinish : s.client.finish .simple key ctx responses atBlock with
  | none =>
      rw [hfinish] at h
      cases h
  | some result =>
      rw [hfinish] at h
      cases result with
      | error e => cases e <;> cases h
      | ok lookup =>
          constructor
          · exact (finish_ok_head hfinish).symm
          · refine ⟨lookup, rfl, ?_⟩
            cases lookup with
            | found balance =>
                cases h
                exact .inl rfl
            | decodeFailed => cases h
            | notFound =>
                unfold balanceOf at h
                cases hstrict : s.strictNotFound with
                | true => simp [hstrict] at h
                | false =>
                    simp only [hstrict, Bool.false_eq_true, if_false, Except.ok.injEq] at h
                    exact .inr ⟨rfl, rfl, h.symm⟩

theorem returns_readAt (logLaws : ∀ p, (T p).LogLaws) (clientLaws : B.ClientLaws)
    (deployed : ∀ n, world n → Deployed keccak256 n.node)
    (h : ∃ home links, Covers world keccak256 codec a home links) {key : AddressHash}
    {n : AnyNode T B} {b : Balance} (returns : Returns world keccak256 codec key a a' n b) :
    ∃ home links, Covers world keccak256 codec a' home links ∧ ReadAt world key a' home n b := by
  obtain ⟨p, coins, s, s', toStart, numbered, rfl⟩ := returns
  obtain @⟨asking, body, responses, atBlock, rest, rest', before, reached, answered, decoded, replies,
    synced, finished⟩ := numbered
  have asked := ((toStart.trans before).tail (.asked asking coins key))
  have followed := syncTo_moves keccak256 codec
    { asking with client := (asking.client.buildQuery coins key).1 } replies atBlock
  have cases := (syncTo_cases
    { asking with client := (asking.client.buildQuery coins key).1 } replies atBlock).2
  rw [synced] at followed cases
  have kept : s'.epoch = asking.epoch ∧ s'.arity = asking.arity ∧
      s'.reshapeRowWidthPerSeg = asking.reshapeRowWidthPerSeg := by
    obtain ⟨-, eq⟩ | ⟨halt, eq⟩ | ⟨-, delta, client, -, ⟨-, eq⟩ | ⟨e, -, eq⟩⟩ := cases
    · rw [(Prod.mk.inj eq).1]
      exact ⟨rfl, rfl, rfl⟩
    · cases (Prod.mk.inj (Prod.mk.inj eq).2).2
    · rw [(Prod.mk.inj eq).1]
      exact ⟨rfl, rfl, rfl⟩
    · cases (Prod.mk.inj (Prod.mk.inj eq).2).2
  obtain ⟨home, links, covers⟩ := Covers.moves logLaws clientLaws deployed h (asked.trans followed)
  obtain ⟨hepoch, queries, written, -, -, hbody⟩ := answerBody_ok answered
  obtain ⟨genesis, live, ds, -, retains⟩ := (deployed n reached).retains (logLaws _)
  have word : n.node.server.block < 2 ^ 64 := by
    have := congrArg SetupBundle.block retains.setup
    change live.block = n.node.server.block at this
    rw [← this]
    exact retains.word
  have atHead : atBlock = n.node.server.block := by
    rw [hbody] at decoded
    exact decodeResponseBundle_block word decoded
  obtain ⟨block, lookup, hfinish, value⟩ := finishLookup_ok finished
  refine ⟨home, links, covers, reached, ?_, atHead.symm.trans block, _, body, responses, lookup,
    (asking.client.buildQuery coins key).2.2, rfl, ?_, ?_, ?_, value.imp_right fun ⟨absent, mode, zero⟩ => ?_⟩
  · rw [← hepoch, ← kept.1]
    exact covers.epoch
  · dsimp only
    rw [kept.1]
    exact answered
  · dsimp only
    rw [kept.2.1, kept.2.2, ← atHead]
    exact decoded
  · rw [← atHead]
    exact hfinish
  · have := covers.mode
    dsimp only at this
    rw [mode] at this
    exact ⟨absent, by simpa using this.symm, zero⟩

end Steps

/-- Whatever the calls on a session, their order, and the nodes they meet: at its end the
session covers exactly the blocks from its setup response to its pending head, once each, and a
number it then returns is read where the rolling delta stands. -/
theorem session_synchronised (logLaws : ∀ p, (T p).LogLaws) (clientLaws : B.ClientLaws)
    {world : AnyNode T B → Prop} {keccak256 : List UInt8 → List UInt8}
    (deployed : ∀ n, world n → Deployed keccak256 n.node) (codec : ValueCodec) {first : AnyNode T B}
    (reached : world first) {calls : List (Call T B)}
    (replies : ∀ call ∈ calls, From world call.awaits) :
    let eth := calls.foldl (Call.perform keccak256)
      (.fromSetup T B keccak256 first.node.setupBytes.2 first.node.complete codec)
    (∃ home links, Covers world keccak256 codec eth.session home links ∧
      links.flatMap Link.blocks = List.range' (eth.session.session.client.pinnedBlock + 1)
        (eth.session.session.pendingHead - eth.session.session.client.pinnedBlock)) ∧
    ∀ key coins coins' now awaits b, From world awaits →
      (eth.getBalance keccak256 coins coins' now key awaits).2.2 = .ok b →
      ∃ home links n,
        Covers world keccak256 codec (eth.getBalance keccak256 coins coins' now key awaits).1.session
          home links ∧
        ReadAt world key (eth.getBalance keccak256 coins coins' now key awaits).1.session home n b := by
  intro eth
  have start : ∃ home links, Covers world keccak256 codec
      (PrivateEth.fromSetup T B keccak256 first.node.setupBytes.2 first.node.complete codec).session
      home links :=
    ⟨first, [], covers_fromBundle logLaws clientLaws deployed reached⟩
  obtain ⟨moves, codec_eq⟩ := run_moves keccak256
    (.fromSetup T B keccak256 first.node.setupBytes.2 first.node.complete codec) replies
  have after := Covers.moves logLaws clientLaws deployed start moves
  constructor
  · obtain ⟨home, links, covers⟩ := after
    exact ⟨home, links, covers, covers.chain.blocks covers.genuine⟩
  · intro key coins coins' now awaits b h hb
    obtain ⟨-, -, number⟩ := getBalance_moves keccak256 eth h coins coins' now key
    have same : eth.valueCodec = codec := codec_eq
    rw [same] at number
    obtain ⟨n, -, returns⟩ := number b hb
    obtain ⟨home, links, covers, reads⟩ := returns_readAt logLaws clientLaws deployed after returns
    exact ⟨home, links, n, covers, reads⟩

private def firstEntryBlock : BlockUpdate := ⟨1, [(smallKey 3 1 0 0, 5)], []⟩

private def regressedNode : AnyNode referenceTable referencePir := ⟨smallParams, smallNode⟩

private def advancedNode : AnyNode referenceTable referencePir :=
  ⟨smallParams, (smallNode.applyBlockReporting (draw 0) firstEntryBlock).1⟩

private def twoNodes (n : AnyNode referenceTable referencePir) : Prop :=
  n = regressedNode ∨ n = advancedNode

private def probeCoins (_ : Nat) : referencePir.Coins := Coins.mk 0 [5]

/-- An answer that never arrives, then a node that has gone back to an older head. -/
private def interruptedCalls : List (Call referenceTable referencePir) :=
  [.getBalance (smallKey 3 1 0 0) probeCoins probeCoins 0
      [.served advancedNode true, .failed (.network "")],
    .followOnce [.served regressedNode true]]

private def servedReplies : List (Reply referenceTable referencePir) :=
  [.served advancedNode true, .served advancedNode true]

private def probedSession : PrivateEth referenceTable referencePir :=
  interruptedCalls.foldl (Call.perform smallDigest)
    (.fromSetup referenceTable referencePir smallDigest advancedNode.node.setupBytes.2
      advancedNode.node.complete smallCodec)

private theorem twoNodes_deployed (n : AnyNode referenceTable referencePir) (h : twoNodes n) :
    Deployed smallDigest n.node := by
  have wellFormed := (smallServer_hintsMatch 0).1
  rcases h with rfl | rfl
  · exact .mk wellFormed (.nil _) (List.suffix_refl []) (by omega) (.start smallNode) (by decide)
  · cases step : smallNode.applyBlockReporting (draw 0) firstEntryBlock with
    | mk node r =>
        have ok : (smallNode.applyBlockReporting (draw 0) firstEntryBlock).2.toOption.isSome = true := by
          decide
        have after : advancedNode.node = node := by
          change (smallNode.applyBlockReporting (draw 0) firstEntryBlock).1 = node
          rw [step]
        rw [step] at ok
        cases r with
        | error e => cases ok
        | ok out =>
            rw [after]
            refine .mk wellFormed (.nil _) (List.suffix_refl []) (by omega)
              (.applied (.start smallNode) (by decide) step) ?_
            rw [← after]
            decide

/-- A session that was interrupted and met an older head reads the balance at block 1. -/
theorem session_synchronised_interrupted : ∃ home links n,
    (probedSession.getBalance smallDigest probeCoins probeCoins 0 (smallKey 3 1 0 0)
      servedReplies).2.2 = .ok 5 ∧
    Covers twoNodes smallDigest smallCodec (probedSession.getBalance smallDigest probeCoins probeCoins 0
      (smallKey 3 1 0 0) servedReplies).1.session home links ∧
    ReadAt twoNodes (smallKey 3 1 0 0) (probedSession.getBalance smallDigest probeCoins probeCoins 0
      (smallKey 3 1 0 0) servedReplies).1.session home n 5 := by
  have number : (probedSession.getBalance smallDigest probeCoins probeCoins 0 (smallKey 3 1 0 0)
      servedReplies).2.2 = .ok 5 := by rfl
  have interrupted : ∀ call ∈ interruptedCalls, From twoNodes call.awaits := by
    intro call hcall reply hreply n modeHeader served
    simp only [interruptedCalls, List.mem_cons, List.not_mem_nil, or_false] at hcall
    rcases hcall with rfl | rfl
    · simp only [Call.awaits, List.mem_cons, List.not_mem_nil, or_false] at hreply
      rcases hreply with rfl | rfl
      · cases served
        exact ⟨.inr rfl, rfl⟩
      · cases served
    · simp only [Call.awaits, List.mem_cons, List.not_mem_nil, or_false] at hreply
      subst hreply
      cases served
      exact ⟨.inl rfl, rfl⟩
  have served : From twoNodes servedReplies := by
    intro reply hreply n modeHeader served
    simp only [servedReplies, List.mem_cons, List.not_mem_nil, or_false, or_self] at hreply
    subst hreply
    cases served
    exact ⟨.inr rfl, rfl⟩
  have reached : twoNodes advancedNode := .inr rfl
  obtain ⟨home, links, n, covers, reads⟩ :=
    (session_synchronised logLaws clientLaws twoNodes_deployed smallCodec reached interrupted).2
      (smallKey 3 1 0 0) probeCoins probeCoins 0 servedReplies 5 served number
  exact ⟨home, links, n, number, covers, reads⟩

end RisePir.Rpc.Coverage
