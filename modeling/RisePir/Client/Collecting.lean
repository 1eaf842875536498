import RisePir.Client.Accumulation
import RisePir.Client.EndToEnd

set_option autoImplicit false
set_option relaxedAutoImplicit false

/-! Garbage collection changes nothing a lookup can see: two clients that ingest the same
deltas, one of them folding its pending delta into its hints at any points, finish every
lookup alike. -/

namespace RisePir.Client.Collecting

open RisePir.Lib.Sparse
open RisePir.Proto.Types
open RisePir.Proto.Value
open RisePir.Upstream.Cuckoo
open RisePir.Upstream.Pir
open RisePir.Upstream
open RisePir.Upstream.ReferencePir
open RisePir.Upstream.ReferenceTable
open RisePir.Client.Delta
open RisePir.Client.Rewind
open RisePir.Client.Core
open RisePir.Client.Tracking
open RisePir.Client.Lookup
open RisePir.Client.EndToEnd
open RisePir.Client.Accumulation
open RisePir.Server.Core
open RisePir.Server.CellDelta
open RisePir.Server.Telescope
open RisePir.Server.Run
open RisePir.Server.Small

variable {p : CuckooParams} {C : SegmentedCuckoo p} {B : PirBackend}

/-- A client state: the hints of block `pinned`, and pending what the server published from
there to `head`. -/
structure Holds (client : RisePirClient C B) (pinned head : RisePirServer C B) : Prop where
  tracks : Tracks client pinned head
  pinnedBlock : client.pinnedBlock = pinned.block
  pending : ∃ ds, BlockRun pinned ds head

/-- What a client is asked to do between lookups: ingest one delta or the coalesced delta of
a range, or collect garbage up to some block, whether that is its head or not. -/
inductive Event
  | single (d : BlockDelta)
  | range (ds : List BlockDelta)
  | collect (upto : Nat)

namespace Event

/-- The published deltas that an event delivers. -/
def blocks : Event → List BlockDelta
  | .single d => [d]
  | .range ds => ds
  | .collect _ => []

def Proper (event : Event) : Prop := event ≠ .range []

def delivers : Event → Bool
  | .single _ | .range _ => true
  | .collect _ => false

/-- One event; `none` when a delta is refused. A refused collection is ignored. -/
def run (client : RisePirClient C B) : Event → Option (RisePirClient C B)
  | .single d => (ClientStep.single d).run client
  | .range ds => (ClientStep.range ds).run client
  | .collect upto => some (client.collectGarbage upto).1

end Event

section Steps

variable {client : RisePirClient C B} {pinned head head' : RisePirServer C B}

theorem collect_refused {upto : Nat} (h : upto ≠ client.delta.head) :
    client.collectGarbage upto = (client, .error (.gcTargetMismatch client.delta.head upto)) := by
  rw [RisePirClient.collectGarbage, if_pos h]

theorem collect_nothing (h : client.delta.head = client.pinnedBlock) :
    client.collectGarbage client.delta.head = (client, .ok ()) := by
  rw [RisePirClient.collectGarbage, if_neg (by simp), if_pos h]

theorem collect_pending (h : client.delta.head ≠ client.pinnedBlock) :
    client.collectGarbage client.delta.head = (Tracks.folded client, .ok ()) := by
  rw [RisePirClient.collectGarbage, if_neg (by simp), if_neg h]
  rfl

/-- Pinned at the head, a client has nothing pending. -/
theorem Holds.nothing_pending (logLaws : C.LogLaws) (h : Holds client pinned head)
    (same : client.delta.head = client.pinnedBlock) :
    pinned = head ∧ client.delta = .new p.arity head.block := by
  obtain ⟨ds, run⟩ := h.pending
  have blocks := run.block logLaws
  rw [h.tracks.headBlock, h.pinnedBlock] at same
  obtain rfl : ds = [] := List.length_eq_zero_iff.mp (by omega)
  cases run
  refine ⟨rfl, ?_⟩
  have zero : ∀ j row offset, client.delta.at j row offset = 0 := by
    intro j row offset
    by_cases inside : j < p.arity ∧ row < p.segmentSize ∧ offset < p.rowWidth
    · have moved := h.tracks.moved j row offset inside.1 inside.2.1 inside.2.2
      omega
    · exact h.tracks.outside j row offset inside
  have empty : ∀ m ∈ client.delta.perSegment, m = ∅ := by
    intro m hm
    obtain ⟨j, hj, rfl⟩ := List.getElem_of_mem hm
    refine segmentDelta_ext (h.tracks.noZeros _ hm) noZeros_empty fun i => ?_
    have value := zero j i.1 i.2
    rw [PendingDelta.at, PendingDelta.segment, List.getD_eq_getElem _ _ hj] at value
    rw [value, at_empty]
  have segments : client.delta.perSegment = List.replicate p.arity ∅ :=
    List.eq_replicate_iff.mpr ⟨h.tracks.segments, empty⟩
  have headBlock := h.tracks.headBlock
  rcases hdelta : client.delta with ⟨perSegment, block⟩
  rw [hdelta] at segments headBlock
  dsimp only at segments headBlock
  rw [segments, headBlock]
  rfl

/-- A patched state is still in flight with its query. -/
theorem folded_inFlight (laws : B.Lawful) {ctx : QueryCtx} {key : AddressHash}
    (flight : InFlight client ctx key) : InFlight (Tracks.folded client) ctx key := by
  refine ⟨flight.rows, flight.queries, fun j st hst => ?_⟩
  have mapped : (Tracks.folded client).states[j]? =
      client.states[j]?.map (client.patchState j) := List.getElem?_mapIdx
  rw [mapped] at hst
  obtain ⟨st₀, h₀, rfl⟩ := Option.map_eq_some_iff.mp hst
  obtain ⟨row, q, hrow, hq, length, inFlight⟩ := flight.states j st₀ h₀
  refine ⟨row, q, hrow, hq, ?_⟩
  rw [RisePirClient.patchState]
  split
  · exact ⟨length, inFlight⟩
  · rw [laws.patch_params]
    exact ⟨length, laws.patch_inFlight _ _ _ _ inFlight⟩

/-- A collection, whatever its target, keeps the client at the head and its query in flight. -/
theorem Holds.collect (laws : B.Lawful) (h : Holds client pinned head) (upto : Nat) :
    ∃ pinned', Holds (client.collectGarbage upto).1 pinned' head ∧
      ∀ ctx key, InFlight client ctx key → InFlight (client.collectGarbage upto).1 ctx key := by
  by_cases target : upto = client.delta.head
  · subst target
    by_cases same : client.delta.head = client.pinnedBlock
    · rw [collect_nothing same]
      exact ⟨pinned, h, fun _ _ flight => flight⟩
    · rw [collect_pending same]
      refine ⟨head, ⟨h.tracks.fold_pending laws, h.tracks.headBlock, [], .nil head⟩, ?_⟩
      exact fun ctx key flight => folded_inFlight laws flight
  · rw [collect_refused target]
    exact ⟨pinned, h, fun _ _ flight => flight⟩

/-- An accepted ingest touches the rolling delta only. -/
private theorem ingested_same {client' : RisePirClient C B} {d : BlockDelta}
    (h : client.ingestDelta d = (client', .ok ())) :
    client'.states = client.states ∧ client'.pinnedBlock = client.pinnedBlock := by
  obtain rfl : (client.ingestDelta d).1 = client' := congrArg Prod.fst h
  exact ⟨rfl, rfl⟩

private theorem Holds.ingested (h : Holds client pinned head) {client' : RisePirClient C B}
    {d : BlockDelta} {ds : List BlockDelta} (step : client.ingestDelta d = (client', .ok ()))
    (tracks : Tracks client' pinned head') (run : BlockRun head ds head') :
    Holds client' pinned head' ∧ ∀ ctx key, InFlight client ctx key → InFlight client' ctx key := by
  obtain ⟨states, pinnedBlock⟩ := ingested_same step
  obtain ⟨before, runBefore⟩ := h.pending
  refine ⟨⟨tracks, pinnedBlock.trans h.pinnedBlock, _, runBefore.append run⟩, ?_⟩
  intro ctx key flight
  exact ⟨flight.rows, flight.queries, by rw [states]; exact flight.states⟩

/-- One event that delivers a stretch of the run. -/
theorem Holds.event (logLaws : C.LogLaws) (laws : B.Lawful) (h : Holds client pinned head)
    {event : Event} (proper : event.Proper) (run : BlockRun head event.blocks head') :
    ∃ client' pinned', event.run client = some client' ∧ Holds client' pinned' head' ∧
      ∀ ctx key, InFlight client ctx key → InFlight client' ctx key := by
  cases event with
  | single d =>
      obtain ⟨client', step, tracks⟩ := h.tracks.ingest_single logLaws laws.toServerLaws run
      obtain ⟨holds, flight⟩ := h.ingested step tracks run
      refine ⟨client', pinned, ?_, holds, flight⟩
      rw [Event.run, ClientStep.run, step]
      rfl
  | range ds =>
      have run : BlockRun head ds head' := run
      have nonempty : ds ≠ [] := fun heq => proper (congrArg Event.range heq)
      obtain ⟨d, client', coalesced, step, tracks⟩ :=
        h.tracks.ingest_range logLaws laws.toServerLaws run nonempty
      obtain ⟨holds, flight⟩ := h.ingested step tracks run
      refine ⟨client', pinned, ?_, holds, flight⟩
      rw [Event.run, ClientStep.run, coalesced]
      dsimp only
      rw [step]
      rfl
  | collect upto =>
      cases run
      obtain ⟨pinned', holds, flight⟩ := h.collect laws upto
      exact ⟨_, pinned', rfl, holds, flight⟩

/-- Every way of covering a run, with collections anywhere, follows the run. -/
theorem Holds.events (logLaws : C.LogLaws) (laws : B.Lawful) (h : Holds client pinned head)
    {events : List Event} (proper : ∀ event ∈ events, event.Proper)
    (run : BlockRun head (events.flatMap Event.blocks) head') :
    ∃ client' pinned', events.foldlM Event.run client = some client' ∧
      Holds client' pinned' head' ∧
      ∀ ctx key, InFlight client ctx key → InFlight client' ctx key := by
  induction events generalizing client pinned head with
  | nil =>
      cases run
      exact ⟨client, pinned, rfl, h, fun _ _ flight => flight⟩
  | cons event events ih =>
      rw [List.flatMap_cons] at run
      obtain ⟨mid, first, rest⟩ := run.split
      obtain ⟨client₁, pinned₁, step, holds₁, flight₁⟩ :=
        h.event logLaws laws (proper event List.mem_cons_self) first
      obtain ⟨client', pinned', steps, holds', flight'⟩ :=
        ih holds₁ (fun e he => proper e (List.mem_cons_of_mem event he)) rest
      refine ⟨client', pinned', ?_, holds', fun ctx key flight => flight' _ _ (flight₁ _ _ flight)⟩
      rw [List.foldlM_cons, step]
      exact steps

/-- A freshly bootstrapped client. -/
theorem holds_fromSetup (laws : B.ClientLaws) {s : RisePirServer C B} (wf : WellFormed s)
    (hints : HintsMatch (p := p) s.segments s.store.cells) :
    Holds (RisePirClient.fromSetup C B s.setup s.valueCodec) s s :=
  ⟨Tracks.fromSetup laws wf hints, rfl, [], .nil s⟩

theorem Holds.buildQuery (laws : C.PlacementLaws) (clientLaws : B.ClientLaws)
    (h : Holds client pinned head) (coins : Nat → B.Coins) (key : AddressHash) :
    Holds (client.buildQuery coins key).1 pinned head :=
  ⟨tracks_buildQuery coins key laws clientLaws h.tracks, h.pinnedBlock, h.pending⟩

/-- Without its collections a list of events delivers the same deltas. -/
theorem blocks_filter (events : List Event) :
    (events.filter Event.delivers).flatMap Event.blocks = events.flatMap Event.blocks := by
  induction events with
  | nil => rfl
  | cons event events ih =>
      cases event with
      | single d => rw [List.filter_cons_of_pos rfl, List.flatMap_cons, List.flatMap_cons, ih]
      | range ds => rw [List.filter_cons_of_pos rfl, List.flatMap_cons, List.flatMap_cons, ih]
      | collect upto =>
          rw [List.filter_cons_of_neg (by simp [Event.delivers]), List.flatMap_cons, ih]
          rfl

theorem proper_filter {events : List Event} (proper : ∀ event ∈ events, event.Proper) :
    ∀ event ∈ events.filter Event.delivers, event.Proper :=
  fun event h => proper event (List.mem_filter.mp h).1

end Steps

section Transparent

variable {client : RisePirClient C B} {pinned head : RisePirServer C B}

/-- The backend parameters that a rewind needs stay those of the run's first server. -/
private theorem fits_along (logLaws : C.LogLaws) {kind : ResponseRewind}
    {final : RisePirServer C B} {ds : List BlockDelta} (run : BlockRun head ds final)
    (fits : ∀ seg ∈ head.segments, kind.Fits seg.params) :
    ∀ seg ∈ final.segments, kind.Fits seg.params := by
  intro seg hseg
  have hmem : seg.params ∈ final.segments.map SegmentState.params := List.mem_map_of_mem hseg
  rw [run.params logLaws] at hmem
  obtain ⟨seg₀, h₀, heq⟩ := List.mem_map.mp hmem
  rw [← heq]
  exact fits seg₀ h₀

/-- What `finish` says of responses it does not read is the same for every client at `head`. -/
private theorem finish_unread {ctx : QueryCtx} {key : AddressHash} (laws : C.PlacementLaws)
    (h : Holds client pinned head) (flight : InFlight client ctx key) (kind : ResponseRewind)
    {resp : List Response} {atBlock : Nat}
    (unread : resp.length ≠ p.arity ∨ atBlock ≠ head.block) :
    client.finish kind key ctx resp atBlock =
      if resp.length ≠ p.arity then some (.error (.malformedResponse p.arity resp.length))
      else some (.error (.responseBlockMismatch head.block atBlock)) := by
  have rows : ctx.rows.length = p.arity := by
    rw [flight.rows]
    exact candidateRows_length key laws
  rw [RisePirClient.finish]
  by_cases malformed : resp.length ≠ p.arity
  · rw [if_pos (.inl malformed), if_pos malformed]
  · have other : atBlock ≠ client.delta.head := by
      rw [h.tracks.headBlock]
      rcases unread with malformed' | other
      · exact absurd malformed' malformed
      · exact other
    rw [if_neg (by simp [not_not.mp malformed, flight.queries, rows]), if_pos other,
      if_neg malformed, h.tracks.headBlock]

/-- A client state of a real server's run, with hints at one block and deltas pending to
another. Whatever events follow, before a query and while it is in flight, with collections
at any of these points, the lookup finishes as it does without them. A collection that does
not name the pending head changes nothing; one that succeeds leaves the hints `A · D` of
that block and nothing pending. -/
theorem collecting_transparent (laws : C.Lawful) (pir : B.Lawful) (kind : ResponseRewind)
    (h : Holds client pinned head) (fits : ∀ seg ∈ head.segments, kind.Fits seg.params) :
    (∀ (before during : List Event) (asking final : RisePirServer C B),
      (∀ event ∈ before ++ during, event.Proper) →
      BlockRun head (before.flatMap Event.blocks) asking →
      BlockRun asking (during.flatMap Event.blocks) final →
      ∀ (coins : Nat → B.Coins) (key : AddressHash),
      ∃ collected plain : RisePirClient C B,
        before.foldlM Event.run client = some collected ∧
        (before.filter Event.delivers).foldlM Event.run client = some plain ∧
        let query := collected.buildQuery coins key
        let query' := plain.buildQuery coins key
        ∃ collected' plain' : RisePirClient C B,
          during.foldlM Event.run query.1 = some collected' ∧
          (during.filter Event.delivers).foldlM Event.run query'.1 = some plain' ∧
          (∃ resp resp', final.answer query.2.1 = .ok (resp, final.block) ∧
            final.answer query'.2.1 = .ok (resp', final.block) ∧
            (∃ result, plain'.finish kind key query'.2.2 resp' final.block = some (.ok result)) ∧
            collected'.finish kind key query.2.2 resp final.block =
              plain'.finish kind key query'.2.2 resp' final.block) ∧
          ∀ resp resp' : List Response, ∀ atBlock, resp.length = resp'.length →
            resp.length ≠ p.arity ∨ atBlock ≠ final.block →
            collected'.finish kind key query.2.2 resp atBlock =
              plain'.finish kind key query'.2.2 resp' atBlock) ∧
    (∀ upto, upto ≠ client.delta.head →
      client.collectGarbage upto = (client, .error (.gcTargetMismatch client.delta.head upto))) ∧
    ∀ upto client', client.collectGarbage upto = (client', .ok ()) →
      upto = head.block ∧ client'.pinnedBlock = head.block ∧
      client'.delta = .new p.arity head.block ∧
      ∀ j st, client'.states[j]? = some st → B.stateHint st =
        B.hintOf (B.stateParams st) (cellFn (segmentCells p head.store.cells j)) := by
  refine ⟨?_, fun upto => collect_refused, ?_⟩
  · intro before during asking final proper runBefore runDuring coins key
    have properBefore : ∀ event ∈ before, event.Proper := fun event he =>
      proper event (List.mem_append_left _ he)
    have properDuring : ∀ event ∈ during, event.Proper := fun event he =>
      proper event (List.mem_append_right _ he)
    have runBefore' := runBefore
    rw [← blocks_filter] at runBefore'
    have runDuring' := runDuring
    rw [← blocks_filter] at runDuring'
    obtain ⟨collected, _, stepsC, holdsC, -⟩ := h.events laws.toLogLaws pir properBefore runBefore
    obtain ⟨plain, _, stepsP, holdsP, -⟩ :=
      h.events laws.toLogLaws pir (proper_filter properBefore) runBefore'
    have flightC := buildQuery_inFlight coins key laws.toPlacementLaws pir.toClientLaws holdsC.tracks
    have flightP := buildQuery_inFlight coins key laws.toPlacementLaws pir.toClientLaws holdsP.tracks
    obtain ⟨collected', _, stepsC', holdsC', keptC⟩ :=
      (holdsC.buildQuery laws.toPlacementLaws pir.toClientLaws coins key).events laws.toLogLaws pir
        properDuring runDuring
    obtain ⟨plain', _, stepsP', holdsP', keptP⟩ :=
      (holdsP.buildQuery laws.toPlacementLaws pir.toClientLaws coins key).events laws.toLogLaws pir
        (proper_filter properDuring) runDuring'
    have flightC' := keptC _ _ flightC
    have flightP' := keptP _ _ flightP
    have finalFits := fits_along laws.toLogLaws (runBefore.append runDuring) fits
    have finishC := finish_inFlight key laws.toPlacementLaws pir holdsC'.tracks flightC' kind finalFits
    have finishP := finish_inFlight key laws.toPlacementLaws pir holdsP'.tracks flightP' kind finalFits
    refine ⟨collected, plain, stepsC, stepsP, collected', plain', stepsC', stepsP', ?_, ?_⟩
    · exact ⟨_, _, answer_eq flightC.queries, answer_eq flightP.queries, ⟨_, finishP⟩,
        finishC.trans finishP.symm⟩
    · intro resp resp' atBlock lengths unread
      rw [finish_unread laws.toPlacementLaws holdsC' flightC' kind unread]
      rw [lengths] at unread ⊢
      rw [finish_unread laws.toPlacementLaws holdsP' flightP' kind unread]
  · intro upto client' collected
    by_cases target : upto = client.delta.head
    · subst target
      refine ⟨h.tracks.headBlock, ?_⟩
      by_cases same : client.delta.head = client.pinnedBlock
      · rw [collect_nothing same] at collected
        obtain rfl : client = client' := congrArg Prod.fst collected
        obtain ⟨rfl, empty⟩ := h.nothing_pending laws.toLogLaws same
        exact ⟨h.pinnedBlock, empty, h.tracks.hints⟩
      · rw [collect_pending same] at collected
        obtain rfl : Tracks.folded client = client' := congrArg Prod.fst collected
        refine ⟨h.tracks.headBlock, ?_, (h.tracks.fold_pending pir).hints⟩
        rw [← h.tracks.states_length, ← h.tracks.headBlock]
        rfl
    · rw [collect_refused target] at collected
      cases (Prod.mk.inj collected).2

end Transparent

private def collectorCoins (_ : Nat) : referencePir.Coins := ReferencePir.Coins.mk 0 [5]

private def firstBlock : BlockUpdate := ⟨1, [(smallKey 3 1 0 0, 5)], []⟩

private def filled : SmallServer := (smallServer 0).after (draw 0) firstBlock

private def newcomer : RisePirClient (referenceTable smallParams) referencePir :=
  .fromSetup _ _ (smallServer 0).setup (smallServer 0).valueCodec

/-- A client ingests block 1, builds a query, collects garbage and finishes. -/
theorem collecting_transparent_inFlight : ∃ d collected collected' resp,
    [Event.single d].foldlM Event.run newcomer = some collected ∧
      [Event.collect 1].foldlM Event.run
        (collected.buildQuery collectorCoins (smallKey 3 1 0 0)).1 = some collected' ∧
      filled.answer (collected.buildQuery collectorCoins (smallKey 3 1 0 0)).2.1 =
        .ok (resp, filled.block) ∧
      collected'.finish .simple (smallKey 3 1 0 0)
          (collected.buildQuery collectorCoins (smallKey 3 1 0 0)).2.2 resp filled.block =
        (collected.buildQuery collectorCoins (smallKey 3 1 0 0)).1.finish .simple
          (smallKey 3 1 0 0) (collected.buildQuery collectorCoins (smallKey 3 1 0 0)).2.2 resp
          filled.block := by
  obtain ⟨d, _, step⟩ := SmallServer.applied
    (show (smallServer 0).succeeds (draw 0) firstBlock = true by decide)
  have run : BlockRun (smallServer 0) [d] filled := .cons rfl step (.nil _)
  obtain ⟨wf, hints⟩ := new_hintsMatch ReferencePir.lawful.toServerLaws (emptyStore smallParams)
    ⟨1, 1⟩ (fun j => ⟨BitVec.ofNat 128 j, []⟩) smallCodec 0 rfl
  have proper : ∀ event ∈ [Event.single d] ++ [Event.collect 1], event.Proper := by
    intro event he
    rcases List.mem_cons.mp he with rfl | he
    · exact fun h => by cases h
    · rw [List.mem_singleton.mp he]
      exact fun h => by cases h
  obtain ⟨collected, plain, first, first', collected', plain', second, second', same, -⟩ :=
    (collecting_transparent (ReferenceTable.lawful smallParams) ReferencePir.lawful .simple
      (holds_fromSetup ReferencePir.lawful.toClientLaws wf hints) (fun _ _ h => by cases h)).1
      [.single d] [.collect 1] filled filled proper run (.nil _) collectorCoins (smallKey 3 1 0 0)
  obtain rfl : collected = plain := Option.some.inj (first.symm.trans first')
  obtain rfl : (collected.buildQuery collectorCoins (smallKey 3 1 0 0)).1 = plain' :=
    Option.some.inj second'
  obtain ⟨resp, resp', answered, answered', -, finished⟩ := same
  obtain rfl : resp = resp' := (Prod.mk.inj (Except.ok.inj (answered.symm.trans answered'))).1
  exact ⟨d, collected, collected', resp, first, second, answered, finished⟩

end RisePir.Client.Collecting
