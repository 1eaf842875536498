import RisePir.Client.Lookup
import RisePir.Server.Intact
import RisePir.Server.Ledger

set_option autoImplicit false
set_option relaxedAutoImplicit false

/-! A client bootstrapped at any block and kept current in any way reads what the server's
verified read gives at the head. -/

namespace RisePir.Client.EndToEnd

open RisePir.Proto.Types
open RisePir.Proto.Value
open RisePir.Upstream.Cuckoo
open RisePir.Upstream.Pir
open RisePir.Upstream
open RisePir.Upstream.ReferencePir
open RisePir.Upstream.ReferenceTable
open RisePir.Client.Delta
open RisePir.Client.Rewind
open RisePir.Client.Core
open RisePir.Client.Tracking
open RisePir.Client.Lookup
open RisePir.Server.Core
open RisePir.Server.Telescope
open RisePir.Server.Run
open RisePir.Server.Verified
open RisePir.Server.Intact
open RisePir.Server.Small

variable {p : CuckooParams} {C : SegmentedCuckoo p} {B : PirBackend}

/-- What a client does between bootstrap and lookup: it ingests one published delta or the
coalesced delta of a range, or folds what is pending into its hints. -/
inductive ClientStep
  | single (d : BlockDelta)
  | range (ds : List BlockDelta)
  | collectGarbage

/-- The published deltas that a step covers. -/
def ClientStep.blocks : ClientStep → List BlockDelta
  | .single d => [d]
  | .range ds => ds
  | .collectGarbage => []

/-- No range is empty. -/
def ClientStep.Proper (step : ClientStep) : Prop := step ≠ .range []

private def accepted (out : RisePirClient C B × Except ClientError Unit) :
    Option (RisePirClient C B) :=
  match out with
  | (client, .ok ()) => some client
  | (_, .error _) => none

/-- One step; `none` when the server cannot coalesce or the client refuses. -/
def ClientStep.run (client : RisePirClient C B) : ClientStep → Option (RisePirClient C B)
  | .single d => accepted (client.ingestDelta d)
  | .range ds =>
      match coalesce ds with
      | .ok d => accepted (client.ingestDelta d)
      | .error _ => none
  | .collectGarbage => accepted (client.collectGarbage client.delta.head)

section Steps

variable {client : RisePirClient C B} {pinned head head' : RisePirServer C B}

/-- Every way of covering a run with steps is accepted and follows the run. -/
theorem steps_track (logLaws : C.LogLaws) (laws : B.Lawful) (h : Tracks client pinned head)
    {steps : List ClientStep} (proper : ∀ step ∈ steps, step.Proper)
    (run : BlockRun head (steps.flatMap ClientStep.blocks) head') :
    ∃ client' pinned', steps.foldlM ClientStep.run client = some client' ∧
      Tracks client' pinned' head' := by
  induction steps generalizing client pinned head with
  | nil =>
      cases run
      exact ⟨client, pinned, rfl, h⟩
  | cons step steps ih =>
      rw [List.flatMap_cons] at run
      obtain ⟨mid, first, rest⟩ := run.split
      have one : ∃ client₁ pinned₁, step.run client = some client₁ ∧ Tracks client₁ pinned₁ mid := by
        cases step with
        | single d =>
            obtain ⟨client₁, hingest, tracks⟩ := h.ingest_single logLaws laws.toServerLaws first
            exact ⟨client₁, pinned, by rw [ClientStep.run, hingest]; rfl, tracks⟩
        | range ds =>
            have first : BlockRun head ds mid := first
            have hne : ds ≠ [] := fun heq => proper _ (by simp) (congrArg ClientStep.range heq)
            obtain ⟨d, client₁, hcoalesce, hingest, tracks⟩ :=
              h.ingest_range logLaws laws.toServerLaws first hne
            refine ⟨client₁, pinned, ?_, tracks⟩
            rw [ClientStep.run, hcoalesce]
            dsimp only
            rw [hingest]
            rfl
        | collectGarbage =>
            cases first
            obtain ⟨client₁, pinned₁, hcollect, tracks⟩ := h.collectGarbage laws
            exact ⟨client₁, pinned₁, by rw [ClientStep.run, hcollect]; rfl, tracks⟩
      obtain ⟨client₁, pinned₁, hrun, tracks⟩ := one
      obtain ⟨client', pinned', hsteps, tracks'⟩ :=
        ih tracks (fun s hs => proper s (List.mem_cons_of_mem step hs)) rest
      refine ⟨client', pinned', ?_, tracks'⟩
      rw [List.foldlM_cons, hrun]
      exact hsteps

end Steps

section Query

variable {client : RisePirClient C B} {pinned head : RisePirServer C B} (coins : Nat → B.Coins)
  (key : AddressHash)

variable (client) in
theorem buildQuery_getElem? (j : Nat) :
    (client.buildQuery coins key).1.states[j]? =
        ((client.states.zip (candidateRows C key))[j]?.map fun entry =>
          (B.clientQuery (coins j) entry.1 entry.2).1) ∧
      (client.buildQuery coins key).2.1[j]? =
        ((client.states.zip (candidateRows C key))[j]?.map fun entry =>
          (B.clientQuery (coins j) entry.1 entry.2).2) := by
  simp [RisePirClient.buildQuery, List.getElem?_mapIdx, Function.comp_def]

theorem buildQuery_states {j : Nat} {st : B.ClientState}
    (h : (client.buildQuery coins key).1.states[j]? = some st) :
    ∃ st₀ row, client.states[j]? = some st₀ ∧ (candidateRows C key)[j]? = some row ∧
      st = (B.clientQuery (coins j) st₀ row).1 ∧
      (client.buildQuery coins key).2.1[j]? = some (B.clientQuery (coins j) st₀ row).2 := by
  obtain ⟨states, queries⟩ := buildQuery_getElem? client coins key j
  rw [h] at states
  obtain ⟨entry, hentry, rfl⟩ := Option.map_eq_some_iff.mp states.symm
  obtain ⟨hst, hrow⟩ := List.getElem?_zip_eq_some.mp hentry
  exact ⟨entry.1, entry.2, hst, hrow, rfl, by rw [queries, hentry]; rfl⟩

theorem candidateRows_length (laws : C.PlacementLaws) :
    (candidateRows C key).length = p.arity := by
  rw [candidateRows, List.length_map, laws.buckets_length]

theorem queries_length (laws : C.PlacementLaws) (h : Tracks client pinned head) :
    (client.buildQuery coins key).2.1.length = p.arity := by
  simp [RisePirClient.buildQuery, h.states_length, candidateRows_length key laws]

/-- A query changes neither parameters nor hints. -/
theorem tracks_buildQuery (laws : C.PlacementLaws) (clientLaws : B.ClientLaws)
    (h : Tracks client pinned head) : Tracks (client.buildQuery coins key).1 pinned head := by
  refine { h with params := ?_, hints := ?_ }
  · rw [← h.params]
    refine List.ext_getElem? fun j => ?_
    rw [List.getElem?_map, List.getElem?_map]
    cases hst : (client.buildQuery coins key).1.states[j]? with
    | some st =>
        obtain ⟨st₀, row, h₀, -, rfl, -⟩ := buildQuery_states coins key hst
        rw [h₀]
        exact congrArg some (clientLaws.query_params _ _ _)
    | none =>
        have length : (client.buildQuery coins key).1.states.length = client.states.length := by
          simp [RisePirClient.buildQuery, h.states_length, candidateRows_length key laws]
        have hj := List.getElem?_eq_none_iff.mp hst
        rw [List.getElem?_eq_none (by omega)]
  · intro j st hst
    obtain ⟨st₀, row, h₀, -, rfl, -⟩ := buildQuery_states coins key hst
    rw [clientLaws.query_hint, clientLaws.query_params]
    exact h.hints j st₀ h₀

/-- The scan order of `finish` is the probe order of the table. -/
theorem rowSlots_probe (laws : C.PlacementLaws) (cells : List (BitVec 32)) :
    ((candidateRows C key).mapIdx fun j row => (j, row)).flatMap
        (fun entry => rowSlots C cells entry.1 entry.2) = (C.probe key).map (C.slotAt cells) := by
  have buckets : C.buckets key = ((candidateRows C key).mapIdx fun j row => (j, row)).map
      fun entry => entry.1 * p.segmentSize + entry.2 := by
    refine List.ext_getElem? fun j => ?_
    rw [List.getElem?_map, List.getElem?_mapIdx, candidateRows, List.getElem?_map]
    cases hb : (C.buckets key)[j]? with
    | none => rfl
    | some bucket =>
        have hj : j < p.arity := by
          rw [← laws.buckets_length key]
          exact (List.getElem?_eq_some_iff.mp hb).1
        have hseg := laws.bucket_segment key j hj
        rw [List.getD_eq_getElem?_getD, hb, Option.getD_some] at hseg
        simp only [Option.map_some, Option.some.injEq]
        rw [← hseg, Nat.div_add_mod']
  rw [SegmentedCuckoo.probe, buckets, List.flatMap_map, List.map_flatMap]
  simp only [rowSlots, List.map_map]
  rfl

theorem lookups_mem {ctx : QueryCtx} {resp : List Response} {look : SegmentLookup B}
    (h : look ∈ client.lookups ctx resp) : client.states[look.segment]? = some look.state ∧
      ctx.queries[look.segment]? = some look.query ∧ resp[look.segment]? = some look.response ∧
      ctx.rows[look.segment]? = some look.row := by
  obtain ⟨j, hj⟩ := List.mem_iff_getElem?.mp h
  rw [RisePirClient.lookups, List.getElem?_mapIdx] at hj
  obtain ⟨entry, hentry, rfl⟩ := Option.map_eq_some_iff.mp hj
  obtain ⟨hst, hentry⟩ := List.getElem?_zip_eq_some.mp hentry
  obtain ⟨hq, hentry⟩ := List.getElem?_zip_eq_some.mp hentry
  obtain ⟨hresp, hrow⟩ := List.getElem?_zip_eq_some.mp hentry
  exact ⟨hst, hq, hresp, hrow⟩

private theorem lookups_rows {ctx : QueryCtx} {resp : List Response} {n : Nat}
    (states : client.states.length = n) (queries : ctx.queries.length = n)
    (responses : resp.length = n) (rows : ctx.rows.length = n) :
    (client.lookups ctx resp).map (fun look => (look.segment, look.row)) =
      ctx.rows.mapIdx fun j row => (j, row) := by
  refine List.ext_getElem (by simp [RisePirClient.lookups, states, queries, responses, rows])
    fun j hj hj' => ?_
  simp [RisePirClient.lookups]

/-- The segments one after the other scan their slots one after the other. -/
private theorem finishSegments_foldl (kind : ResponseRewind) {cells : List (BitVec 32)}
    {codec : ValueCodec} {looks : List (SegmentLookup B)} (h : ∀ look ∈ looks, ∀ sel,
      finishSegment kind client key look sel =
        some (.ok ((rowSlots C cells look.segment look.row).foldl (selectSlot C codec key) sel)))
    (sel : Select) : finishSegments kind client key looks sel =
      some (.ok ((looks.flatMap fun look => rowSlots C cells look.segment look.row).foldl
        (selectSlot C codec key) sel)) := by
  induction looks generalizing sel with
  | nil => rfl
  | cons look looks ih =>
      rw [finishSegments, h look (by simp)]
      dsimp only
      rw [ih (fun l hl => h l (List.mem_cons_of_mem look hl)), List.flatMap_cons,
        List.foldl_append]

/-- The client's states have queries for the key's rows in flight. -/
structure InFlight (client : RisePirClient C B) (ctx : QueryCtx) (key : AddressHash) : Prop where
  rows : ctx.rows = candidateRows C key
  queries : ctx.queries.length = p.arity
  states : ∀ (j : Nat) st, client.states[j]? = some st → ∃ row q, ctx.rows[j]? = some row ∧
    ctx.queries[j]? = some q ∧ q.b.length = (B.stateParams st).reshapeRows ∧ B.InFlight st row q

theorem buildQuery_inFlight (laws : C.PlacementLaws) (clientLaws : B.ClientLaws)
    (h : Tracks client pinned head) :
    InFlight (client.buildQuery coins key).1 (client.buildQuery coins key).2.2 key := by
  refine ⟨rfl, queries_length coins key laws h, fun j st hst => ?_⟩
  obtain ⟨st₀, row, -, hrow, rfl, hquery⟩ := buildQuery_states coins key hst
  refine ⟨row, _, hrow, hquery, ?_, clientLaws.query_inFlight _ _ _⟩
  rw [clientLaws.query_params]
  exact clientLaws.query_length _ _ _

/-- The responses of a server to a query bundle of its arity. -/
def responsesOf (head : RisePirServer C B) (queries : List Query) : List Response :=
  (head.segments.zip queries).mapIdx fun j entry =>
    B.serverAnswer entry.1.params (segmentCells p head.store.cells j) p.segmentSize p.rowWidth entry.2

theorem answer_eq {queries : List Query} (count : queries.length = p.arity) :
    head.answer queries = .ok (responsesOf head queries, head.block) := by
  rw [RisePirServer.answer, if_neg (by simp [count])]
  rfl

/-- A lookup at the head selects from exactly the head's candidate slots. -/
theorem finish_inFlight (laws : C.PlacementLaws) (pir : B.Lawful) (tracks : Tracks client pinned head)
    {ctx : QueryCtx} (flight : InFlight client ctx key) (kind : ResponseRewind)
    (fits : ∀ seg ∈ head.segments, kind.Fits seg.params) :
    client.finish kind key ctx (responsesOf head ctx.queries) head.block =
      some (.ok (scanResult C head.valueCodec key ((C.probe key).map (C.slotAt head.store.cells)))) := by
  have queries := flight.queries
  have rows : ctx.rows.length = p.arity := by
    rw [flight.rows]
    exact candidateRows_length key laws
  have responses : (responsesOf head ctx.queries).length = p.arity := by
    simp [responsesOf, head.segments_length, queries]
  have segments : ∀ look ∈ client.lookups ctx (responsesOf head ctx.queries), ∀ sel,
        finishSegment kind client key look sel =
          some (.ok ((rowSlots C head.store.cells look.segment look.row).foldl
            (selectSlot C head.valueCodec key) sel)) := by
    intro look hlook sel
    obtain ⟨hst, hq, hresp, hrow⟩ := lookups_mem hlook
    obtain ⟨row, q, hrow', hq', qlength, inFlight⟩ := flight.states look.segment look.state hst
    cases Option.some.inj (hrow.symm.trans hrow')
    cases Option.some.inj (hq.symm.trans hq')
    have hlook : look = ⟨look.segment, look.state, look.query, look.response, look.row⟩ := rfl
    obtain ⟨seg, hseg, hparams⟩ := tracks.state_params hst
    have describes := tracks.describes hst
    have hr : look.row < p.segmentSize := by
      rw [flight.rows] at hrow
      obtain ⟨bucket, -, heq⟩ := List.mem_map.mp (List.mem_of_getElem? hrow)
      rw [← heq]
      exact Nat.mod_lt _ p.segmentSize_pos
    have hj : look.segment < p.arity := by
      rw [← head.segments_length]
      exact (List.getElem?_eq_some_iff.mp hseg).1
    have answered : look.response = (B.stateParams look.state).product look.query
        (cellFn (segmentCells p head.store.cells look.segment)) := by
      have hzip : (head.segments.zip ctx.queries)[look.segment]? = some (seg, look.query) :=
        List.getElem?_zip_eq_some.mpr ⟨hseg, hq⟩
      simp only [responsesOf, List.getElem?_mapIdx, hzip, Option.map_some, Option.some.injEq] at hresp
      rw [← hresp, hparams]
      rw [hparams] at describes
      exact pir.answer _ _ _ _ _ _ describes
        (Server.CellDelta.segmentCells_length head.store.cells_length hj)
    rw [hlook, answered]
    refine finishSegment_tracks pir.toClientLaws tracks kind key hst hr ?_ qlength inFlight sel
    rw [hparams]
    exact fits seg (List.mem_of_getElem? hseg)
  have scanned := finishSegments_foldl key kind segments
    ⟨List.replicate p.valueSizeInBytes 0, false⟩
  have order : (client.lookups ctx (responsesOf head ctx.queries)).flatMap
      (fun look => rowSlots C head.store.cells look.segment look.row) =
        (C.probe key).map (C.slotAt head.store.cells) := by
    rw [← rowSlots_probe key laws head.store.cells, ← flight.rows,
      ← lookups_rows tracks.states_length queries responses rows, List.flatMap_map]
  rw [RisePirClient.finish, if_neg (by simp [responses, queries, rows]),
    if_neg (by simp [tracks.headBlock]), if_neg (by simp [flight.rows]), scanned, order]
  dsimp only
  rw [tracks.codec, scanResult]
  split <;> rfl

/-- A query built at the head and answered there. -/
theorem finish_tracks (laws : C.PlacementLaws) (pir : B.Lawful) (h : Tracks client pinned head)
    (kind : ResponseRewind) (fits : ∀ seg ∈ head.segments, kind.Fits seg.params) :
    ∃ resp, head.answer (client.buildQuery coins key).2.1 = .ok (resp, head.block) ∧
      (client.buildQuery coins key).1.finish kind key (client.buildQuery coins key).2.2 resp
        head.block =
          some (.ok (scanResult C head.valueCodec key ((C.probe key).map (C.slotAt head.store.cells)))) :=
  ⟨_, answer_eq (queries_length coins key laws h), finish_inFlight key laws pir
    (tracks_buildQuery coins key laws pir.toClientLaws h)
    (buildQuery_inFlight coins key laws pir.toClientLaws h) kind fits⟩

end Query

/-- What a lookup makes of the slots that the verified read resolves. -/
theorem scanResult_balanceOf (laws : C.PlacementLaws) (head : RisePirServer C B) (key : AddressHash) :
    let looked := scanResult C head.valueCodec key ((C.probe key).map (C.slotAt head.store.cells))
    (∀ b, head.balanceOf key = .ok (some b) → looked = .found b) ∧
      (head.balanceOf key = .ok none → looked = .notFound) ∧
      (head.balanceOf key = .error .corruptStoredValue → looked = .decodeFailed) := by
  intro looked
  rw [RisePirServer.balanceOf]
  rcases hown : ownSlots C head.valueCodec head.store.cells key with _ | ⟨s, _ | ⟨s', rest⟩⟩
  · rw [get_absent hown]
    refine ⟨fun b h => ?_, fun _ => scanResult_absent _ key hown, fun h => ?_⟩
    · cases h
    · cases h
  · have scanned : looked = head.valueCodec.decode key (C.slotAt head.store.cells s).2 :=
      scanResult_unique _ key hown
    rw [get_unique laws hown, scanned]
    have own : s ∈ ownSlots C head.valueCodec head.store.cells key := by simp [hown]
    cases hdec : head.valueCodec.decode key (C.slotAt head.store.cells s).2 with
    | found v =>
        refine ⟨fun b h => ?_, fun h => ?_, fun h => ?_⟩
        · cases h
          rfl
        · cases h
        · cases h
    | notFound =>
        have tag := (mem_ownSlots.mp own).2
        exact absurd hdec (ValueCodec.decode_ne_notFound (tagMatch_iff.mp tag).2)
    | decodeFailed =>
        refine ⟨fun b h => ?_, fun h => ?_, fun _ => rfl⟩
        · cases h
        · cases h
  · rw [get_duplicate hown]
    refine ⟨fun b h => ?_, fun h => ?_, fun h => ?_⟩
    · cases h
    · cases h
    · cases h

/-- End to end: a client bootstraps from a server at any block of a run, follows the run to
any later block in any way, and looks a key up at the head. With no matching slot it gets
`notFound`; with exactly one it gets the balance of the verified read, or `decodeFailed`
where the verified read reports the slot corrupt, which never happens when the initial
store's entries all decode. -/
theorem lookup_end_to_end (laws : C.Lawful) (pir : B.Lawful) (kind : ResponseRewind)
    {store : C.Store} {config : B.Config} {setupCoins : Nat → B.Coins} {codec : ValueCodec}
    {genesisBlock : Nat} {bits : codec.valueBits = p.valueBits}
    (fits : ∀ seg ∈ (RisePirServer.new (B := B) store config setupCoins codec genesisBlock
      bits).segments, kind.Fits seg.params)
    {before : List BlockDelta} {bootstrap head : RisePirServer C B}
    (runBefore : BlockRun (.new store config setupCoins codec genesisBlock bits) before bootstrap)
    {steps : List ClientStep} (proper : ∀ step ∈ steps, step.Proper)
    (runAfter : BlockRun bootstrap (steps.flatMap ClientStep.blocks) head)
    (coins : Nat → B.Coins) (key : AddressHash) :
    ∃ client, steps.foldlM ClientStep.run
        (RisePirClient.fromSetup C B bootstrap.setup bootstrap.valueCodec) = some client ∧
      ∃ resp, head.answer (client.buildQuery coins key).2.1 = .ok (resp, head.block) ∧
        let result := (client.buildQuery coins key).1.finish kind key
          (client.buildQuery coins key).2.2 resp head.block
        (ownSlots C codec head.store.cells key = [] → result = some (.ok .notFound)) ∧
        (∀ slot, ownSlots C codec head.store.cells key = [slot] →
          (∃ b, head.balanceOf key = .ok (some b) ∧ result = some (.ok (.found b))) ∨
            (head.balanceOf key = .error .corruptStoredValue ∧
              result = some (.ok .decodeFailed) ∧ ¬ IntactCells C codec store.cells)) := by
  obtain ⟨wf, hints⟩ := new_hintsMatch pir.toServerLaws store config setupCoins codec genesisBlock
    bits
  have tracks := Tracks.fromSetup pir.toClientLaws
    (runBefore.wellFormed laws.toLogLaws pir.toServerLaws wf)
    (runBefore.hintsMatch laws.toLogLaws pir.toServerLaws wf hints)
  obtain ⟨client, pinned, hsteps, tracks⟩ := steps_track laws.toLogLaws pir tracks proper runAfter
  have run := runBefore.append runAfter
  have params := run.params laws.toLogLaws
  have hcodec : head.valueCodec = codec := run.valueCodec laws.toLogLaws
  have headFits : ∀ seg ∈ head.segments, kind.Fits seg.params := by
    intro seg hseg
    have hmem : seg.params ∈ head.segments.map SegmentState.params := List.mem_map_of_mem hseg
    rw [params] at hmem
    obtain ⟨seg₀, h₀, heq⟩ := List.mem_map.mp hmem
    rw [← heq]
    exact fits seg₀ h₀
  obtain ⟨resp, answered, finished⟩ :=
    finish_tracks coins key laws.toPlacementLaws pir tracks kind headFits
  refine ⟨client, hsteps, resp, answered, ?_⟩
  rw [hcodec] at finished
  dsimp only
  rw [finished]
  refine ⟨fun hown => by rw [scanResult_absent codec key hown], fun slot hown => ?_⟩
  rw [scanResult_unique codec key hown]
  have read := get_unique laws.toPlacementLaws hown
  rw [RisePirServer.balanceOf, hcodec, read]
  have intact := run_intact laws.toPlacementLaws run
  have decodes : IntactCells C codec store.cells →
      ∃ b, codec.decode key (C.slotAt head.store.cells slot).2 = .found b := by
    intro h
    obtain ⟨b, -, hb⟩ := balanceOf_intact laws.toPlacementLaws (intact h) (hcodec ▸ hown)
    exact ⟨b, hcodec ▸ hb⟩
  cases hdec : codec.decode key (C.slotAt head.store.cells slot).2 with
  | found b => exact .inl ⟨b, rfl, rfl⟩
  | decodeFailed =>
      refine .inr ⟨rfl, rfl, fun h => ?_⟩
      obtain ⟨b, hb⟩ := decodes h
      rw [hdec] at hb
      cases hb
  | notFound =>
      have hmem : slot ∈ ownSlots C codec head.store.cells key := by simp [hown]
      exact absurd hdec (ValueCodec.decode_ne_notFound (tagMatch_iff.mp (mem_ownSlots.mp hmem).2).2)

private def queryCoins (_ : Nat) : referencePir.Coins := ReferencePir.Coins.mk 0 [5]

private def block₁ : BlockUpdate := ⟨1, [(smallKey 3 1 0 0, 5)], []⟩

private def block₂ : BlockUpdate := ⟨2, [(smallKey 4 2 0 1, 7)], []⟩

private def block₃ : BlockUpdate := ⟨3, [], [(smallKey 3 1 0 0, 2)]⟩

private def server₁ : SmallServer := (smallServer 0).after (draw 0) block₁

private def server₂ : SmallServer := server₁.after (draw 1) block₂

private def server₃ : SmallServer := server₂.after (draw 0) block₃

private theorem server₁_run : ∃ d, BlockRun (smallServer 0) [d] server₁ := by
  obtain ⟨d, _, step⟩ := SmallServer.applied
    (show (smallServer 0).succeeds (draw 0) block₁ = true by decide)
  exact ⟨d, .cons rfl step (.nil _)⟩

private theorem server₃_run : ∃ d d', BlockRun server₁ [d, d'] server₃ := by
  obtain ⟨d, _, step⟩ := SmallServer.applied
    (show server₁.succeeds (draw 1) block₂ = true by decide)
  obtain ⟨d', _, step'⟩ := SmallServer.applied
    (show server₂.succeeds (draw 0) block₃ = true by decide)
  exact ⟨d, d', .cons (by decide) step (.cons (by decide) step' (.nil _))⟩

private theorem server₃_reads :
    ownSlots (referenceTable smallParams) smallCodec server₃.store.cells (smallKey 3 1 0 0) =
        [(0, 0)] ∧
      server₃.balanceOf (smallKey 3 1 0 0) = .ok (some 7) := by
  decide

/-- A client bootstraps at block 1, ingests blocks 2 and 3 as one range, collects garbage
and reads the balance credited in block 3. -/
theorem lookup_end_to_end_server₃ : ∃ d d' client resp,
    [.range [d, d'], .collectGarbage].foldlM ClientStep.run
        (RisePirClient.fromSetup (referenceTable smallParams) referencePir server₁.setup server₁.valueCodec) = some client ∧
      server₃.answer (client.buildQuery queryCoins (smallKey 3 1 0 0)).2.1 =
        .ok (resp, server₃.block) ∧
      (client.buildQuery queryCoins (smallKey 3 1 0 0)).1.finish .simple
        (smallKey 3 1 0 0) (client.buildQuery queryCoins (smallKey 3 1 0 0)).2.2 resp
        server₃.block = some (.ok (.found 7)) := by
  obtain ⟨_, runBefore⟩ := server₁_run
  obtain ⟨d, d', runAfter⟩ := server₃_run
  obtain ⟨own, reads⟩ := server₃_reads
  have proper : ∀ step ∈ [ClientStep.range [d, d'], .collectGarbage], step.Proper := by
    intro step hstep
    rcases List.mem_cons.mp hstep with rfl | hstep
    · exact fun h => by cases h
    · rw [List.mem_singleton.mp hstep]
      exact fun h => by cases h
  obtain ⟨client, hsteps, resp, answered, -, unique⟩ := lookup_end_to_end
    (ReferenceTable.lawful smallParams) ReferencePir.lawful .simple
    (fun _ _ h => by cases h) runBefore proper runAfter queryCoins (smallKey 3 1 0 0)
  refine ⟨d, d', client, resp, hsteps, answered, ?_⟩
  rcases unique (0, 0) own with ⟨b, hb, found⟩ | ⟨hcorrupt, -, -⟩
  · rw [reads] at hb
    cases hb
    exact found
  · rw [reads] at hcorrupt
    cases hcorrupt

end RisePir.Client.EndToEnd
