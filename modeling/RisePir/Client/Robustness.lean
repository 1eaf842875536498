import RisePir.Client.Accumulation
import RisePir.Client.EndToEnd
import RisePir.Http.Setup
import RisePir.Proto.Decoding

set_option autoImplicit false
set_option relaxedAutoImplicit false

/-! A client whose setup, deltas and answers come from a peer. No decoder knows the bounds of the
geometry, and `ingest` does not check them either: what lies outside is merged like any other cell,
and the rewind indexes with it. Arithmetic is that of a release build, which wraps. -/

namespace RisePir.Client.Robustness

open RisePir.Lib.Sparse
open RisePir.Proto.Codec
open RisePir.Proto.Decoding
open RisePir.Proto.Types
open RisePir.Proto.Value
open RisePir.Upstream
open RisePir.Upstream.Cuckoo
open RisePir.Upstream.Pir
open RisePir.Client.Accumulation
open RisePir.Client.Core
open RisePir.Client.Delta
open RisePir.Client.EndToEnd
open RisePir.Client.Rewind
open RisePir.Http.Bundles
open RisePir.Http.Setup
open RisePir.Http.Wire
open RisePir.Server.Core
open RisePir.Server.Small

variable {p : CuckooParams} {C : SegmentedCuckoo p} {B : PirBackend}

/-- What the peer or the caller makes a client do. -/
inductive Event (B : PirBackend)
  | delta (bytes : List UInt8)
  | collect (upto : Nat)
  | query (coins : Nat → B.Coins) (key : AddressHash)

/-- A client with the queries that it has built. -/
structure Running (C : SegmentedCuckoo p) (B : PirBackend) where
  client : RisePirClient C B
  built : List QueryCtx

namespace Running

def start (C : SegmentedCuckoo p) (B : PirBackend) (bundle : SetupBundle) (codec : ValueCodec) :
    Running C B := ⟨.fromSetup C B bundle codec, []⟩

/-- A refused delta is dropped; what it has merged stays. -/
def step (s : Running C B) : Event B → Running C B
  | .delta bytes =>
      match decodeBlockDelta bytes p.plaintextBits p.arity with
      | .error _ => s
      | .ok d => { s with client := (s.client.ingestDelta d).1 }
  | .collect upto => { s with client := (s.client.collectGarbage upto).1 }
  | .query coins key =>
      ⟨(s.client.buildQuery coins key).1, (s.client.buildQuery coins key).2.2 :: s.built⟩

def run (s : Running C B) (events : List (Event B)) : Running C B := events.foldl step s

end Running

/-- A cell that every segment has. -/
def Inside (p : CuckooParams) (row offset : Nat) : Prop := row < p.segmentSize ∧ offset < p.rowWidth

instance (p : CuckooParams) (row offset : Nat) : Decidable (Inside p row offset) :=
  inferInstanceAs (Decidable (_ ∧ _))

/-- The delta names a row or an offset that no segment has. -/
def NamesOutside (p : CuckooParams) (d : BlockDelta) : Prop :=
  ∃ seg ∈ d.perSegment, ∃ e ∈ entries seg, ¬ Inside p e.1.1 e.1.2

instance (p : CuckooParams) (d : BlockDelta) : Decidable (NamesOutside p d) :=
  inferInstanceAs (Decidable (∃ seg ∈ d.perSegment, ∃ e ∈ entries seg, _))

/-- The delta is refused, and it has changed nothing outside the segments. -/
def Refuses (client : RisePirClient C B) (d : BlockDelta) : Prop :=
  (∃ e, (client.ingestDelta d).2 = .error e) ∧ ∀ j row offset, ¬ Inside p row offset →
    (client.ingestDelta d).1.delta.at j row offset = client.delta.at j row offset

/-- Every answer that decodes is finished, for any query that was built, and no column of its rewind
leaves the 32 bits that it is computed in. -/
def Returns (widths : List Nat) (s : Running C B) : Prop :=
  ∀ ctx ∈ s.built, ∀ key body responses atBlock,
    decodeResponseBundle body widths p.arity = .ok (responses, atBlock) →
      (s.client.finish .simple key ctx responses atBlock).isSome = true ∧
      ∀ (j : Nat) state, s.client.states[j]? = some state → ∀ e ∈ (s.client.delta.segment j).terms,
        (ResponseRewind.simple.index (B.stateParams state) e.1.1 e.1.2).2 < 2 ^ 32

/-- A run in which every delta that names a cell outside is refused, and every lookup returns. -/
structure Robust (s : Running C B) (widths : List Nat) (events : List (Event B)) : Prop where
  refuses : ∀ before bytes after d, events = before ++ .delta bytes :: after →
    decodeBlockDelta bytes p.plaintextBits p.arity = .ok d → NamesOutside p d →
      Refuses (s.run before).client d
  returns : ∀ before after, events = before ++ after → Returns widths (s.run before)

/-- A delta that extends the chain names cells of the segments only; one that is given up at an
overflow has until then added nothing to any other cell. -/
def Contained (client : RisePirClient C B) (d : BlockDelta) : Prop :=
  client.delta.head < d.block →
    match beforeOverflow (fun i => client.delta.at i.1 i.2.1 i.2.2) (mergeOrder d.perSegment) with
    | none => ¬ NamesOutside p d
    | some merged => ∀ j row offset, ¬ Inside p row offset → total merged (j, row, offset) = 0

/-- The segments' parameters are those of the header's geometry, and the client's codec is that of
its value field. -/
structure Consistent (p : CuckooParams) (codec : ValueCodec) (bundle : SetupBundle) : Prop where
  widths : codec.valueBits = p.valueBits
  describes : ∀ sp ∈ bundle.backendParams, sp.Describes p.segmentSize p.rowWidth p.plaintextBits

/-- A client decodes a response of the expected length into one row of cells. -/
def DecodesRows (B : PirBackend) : Prop :=
  ∀ st row q resp nRows rowWidth plaintextBits, B.InFlight st row q →
    (B.stateParams st).Describes nRows rowWidth plaintextBits →
    resp.a.length = (B.stateParams st).reshapeRowWidth → (B.clientDecode st resp).length = rowWidth

/-- What every run keeps, whatever it is fed. -/
structure Sound (bundle : SetupBundle) (s : Running C B) : Prop where
  states : s.client.states.map B.stateParams = bundle.backendParams
  count : s.client.delta.perSegment.length = p.arity
  noZeros : s.client.delta.NoZeros
  inFlight : s.built ≠ [] → ∀ st ∈ s.client.states, ∃ row q, B.InFlight st row q
  queries : ∀ ctx ∈ s.built,
    ctx.queries.map (fun q => q.b.length) = bundle.backendParams.map (·.reshapeRows)

/-- Every delta of a run that decodes is contained where it arrives. -/
def Along (s : Running C B) (events : List (Event B)) : Prop :=
  ∀ before bytes after d, events = before ++ .delta bytes :: after →
    decodeBlockDelta bytes p.plaintextBits p.arity = .ok d → Contained (s.run before).client d

/-- Nothing outside the segments is pending. -/
def Clean (s : Running C B) : Prop :=
  ∀ j row offset, ¬ Inside p row offset → s.client.delta.at j row offset = 0

section Merging

variable {client : RisePirClient C B} {d : BlockDelta}

theorem beforeOverflow_subset {ι : Type} [DecidableEq ι] {base : ι → Int} {l merged : List (ι × Int)}
    (stop : beforeOverflow base l = some merged) : merged ⊆ l := by
  induction l generalizing base merged with
  | nil => cases stop
  | cons e l ih =>
      rw [beforeOverflow] at stop
      split_ifs at stop
      · obtain ⟨rest, later, rfl⟩ := Option.map_eq_some_iff.mp stop
        exact List.cons_subset_cons e (ih later)
      · cases stop
        exact List.nil_subset _

theorem mem_mergeOrder {segs : List SegmentRowDeltas} {e : (Nat × Nat × Nat) × Int}
    (h : e ∈ mergeOrder segs) : ∃ seg ∈ segs, (e.1.2, e.2) ∈ entries seg := by
  induction segs generalizing e with
  | nil => cases h
  | cons seg segs ih =>
      rw [mergeOrder] at h
      rcases List.mem_append.mp h with here | later
      · obtain ⟨e', entry, rfl⟩ := List.mem_map.mp here
        exact ⟨seg, List.mem_cons_self, entry⟩
      · obtain ⟨e', entry, rfl⟩ := List.mem_map.mp later
        obtain ⟨seg', mem, found⟩ := ih entry
        exact ⟨seg', List.mem_cons_of_mem seg mem, found⟩

/-- Entries of the segments' cells sum to zero everywhere else. -/
theorem total_outside (within : ¬ NamesOutside p d) {l : List ((Nat × Nat × Nat) × Int)}
    (part : l ⊆ mergeOrder d.perSegment) {j row offset : Nat} (outside : ¬ Inside p row offset) :
    total l (j, row, offset) = 0 := by
  refine total_eq_zero fun e he here => within ?_
  obtain ⟨seg, mem, entry⟩ := mem_mergeOrder (part he)
  refine ⟨seg, mem, _, entry, ?_⟩
  rwa [here]

theorem decoded_words {bytes : List UInt8}
    (decoded : decodeBlockDelta bytes p.plaintextBits p.arity = .ok d) :
    d.perSegment.length = p.arity ∧ ∀ seg ∈ d.perSegment, Words (entries seg) := by
  obtain ⟨-, -, order⟩ := decodeBlockDelta_ok decoded
  refine ⟨order.segments, fun seg hseg e he => ?_⟩
  obtain ⟨cells, row, cell⟩ := mem_entries.mp he
  have small := (order.cell seg hseg _ row _ cell).2
  have narrow : 2 ^ p.plaintextBits ≤ 2 ^ 31 :=
    Nat.pow_le_pow_right (by decide) p.plaintextBits_range.2
  unfold InI64
  dsimp only at small
  omega

end Merging

section Run

variable {bundle : SetupBundle} {codec : ValueCodec} {s : Running C B}

theorem Sound.start (laws : B.ClientLaws) {bytes : List UInt8}
    (accepted : decodeSetup bytes = .ok (.of bundle)) :
    Sound bundle (Running.start C B bundle codec) := by
  have decoded := decodeSetup_ok accepted
  have hints : bundle.hints.length = bundle.backendParams.length := by
    simpa [RawSetup.of] using congrArg List.length decoded.hints
  refine ⟨?_, ?_, PendingDelta.new_noZeros _ _, fun none => absurd rfl none, nofun⟩
  · change (List.zipWith B.clientSetup bundle.backendParams bundle.hints).map B.stateParams = _
    refine List.ext_getElem (by simp [hints]) fun j hj hj' => ?_
    rw [List.getElem_map, List.getElem_zipWith, laws.setup_params]
  · simp [Running.start, RisePirClient.fromSetup, PendingDelta.new]

theorem Sound.states_length (h : Sound bundle s) (segments : bundle.backendParams.length = p.arity) :
    s.client.states.length = p.arity := by
  rw [← segments, ← h.states, List.length_map]

theorem Sound.ingested (h : Sound bundle s) {d : BlockDelta} (count : d.perSegment.length = p.arity)
    (words : ∀ seg ∈ d.perSegment, Words (entries seg)) :
    Sound bundle { s with client := (s.client.ingestDelta d).1 } := by
  have same : (s.client.ingestDelta d).1.delta = (s.client.delta.ingest d).1 := rfl
  refine ⟨h.states, ?_, ?_, h.inFlight, h.queries⟩
  all_goals
    dsimp only
    rw [same]
  · by_cases ascends : s.client.delta.head < d.block
    · obtain ⟨pending', length, -, merged⟩ := ingest_merges h.noZeros ascends
        (count.trans h.count.symm) words
      split at merged <;> rw [merged.1] <;> exact length.trans h.count
    · rw [PendingDelta.ingest, if_pos (by omega)]
      exact h.count
  · by_cases ascends : s.client.delta.head < d.block
    · obtain ⟨pending', -, clean, merged⟩ := ingest_merges h.noZeros ascends
        (count.trans h.count.symm) words
      split at merged <;> rw [merged.1] <;> exact clean
    · rw [PendingDelta.ingest, if_pos (by omega)]
      exact h.noZeros

theorem Sound.collected (laws : B.ClientLaws) (segments : bundle.backendParams.length = p.arity)
    (h : Sound bundle s) (upto : Nat) :
    Sound bundle { s with client := (s.client.collectGarbage upto).1 } := by
  rw [RisePirClient.collectGarbage]
  split_ifs
  · exact h
  · exact h
  · have patched : ∀ j st, B.stateParams (s.client.patchState j st) = B.stateParams st ∧
        ∀ row q, B.InFlight st row q → B.InFlight (s.client.patchState j st) row q := by
      intro j st
      rw [RisePirClient.patchState]
      split_ifs
      · exact ⟨rfl, fun _ _ flight => flight⟩
      · exact ⟨laws.patch_params _ _, laws.patch_inFlight _ _⟩
    refine ⟨?_, ?_, PendingDelta.new_noZeros _ _, fun some st mem => ?_, h.queries⟩
    · rw [← h.states]
      refine List.ext_getElem (by simp) fun j hj hj' => ?_
      rw [List.getElem_map, List.getElem_mapIdx, List.getElem_map, (patched _ _).1]
    · simp [PendingDelta.new, h.states_length segments]
    · obtain ⟨j, hj, rfl⟩ := List.mem_mapIdx.mp mem
      obtain ⟨row, q, flight⟩ := h.inFlight some _ (List.getElem_mem hj)
      exact ⟨row, q, (patched _ _).2 row q flight⟩

theorem Sound.asked (laws : B.ClientLaws) (placement : C.PlacementLaws)
    (segments : bundle.backendParams.length = p.arity) (h : Sound bundle s)
    (coins : Nat → B.Coins) (key : AddressHash) :
    Sound bundle ⟨(s.client.buildQuery coins key).1, (s.client.buildQuery coins key).2.2 :: s.built⟩ := by
  have length := h.states_length segments
  have rows := candidateRows_length key placement
  have sizes : (s.client.buildQuery coins key).1.states.length = p.arity ∧
      (s.client.buildQuery coins key).2.1.length = p.arity := by
    simp [RisePirClient.buildQuery, length, rows]
  have params : ∀ (j : Nat) st, (s.client.buildQuery coins key).1.states[j]? = some st →
      ∃ st₀, s.client.states[j]? = some st₀ ∧ B.stateParams st = B.stateParams st₀ ∧
        (∃ row q, B.InFlight st row q) ∧ ∃ q, (s.client.buildQuery coins key).2.1[j]? = some q ∧
          q.b.length = (B.stateParams st₀).reshapeRows := by
    intro j st hst
    obtain ⟨st₀, row, h₀, -, rfl, query⟩ := buildQuery_states coins key hst
    exact ⟨st₀, h₀, laws.query_params _ _ _, ⟨row, _, laws.query_inFlight _ _ _⟩, _, query,
      laws.query_length _ _ _⟩
  refine ⟨?_, h.count, h.noZeros, fun _ st mem => ?_, fun ctx mem => ?_⟩
  · rw [← h.states]
    refine List.ext_getElem (by simp [sizes.1, length]) fun j hj hj' => ?_
    rw [List.length_map] at hj hj'
    obtain ⟨st₀, h₀, same, -⟩ := params j _ (List.getElem?_eq_getElem hj)
    rw [List.getElem_map, List.getElem_map, same]
    obtain ⟨_, rfl⟩ := List.getElem?_eq_some_iff.mp h₀
    rfl
  · obtain ⟨j, hj, rfl⟩ := List.getElem_of_mem mem
    obtain ⟨st₀, -, -, flight, -⟩ := params j _ (List.getElem?_eq_getElem hj)
    exact flight
  · rcases List.mem_cons.mp mem with rfl | old
    · rw [← h.states]
      change (s.client.buildQuery coins key).2.1.map _ = _
      refine List.ext_getElem (by simp [sizes.2, length]) fun j hj hj' => ?_
      rw [List.length_map] at hj
      rw [List.length_map, List.length_map] at hj'
      obtain ⟨st₀, h₀, -, -, q, query, long⟩ := params j _
        (List.getElem?_eq_getElem (show j < _ by omega))
      rw [List.getElem_map, List.getElem_map, List.getElem_map]
      obtain ⟨_, rfl⟩ := List.getElem?_eq_some_iff.mp h₀
      obtain ⟨_, rfl⟩ := List.getElem?_eq_some_iff.mp query
      exact long
    · exact h.queries ctx old

theorem Sound.step (laws : B.ClientLaws) (placement : C.PlacementLaws)
    (segments : bundle.backendParams.length = p.arity) (h : Sound bundle s) (event : Event B) :
    Sound bundle (s.step event) := by
  cases event with
  | delta bytes =>
      rw [Running.step]
      cases decoded : decodeBlockDelta bytes p.plaintextBits p.arity with
      | error e => exact h
      | ok d => exact h.ingested (decoded_words decoded).1 (decoded_words decoded).2
  | collect upto => exact h.collected laws segments upto
  | query coins key => exact h.asked laws placement segments coins key

theorem Sound.run (laws : B.ClientLaws) (placement : C.PlacementLaws)
    (segments : bundle.backendParams.length = p.arity) (h : Sound bundle s) (events : List (Event B)) :
    Sound bundle (s.run events) := by
  induction events generalizing s with
  | nil => exact h
  | cons event events ih => exact ih (h.step laws placement segments event)

end Run

section Lookups

variable {client : RisePirClient C B} {sp : SimpleServerParams}

/-- Inside the segments the rewind finds every entry that it indexes. -/
theorem rewind_returns (describes : sp.Describes p.segmentSize p.rowWidth p.plaintextBits) {q : Query}
    (hq : q.b.length = sp.reshapeRows) {resp : Response} (hr : resp.a.length = sp.reshapeRowWidth)
    {deltas : SegmentDelta} (inside : ∀ e ∈ deltas.terms, Inside p e.1.1 e.1.2) :
    ∃ resp', ResponseRewind.simple.rewindResponse sp q resp deltas = some resp' ∧
      resp'.a.length = sp.reshapeRowWidth := by
  have indexed : ∃ a, deltas.terms.foldlM (ResponseRewind.simple.term sp q) resp.a = some a ∧
      a.length = sp.reshapeRowWidth := by
    generalize deltas.terms = es at inside
    generalize resp.a = a at hr
    induction es generalizing a with
    | nil => exact ⟨a, rfl, hr⟩
    | cons e es ih =>
        obtain ⟨row, offset⟩ := inside e List.mem_cons_self
        obtain ⟨big, column⟩ := index_lt describes row offset
        have divides : ¬ (ResponseRewind.simple = .simple ∧ sp.k = 0) :=
          fun h => absurd h.2 describes.k_pos.ne'
        have flat := @index_eq .simple sp _ _ _ (fun h => by cases h) describes e.1.1 e.1.2 offset
        have entry : ∃ a', ResponseRewind.simple.term sp q a e = some a' ∧
            a'.length = sp.reshapeRowWidth := by
          rw [ResponseRewind.term, if_neg divides, flat]
          rw [List.getElem?_eq_getElem (by omega), List.getElem?_eq_getElem (by omega)]
          exact ⟨_, rfl, (List.length_set ..).trans hr⟩
        obtain ⟨a', first, length⟩ := entry
        rw [List.foldlM_cons, first]
        exact ih (fun e' he => inside e' (List.mem_cons_of_mem e he)) a' length
  obtain ⟨a, folded, length⟩ := indexed
  exact ⟨⟨a⟩, by rw [ResponseRewind.rewindResponse, folded]; rfl, length⟩

theorem correctCells_length {segment row : Nat} {deltas : List (Nat × Int)}
    {cells cells' : List (BitVec 32)} (h : correctCells p segment row cells deltas = .ok cells') :
    cells'.length = cells.length := by
  induction deltas generalizing cells with
  | nil =>
      cases h
      rfl
  | cons e deltas ih =>
      rw [correctCells] at h
      cases cell : cells[e.1]? with
      | none =>
          rw [cell] at h
          cases h
      | some word =>
          rw [cell] at h
          dsimp only at h
          split_ifs at h
          exact (ih h).trans (List.length_set ..)

/-- One segment of a lookup, whatever the response says. -/
theorem finishSegment_returns (decodes : DecodesRows B) {look : SegmentLookup B}
    (describes : (B.stateParams look.state).Describes p.segmentSize p.rowWidth p.plaintextBits)
    (flight : ∃ row q, B.InFlight look.state row q)
    (query : look.query.b.length = (B.stateParams look.state).reshapeRows)
    (response : look.response.a.length = (B.stateParams look.state).reshapeRowWidth)
    (inside : ∀ e ∈ (client.delta.segment look.segment).terms, Inside p e.1.1 e.1.2)
    (key : AddressHash) (sel : Select) :
    (finishSegment .simple client key look sel).isSome = true := by
  obtain ⟨resp, rewound, length⟩ := rewind_returns describes query response inside
  obtain ⟨row, q, flight⟩ := flight
  have cells := decodes look.state row q resp _ _ _ flight describes length
  rw [finishSegment, rewound]
  dsimp only
  cases corrected : correctCells p look.segment look.row (B.clientDecode look.state resp)
      (client.delta.row look.segment look.row) with
  | error e => rfl
  | ok cells' =>
      have wide : p.rowWidth ≤ cells'.length := by
        rw [correctCells_length corrected, cells]
      dsimp only
      rw [scanRow, if_pos wide]
      rfl

theorem finishSegments_returns {key : AddressHash} {looks : List (SegmentLookup B)}
    (each : ∀ look ∈ looks, ∀ sel, (finishSegment .simple client key look sel).isSome = true)
    (sel : Select) : (finishSegments .simple client key looks sel).isSome = true := by
  induction looks generalizing sel with
  | nil => rfl
  | cons look looks ih =>
      rw [finishSegments]
      have first := each look List.mem_cons_self sel
      rcases here : finishSegment .simple client key look sel with _ | ⟨_ | sel'⟩
      · rw [here] at first
        cases first
      · rfl
      · exact ih (fun l hl => each l (List.mem_cons_of_mem look hl)) sel'

theorem decoded_responses {body : List UInt8} {widths : List Nat} {arity atBlock : Nat}
    {responses : List Response}
    (decoded : decodeResponseBundle body widths arity = .ok (responses, atBlock)) :
    responses.map (fun r => r.a.length) = widths := by
  rw [decodeResponseBundle, bind_eq_ok] at decoded
  obtain ⟨_, -, decoded⟩ := decoded
  rw [bind_eq_ok] at decoded
  obtain ⟨⟨found, _⟩, -, decoded⟩ := decoded
  rw [bind_eq_ok] at decoded
  obtain ⟨_, -, decoded⟩ := decoded
  rw [bind_eq_ok] at decoded
  obtain ⟨⟨head, _⟩, -, decoded⟩ := decoded
  rw [bind_eq_ok] at decoded
  obtain ⟨⟨vectors, rest⟩, read, decoded⟩ := decoded
  dsimp only at decoded
  split_ifs at decoded
  cases decoded
  rw [List.map_map]
  exact readVectors_ok read

variable {bundle : SetupBundle} {codec : ValueCodec} {s : Running C B}

theorem Clean.terms_inside (clean : Clean s) (noZeros : s.client.delta.NoZeros) (j : Nat) :
    ∀ e ∈ (s.client.delta.segment j).terms, Inside p e.1.1 e.1.2 := by
  intro e mem
  have nonzero := ne_zero_of_mem_terms (segment_noZeros noZeros j) mem
  rw [← at_of_mem_terms mem] at nonzero
  by_contra outside
  exact nonzero (clean j e.1.1 e.1.2 outside)

/-- With nothing outside pending, every answer of the expected lengths is finished. -/
theorem Sound.returns (decodes : DecodesRows B) (h : Sound bundle s) (clean : Clean s)
    (consistent : Consistent p codec bundle)
    (words : ∀ sp ∈ bundle.backendParams, sp.reshapeRowWidth < 2 ^ 32) :
    Returns (bundle.backendParams.map (·.reshapeRowWidth)) s := by
  intro ctx built key body responses atBlock decoded
  have described : ∀ (j : Nat) st, s.client.states[j]? = some st →
      bundle.backendParams[j]? = some (B.stateParams st) := by
    intro j st hst
    rw [← h.states, List.getElem?_map, hst]
    rfl
  have inside := clean.terms_inside h.noZeros
  constructor
  · have each : ∀ look ∈ s.client.lookups ctx responses, ∀ sel,
        (finishSegment .simple s.client key look sel).isSome = true := by
      intro look mem sel
      obtain ⟨state, query, response, -⟩ := lookups_mem mem
      have sp := described _ _ state
      have queried := congrArg (fun l : List Nat => l[look.segment]?) (h.queries ctx built)
      have answered := congrArg (fun l : List Nat => l[look.segment]?) (decoded_responses decoded)
      simp only [List.getElem?_map, query, response, sp, Option.map_some, Option.some.injEq]
        at queried answered
      refine finishSegment_returns decodes (consistent.describes _ (List.mem_of_getElem? sp)) ?_ queried
        answered (inside _) key sel
      exact h.inFlight (List.ne_nil_of_mem built) _ (List.mem_of_getElem? state)
    rw [RisePirClient.finish]
    split_ifs
    · rfl
    · rfl
    · rfl
    · have finished := finishSegments_returns each ⟨List.replicate p.valueSizeInBytes 0, false⟩
      rcases done : finishSegments .simple s.client key (s.client.lookups ctx responses)
        ⟨List.replicate p.valueSizeInBytes 0, false⟩ with _ | ⟨_ | sel⟩
      · rw [done] at finished
        cases finished
      · rfl
      · dsimp only
        split_ifs <;> rfl
  · intro j st hst e mem
    have mem' := List.mem_of_getElem? (described j st hst)
    have describes := consistent.describes _ mem'
    obtain ⟨row, offset⟩ := inside j e mem
    have flat := @index_eq .simple _ _ _ _ (fun h => by cases h) describes e.1.1 e.1.2 offset
    rw [flat]
    exact (index_lt describes row offset).2.trans (words _ mem')

end Lookups

section Containment

variable {bundle : SetupBundle} {codec : ValueCodec} {s : Running C B} {d : BlockDelta}

/-- A contained delta moves nothing outside, and it is refused if it names anything there. -/
theorem Contained.spec (h : Sound bundle s) (count : d.perSegment.length = p.arity)
    (words : ∀ seg ∈ d.perSegment, Words (entries seg)) (contained : Contained s.client d) :
    (NamesOutside p d → ∃ e, (s.client.ingestDelta d).2 = .error e) ∧
      ∀ j row offset, ¬ Inside p row offset →
        (s.client.ingestDelta d).1.delta.at j row offset = s.client.delta.at j row offset := by
  have delta : (s.client.ingestDelta d).1.delta = (s.client.delta.ingest d).1 := rfl
  have result : (s.client.ingestDelta d).2 = (s.client.delta.ingest d).2 := rfl
  rw [delta, result]
  by_cases ascends : s.client.delta.head < d.block
  · obtain ⟨pending', -, -, merged⟩ := ingest_merges h.noZeros ascends (count.trans h.count.symm) words
    have bound := contained ascends
    cases stop : beforeOverflow (fun i => s.client.delta.at i.1 i.2.1 i.2.2) (mergeOrder d.perSegment) with
    | none =>
        rw [stop] at merged bound
        refine ⟨fun named => absurd named bound, fun j row offset outside => ?_⟩
        rw [merged.1, merged.2.2 j (row, offset), total_outside bound (List.Subset.refl _) outside,
          add_zero]
    | some part =>
        rw [stop] at merged bound
        refine ⟨fun _ => ⟨_, congrArg Prod.snd merged.1⟩, fun j row offset outside => ?_⟩
        rw [merged.1, merged.2.2 j (row, offset), bound j row offset outside, add_zero]
  · rw [PendingDelta.ingest, if_pos (by omega)]
    exact ⟨fun _ => ⟨_, rfl⟩, fun _ _ _ _ => rfl⟩

/-- A delta is contained if the client refuses what it names outside. -/
theorem contained_of_refuses (h : Sound bundle s) (count : d.perSegment.length = p.arity)
    (words : ∀ seg ∈ d.perSegment, Words (entries seg))
    (refuses : NamesOutside p d → Refuses s.client d) : Contained s.client d := by
  intro ascends
  have delta : (s.client.ingestDelta d).1.delta = (s.client.delta.ingest d).1 := rfl
  have result : (s.client.ingestDelta d).2 = (s.client.delta.ingest d).2 := rfl
  obtain ⟨pending', -, -, merged⟩ := ingest_merges h.noZeros ascends (count.trans h.count.symm) words
  cases stop : beforeOverflow (fun i => s.client.delta.at i.1 i.2.1 i.2.2) (mergeOrder d.perSegment) with
  | none =>
      rw [stop] at merged
      intro named
      obtain ⟨⟨e, refused⟩, -⟩ := refuses named
      rw [result, merged.1] at refused
      cases refused
  | some part =>
      rw [stop] at merged
      intro j row offset outside
      by_cases named : NamesOutside p d
      · have kept := (refuses named).2 j row offset outside
        rw [delta, merged.1, merged.2.2 j (row, offset)] at kept
        dsimp only at kept
        omega
      · exact total_outside named (beforeOverflow_subset stop) outside

theorem contained_of_inside {client : RisePirClient C B}
    (merges : beforeOverflow (fun i => client.delta.at i.1 i.2.1 i.2.2) (mergeOrder d.perSegment) = none)
    (within : ¬ NamesOutside p d) : Contained client d := by
  intro _
  rw [merges]
  exact within

theorem Clean.step (h : Sound bundle s) (clean : Clean s) (event : Event B)
    (contained : ∀ bytes d, event = .delta bytes →
      decodeBlockDelta bytes p.plaintextBits p.arity = .ok d → Contained s.client d) :
    Clean (s.step event) := by
  intro j row offset outside
  cases event with
  | delta bytes =>
      rw [Running.step]
      cases decoded : decodeBlockDelta bytes p.plaintextBits p.arity with
      | error e => exact clean j row offset outside
      | ok d =>
          have spec := (contained bytes d rfl decoded).spec h (decoded_words decoded).1
            (decoded_words decoded).2
          exact (spec.2 j row offset outside).trans (clean j row offset outside)
  | collect upto =>
      rw [Running.step, RisePirClient.collectGarbage]
      split_ifs
      · exact clean j row offset outside
      · exact clean j row offset outside
      · exact PendingDelta.at_new _ _ j row offset
  | query coins key => exact clean j row offset outside

theorem Along.split {first second : List (Event B)} (along : Along s (first ++ second)) :
    Along s first ∧ Along (s.run first) second := by
  constructor
  · rintro before bytes after d rfl
    exact along before bytes (after ++ second) d (by simp)
  · rintro before bytes after d rfl decoded
    have here := along (first ++ before) bytes after d (by simp) decoded
    rwa [Running.run, List.foldl_append] at here

theorem Clean.run (laws : B.ClientLaws) (placement : C.PlacementLaws)
    (segments : bundle.backendParams.length = p.arity) (h : Sound bundle s) (clean : Clean s)
    {events : List (Event B)} (along : Along s events) : Clean (s.run events) := by
  induction events generalizing s with
  | nil => exact clean
  | cons event events ih =>
      obtain ⟨first, rest⟩ := @Along.split _ _ _ s [event] events along
      refine ih (h.step laws placement segments event) (clean.step h event ?_) rest
      rintro bytes d rfl decoded
      exact first [] bytes [] d rfl decoded

/-- Whatever the setup, a run is robust only if every delta is contained where it arrives; and for a
setup whose parameters fit together that is enough. -/
theorem robust_iff (placement : C.PlacementLaws) (laws : B.ClientLaws) (decodes : DecodesRows B)
    {bytes : List UInt8} {bundle : SetupBundle} (accepted : decodeSetup bytes = .ok (.of bundle))
    (geometry : bundle.params = p) (codec : ValueCodec) (events : List (Event B)) :
    (Robust (Running.start C B bundle codec) (bundle.backendParams.map (·.reshapeRowWidth)) events →
      Along (Running.start C B bundle codec) events) ∧
    (Consistent p codec bundle →
      (Robust (Running.start C B bundle codec) (bundle.backendParams.map (·.reshapeRowWidth)) events ↔
        Along (Running.start C B bundle codec) events)) := by
  have segments : bundle.backendParams.length = p.arity := geometry ▸ (decodeSetup_ok accepted).segments
  have fresh : Sound bundle (Running.start C B bundle codec) := Sound.start laws accepted
  have sound := fun before => fresh.run laws placement segments before
  have necessary : Robust (Running.start C B bundle codec)
      (bundle.backendParams.map (·.reshapeRowWidth)) events →
      Along (Running.start C B bundle codec) events := by
    intro robust before bytes after d split decoded
    exact contained_of_refuses (sound before) (decoded_words decoded).1 (decoded_words decoded).2
      (robust.refuses before bytes after d split decoded)
  refine ⟨necessary, fun consistent => ⟨necessary, fun along => ⟨?_, ?_⟩⟩⟩
  · intro before bytes after d split decoded named
    have spec := (along before bytes after d split decoded).spec (sound before)
      (decoded_words decoded).1 (decoded_words decoded).2
    exact ⟨spec.1 named, spec.2⟩
  · rintro before after rfl
    have empty : Clean (Running.start C B bundle codec) := fun j row offset _ =>
      PendingDelta.at_new _ _ j row offset
    have clean := empty.run laws placement segments fresh along.split.1
    exact (sound before).returns decodes clean consistent fun sp mem =>
      (decodeSetup_fits accepted sp mem).reshapeRowWidth

end Containment

/-- An offset past the end of a row is a column of the row beside it. -/
theorem column_of_next_row {sp : SimpleServerParams} {row : Nat} (beside : row % sp.k + 1 < sp.k)
    (offset : Nat) : ResponseRewind.simple.index sp row (sp.rowWidth + offset) =
      ResponseRewind.simple.index sp (row + 1) offset := by
  have next : row + 1 = sp.k * (row / sp.k) + (row % sp.k + 1) := by
    have whole := Nat.div_add_mod row sp.k
    omega
  have quotient : (row + 1) / sp.k = row / sp.k := by
    rw [next, Nat.mul_add_div (by omega), Nat.div_eq_of_lt beside, Nat.add_zero]
  have remainder : (row + 1) % sp.k = row % sp.k + 1 := by
    rw [next, Nat.mul_add_mod, Nat.mod_eq_of_lt beside]
  rw [ResponseRewind.index, ResponseRewind.index, quotient, remainder, Nat.add_mul, Nat.one_mul,
    Nat.add_assoc]

/-- With `k = 0` in the setup, any pending entry divides by zero. -/
theorem zero_k_panics {sp : SimpleServerParams} (zero : sp.k = 0) (q : Query) (resp : Response)
    {deltas : SegmentDelta} (pending : deltas.terms ≠ []) :
    ResponseRewind.simple.rewindResponse sp q resp deltas = none := by
  obtain ⟨e, es, terms⟩ := List.exists_cons_of_ne_nil pending
  have first : ResponseRewind.simple.term sp q resp.a e = none := if_pos ⟨rfl, zero⟩
  rw [ResponseRewind.rewindResponse, terms, List.foldlM_cons, first]
  rfl

section Small

theorem referencePir_decodesRows : DecodesRows ReferencePir.referencePir := by
  rintro ⟨params, hint, inFlight⟩ row q resp nRows rowWidth plaintextBits ⟨secret, flight, -⟩
    describes -
  obtain rfl : inFlight = some (row, secret) := flight
  exact (List.length_map _).trans (List.length_range.trans describes.width_eq)

private def smallSetup : SetupBundle := (smallServer 0).setup

private theorem smallSetup_accepted :
    decodeSetup (encodeRawSetup (.of smallSetup)) = .ok (.of smallSetup) := by
  have params : ∀ sp ∈ smallSetup.backendParams, sp.lweDim < 2 ^ 32 ∧ sp.nRows < 2 ^ 32 ∧
      sp.rowWidth < 2 ^ 32 ∧ sp.k < 2 ^ 32 ∧ sp.reshapeRows < 2 ^ 32 ∧ sp.reshapeRowWidth < 2 ^ 32 ∧
      Constructible sp := by decide
  refine decodeSetup_encode ⟨by decide, by decide, by decide, by decide, by decide, by decide,
    by decide, by decide, fun sp mem => ?_, by decide⟩
  obtain ⟨lweDim, nRows, rowWidth, k, reshapeRows, reshapeRowWidth, constructible⟩ := params sp mem
  exact ⟨constructible, lweDim, nRows, rowWidth, k, reshapeRows, reshapeRowWidth⟩

private def asked : Event ReferencePir.referencePir := .query (fun _ => ⟨0, [5]⟩) (smallKey 3 1 0 0)

/-- The delta of block 1 that adds one to the cell `(row, offset)` of the first segment. -/
private def adding (row offset : Nat) : BlockDelta := ⟨1, [[(row, [(offset, 1)])], []]⟩

private def begun : Running (ReferenceTable.referenceTable smallParams) ReferencePir.referencePir :=
  .start _ _ smallSetup smallCodec

theorem robust_iff_lastCell : Robust begun (smallSetup.backendParams.map (·.reshapeRowWidth))
    [.delta (encodeBlockDelta (adding 1 3)), asked] := by
  have consistent : Consistent smallParams smallCodec smallSetup := by
    refine ⟨rfl, fun sp mem => ?_⟩
    have all : ∀ sp ∈ smallSetup.backendParams, sp.nRows = 2 ∧ sp.rowWidth = 4 ∧ sp.plaintextBits = 8 ∧
        sp.k = 1 ∧ sp.reshapeRowWidth = 4 ∧ sp.reshapeRows = 2 := by decide
    obtain ⟨nRows, rowWidth, plaintextBits, k, reshapeRowWidth, reshapeRows⟩ := all sp mem
    exact ⟨nRows, rowWidth, plaintextBits, by omega, by rw [reshapeRowWidth, k, rowWidth],
      by rw [reshapeRows, nRows, k]⟩
  refine ((robust_iff (ReferenceTable.lawful smallParams).toPlacementLaws
    ReferencePir.lawful.toClientLaws referencePir_decodesRows smallSetup_accepted rfl smallCodec
    [.delta (encodeBlockDelta (adding 1 3)), asked]).2 consistent).mpr ?_
  rintro before bytes after d split decoded
  cases before with
  | nil =>
      obtain ⟨rfl, -⟩ : encodeBlockDelta (adding 1 3) = bytes ∧ [asked] = after := by simpa using split
      have whole : decodeBlockDelta (encodeBlockDelta (adding 1 3)) smallParams.plaintextBits
          smallParams.arity = .ok (adding 1 3) := by decide +kernel
      obtain rfl := Except.ok.inj (whole.symm.trans decoded)
      have merges : beforeOverflow (fun i => begun.client.delta.at i.1 i.2.1 i.2.2)
          (mergeOrder (adding 1 3).perSegment) = none := by decide +kernel
      exact contained_of_inside merges (by decide)
  | cons first before =>
      have second := (List.cons.inj split).2
      cases before with
      | nil => simp [asked] at second
      | cons _ _ => simp at second

/-- The row behind the last one is taken in, and then an answer of zeros panics the client. -/
theorem row_behind_the_last_panics :
    decodeSetup (encodeRawSetup (.of smallSetup)) = .ok (.of smallSetup) ∧
      decodeBlockDelta (encodeBlockDelta (adding 2 0)) 8 2 = .ok (adding 2 0) ∧
      NamesOutside smallParams (adding 2 0) ∧
      (begun.client.ingestDelta (adding 2 0)).2 = .ok () ∧
      (∃ ctx ∈ (begun.run [.delta (encodeBlockDelta (adding 2 0)), asked]).built,
        (begun.run [.delta (encodeBlockDelta (adding 2 0)), asked]).client.finish .simple
          (smallKey 3 1 0 0) ctx [⟨[0, 0, 0, 0]⟩, ⟨[0, 0, 0, 0]⟩] 1 = none) ∧
      ¬ Robust begun (smallSetup.backendParams.map (·.reshapeRowWidth))
        [.delta (encodeBlockDelta (adding 2 0)), asked] := by
  have decoded : decodeBlockDelta (encodeBlockDelta (adding 2 0)) 8 2 = .ok (adding 2 0) := by
    decide +kernel
  have outside : NamesOutside smallParams (adding 2 0) := by decide
  have taken : (begun.client.ingestDelta (adding 2 0)).2 = .ok () := by decide +kernel
  refine ⟨smallSetup_accepted, decoded, outside, taken, ⟨_, List.mem_cons_self, ?_⟩, fun robust => ?_⟩
  · decide +kernel
  · obtain ⟨⟨e, refused⟩, -⟩ := robust.refuses [] _ _ _ rfl decoded outside
    rw [show (begun.run []).client = begun.client from rfl, taken] at refused
    cases refused

end Small

end RisePir.Client.Robustness
