import RisePir.Client.EndToEnd
import RisePir.Http.Bundles

set_option autoImplicit false
set_option relaxedAutoImplicit false

/-! One query and its answer over the wire: a client that tracks the server reads back the very
responses the server computed. -/

namespace RisePir.Http.Exchange

open RisePir.Proto.Types
open RisePir.Upstream.Cuckoo
open RisePir.Upstream.Pir
open RisePir.Client.Core
open RisePir.Client.EndToEnd
open RisePir.Client.Tracking
open RisePir.Server.CellDelta
open RisePir.Server.Core
open RisePir.Server.Telescope
open RisePir.Http.Bundles
open RisePir.Http.Node

variable {p : CuckooParams} {C : SegmentedCuckoo p} {B : PirBackend} {client : RisePirClient C B}
  {pinned head : RisePirServer C B} {ctx : QueryCtx} {key : AddressHash}

theorem reshapeRows_lt {sp : SimpleServerParams} {rowWidth plaintextBits : Nat}
    (h : sp.Describes p.segmentSize rowWidth plaintextBits) : sp.reshapeRows < 2 ^ 64 := by
  have size : p.segmentSize ≤ p.numBuckets := Nat.div_le_self _ _
  have buckets := p.numBuckets_range.2
  have k_pos := h.k_pos
  have bound : (p.segmentSize + (sp.k - 1)) / sp.k ≤ p.segmentSize := by
    calc (p.segmentSize + (sp.k - 1)) / sp.k ≤ (sp.k - 1 + p.segmentSize * sp.k) / sp.k := by
          refine Nat.div_le_div_right ?_
          have := Nat.le_mul_of_pos_right p.segmentSize k_pos
          omega
      _ = p.segmentSize := by
          rw [Nat.add_mul_div_right _ _ k_pos, Nat.div_eq_of_lt (by omega), Nat.zero_add]
  rw [h.reshape_rows, h.rows_eq]
  omega

/-- The lengths of the queries in flight are those the server expects. -/
theorem query_lengths (tracks : Tracks client pinned head) (flight : InFlight client ctx key) :
    ctx.queries.map (fun q => q.b.length) = head.segments.map fun seg => seg.params.reshapeRows := by
  refine List.ext_getElem (by simp [flight.queries, head.segments_length]) fun j hj hj' => ?_
  rw [List.length_map] at hj hj'
  have hstate : j < client.states.length := by
    rw [tracks.states_length, ← flight.queries]
    exact hj
  obtain ⟨row, q, -, hq, length, -⟩ := flight.states j _ (List.getElem?_eq_getElem hstate)
  obtain ⟨seg, hseg, params⟩ := tracks.state_params (List.getElem?_eq_getElem hstate)
  rw [List.getElem_map, List.getElem_map]
  have hq' : ctx.queries[j] = q := by
    rw [List.getElem?_eq_getElem hj] at hq
    exact Option.some.inj hq
  have hseg' : head.segments[j] = seg := by
    rw [List.getElem?_eq_getElem hj'] at hseg
    exact Option.some.inj hseg
  rw [hq', hseg', length, params]

/-- A response has one word for each column of the reshaped segment. -/
theorem response_lengths (laws : B.ServerLaws) (wellFormed : WellFormed head) {queries : List Query}
    (count : queries.length = p.arity) :
    (responsesOf head queries).map (fun r => r.a.length) =
      head.segments.map fun seg => seg.params.reshapeRowWidth := by
  refine List.ext_getElem (by simp [responsesOf, count, head.segments_length]) fun j hj hj' => ?_
  rw [List.length_map] at hj'
  have harity : j < p.arity := by rwa [← head.segments_length]
  have describes := (wellFormed head.segments[j] (List.getElem_mem hj')).describes
  rw [List.getElem_map, List.getElem_map]
  simp only [responsesOf, List.getElem_mapIdx, List.getElem_zip]
  rw [laws.answer _ _ _ _ _ _ describes (segmentCells_length head.store.cells_length harity)]
  simp [SimpleServerParams.product]

/-- The server's answer to the queries in flight, through both bundles. -/
theorem exchange (laws : B.ServerLaws) (tracks : Tracks client pinned head)
    (flight : InFlight client ctx key) (widths : ∀ seg ∈ head.segments, seg.params.reshapeRowWidth < 2 ^ 32)
    (word : head.block < 2 ^ 64) {node : NodeState C B} (server : node.server = head) :
    answerBody node (some node.epoch) (encodeQueryBundle ctx.queries) =
        .ok (encodeResponseBundle (responsesOf head ctx.queries) head.block) ∧
      decodeResponseBundle (encodeResponseBundle (responsesOf head ctx.queries) head.block)
        (head.setup.backendParams.map (·.reshapeRowWidth)) p.arity =
          .ok (responsesOf head ctx.queries, head.block) := by
  have few : p.arity < 256 := by
    have := p.arity_range.2
    omega
  have wellFormed := tracks.wellFormed
  have queries := decodeQueryBundle_encode few flight.queries fun q hq => by
    have : q.b.length ∈ ctx.queries.map fun q => q.b.length := List.mem_map_of_mem hq
    rw [query_lengths tracks flight] at this
    obtain ⟨seg, hseg, heq⟩ := List.mem_map.mp this
    rw [← heq]
    exact reshapeRows_lt (wellFormed seg hseg).describes
  have lengths := response_lengths laws wellFormed flight.queries
  have answered : (responsesOf head ctx.queries).length = p.arity := by
    simp [responsesOf, flight.queries, head.segments_length]
  have responses := decodeResponseBundle_encode few answered word fun r hr => by
      have : r.a.length ∈ (responsesOf head ctx.queries).map fun r => r.a.length :=
        List.mem_map_of_mem hr
      rw [lengths] at this
      obtain ⟨seg, hseg, heq⟩ := List.mem_map.mp this
      have := widths seg hseg
      omega
  constructor
  · rw [query_lengths tracks flight] at queries
    have gate : node.epochGate (some node.epoch) = none := by simp [NodeState.epochGate]
    rw [answerBody, gate, server]
    dsimp only
    rw [queries]
    dsimp only
    rw [NodeState.answer, gate, server]
    dsimp only
    rw [answer_eq flight.queries]
  · rw [lengths] at responses
    rw [RisePirServer.setup, List.map_map]
    exact responses

end RisePir.Http.Exchange
