import RisePir.Client.Core
import RisePir.Server.Run

set_option autoImplicit false
set_option relaxedAutoImplicit false

/-! A client that follows a server: its hint is the pinned server's, its rolling delta the
change of the cells since. Every step of the client keeps this. -/

namespace RisePir.Client.Tracking

open RisePir.Lib.FlatMatrix
open RisePir.Lib.Sparse
open RisePir.Lib.Splice
open RisePir.Proto.Types
open RisePir.Upstream.Cuckoo
open RisePir.Upstream.Pir
open RisePir.Client.Delta
open RisePir.Client.Rewind
open RisePir.Client.Core
open RisePir.Server.Fold
open RisePir.Server.Core
open RisePir.Server.CellDelta
open RisePir.Server.Telescope
open RisePir.Server.Run

variable {p : CuckooParams} {C : SegmentedCuckoo p} {B : PirBackend}

/-- The client's states hold the hints of `pinned`, and its delta leads from there to
`head`. -/
structure Tracks (client : RisePirClient C B) (pinned head : RisePirServer C B) : Prop where
  params : client.states.map B.stateParams = head.segments.map SegmentState.params
  hints : ∀ j st, client.states[j]? = some st →
    B.stateHint st = B.hintOf (B.stateParams st) (cellFn (segmentCells p pinned.store.cells j))
  headBlock : client.delta.head = head.block
  segments : client.delta.perSegment.length = p.arity
  noZeros : client.delta.NoZeros
  moved : Moved p pinned.store.cells head.store.cells client.delta.at
  outside : ∀ j row offset, ¬ (j < p.arity ∧ row < p.segmentSize ∧ offset < p.rowWidth) →
    client.delta.at j row offset = 0
  wellFormed : WellFormed head
  codec : client.valueCodec = head.valueCodec

namespace Tracks

variable {client : RisePirClient C B} {pinned head : RisePirServer C B}

theorem states_length (h : Tracks client pinned head) : client.states.length = p.arity := by
  have := congrArg List.length h.params
  rwa [List.length_map, List.length_map, head.segments_length] at this

/-- A client state's parameters are the server's for that segment. -/
theorem state_params (h : Tracks client pinned head) {j : Nat} {st : B.ClientState}
    (hst : client.states[j]? = some st) :
    ∃ seg, head.segments[j]? = some seg ∧ B.stateParams st = seg.params := by
  have eq := congrArg (fun l : List SimpleServerParams => l[j]?) h.params
  simp only [List.getElem?_map, hst, Option.map_some] at eq
  obtain ⟨seg, hseg, heq⟩ := Option.map_eq_some_iff.mp eq.symm
  exact ⟨seg, hseg, heq.symm⟩

theorem describes (h : Tracks client pinned head) {j : Nat} {st : B.ClientState}
    (hst : client.states[j]? = some st) :
    (B.stateParams st).Describes p.segmentSize p.rowWidth p.plaintextBits := by
  obtain ⟨seg, hseg, heq⟩ := h.state_params hst
  rw [heq]
  exact (h.wellFormed seg (List.mem_of_getElem? hseg)).describes

/-- Every entry of the rolling delta stands on a cell of the deployment. -/
theorem terms_inside (h : Tracks client pinned head) (j : Nat) :
    ∀ e ∈ (client.delta.segment j).terms, e.1.1 < p.segmentSize ∧ e.1.2 < p.rowWidth := by
  intro e he
  have hzeros : (client.delta.segment j).NoZeros := by
    rw [PendingDelta.segment, List.getD_eq_getElem?_getD]
    cases hj : client.delta.perSegment[j]? with
    | none => exact noZeros_empty
    | some m => exact h.noZeros m (List.mem_of_getElem? hj)
  have hne := ne_zero_of_mem_terms hzeros he
  rw [← at_of_mem_terms he] at hne
  by_contra hout
  refine hne (h.outside j e.1.1 e.1.2 ?_)
  rintro ⟨-, hr, ho⟩
  exact hout ⟨hr, ho⟩

/-- The words of the rolling delta are the change of the segment's cells. -/
theorem cellFn_head (h : Tracks client pinned head) {j : Nat} (hj : j < p.arity) :
    cellFn (segmentCells p head.store.cells j) = fun i =>
      cellFn (segmentCells p pinned.store.cells j) i +
        total (flatWords p.rowWidth (client.delta.segment j).terms) i := by
  have moved : Moved p pinned.store.cells head.store.cells fun j row offset =>
      cellAt (client.delta.asRowDeltas j) row offset := by
    intro j row offset
    simp only [cellAt_asRowDeltas]
    exact h.moved j row offset
  have inside : ∀ j, ∀ e ∈ entries (client.delta.asRowDeltas j),
      e.1.1 < p.segmentSize ∧ e.1.2 < p.rowWidth := by
    intro j e he
    rw [entries_asRowDeltas] at he
    exact h.terms_inside j e he
  rw [cellFn_moved pinned.store.cells_length head.store.cells_length inside moved hj]
  funext i
  rw [deltaFn, flatTerms, entries_asRowDeltas, List.map_map, flatWords]
  rfl

/-- Bootstrapping from a server's bundle. -/
theorem fromSetup (laws : B.ClientLaws) {s : RisePirServer C B} (wf : WellFormed s)
    (hints : HintsMatch (p := p) s.segments s.store.cells) :
    Tracks (RisePirClient.fromSetup C B s.setup s.valueCodec) s s := by
  have states : ∀ j : Nat, (RisePirClient.fromSetup C B s.setup s.valueCodec).states[j]? =
      s.segments[j]?.map fun seg : SegmentState B => B.clientSetup seg.params seg.hint := by
    intro j
    rw [RisePirClient.fromSetup, RisePirServer.setup, List.getElem?_zipWith, List.getElem?_map,
      List.getElem?_map]
    cases s.segments[j]? <;> rfl
  refine ⟨?_, ?_, rfl, List.length_replicate, PendingDelta.new_noZeros _ _, ?_, ?_, wf, rfl⟩
  · refine List.ext_getElem? fun j => ?_
    rw [List.getElem?_map, List.getElem?_map, states]
    cases s.segments[j]? with
    | none => rfl
    | some seg => exact congrArg some (laws.setup_params _ _)
  · intro j st hst
    rw [states] at hst
    obtain ⟨seg, hseg, rfl⟩ := Option.map_eq_some_iff.mp hst
    rw [laws.setup_hint, laws.setup_params]
    exact hints j seg hseg
  · intro j row offset _ _ _
    change _ = _ + (PendingDelta.new p.arity s.block).at j row offset
    rw [PendingDelta.at_new, add_zero]
  · intro j row offset _
    exact PendingDelta.at_new _ _ _ _ _

/-- Ingesting one delta that stands for a stretch of the server's run. -/
theorem ingestDelta (logLaws : C.LogLaws) (laws : B.ServerLaws) (h : Tracks client pinned head)
    {head' : RisePirServer C B} {ds : List BlockDelta} (run : BlockRun head ds head') (hne : ds ≠ [])
    {d : BlockDelta} (block : d.block = head'.block) (segments : d.perSegment.length = p.arity)
    (canonical : d.IsCanonical) (sum : ∀ j r k, d.at j r k = sumAt ds j r k) :
    ∃ client', client.ingestDelta d = (client', .ok ()) ∧ Tracks client' pinned head' := by
  have movedAll : Moved p pinned.store.cells head'.store.cells fun j r k =>
      client.delta.at j r k + sumAt ds j r k := h.moved.trans (run.moved logLaws)
  have outsideAll : ∀ j r k, ¬ (j < p.arity ∧ r < p.segmentSize ∧ k < p.rowWidth) →
      client.delta.at j r k + sumAt ds j r k = 0 := fun j r k out => by
    rw [h.outside j r k out, run.sumAt_outside logLaws out, add_zero]
  have before := fun j r k => inI64_of_magnitude (Moved.magnitude h.moved h.outside j r k)
  have after : ∀ j r k, InI64 (client.delta.at j r k + d.at j r k) := fun j r k => by
    rw [sum]
    exact inI64_of_magnitude (Moved.magnitude movedAll outsideAll j r k)
  have ascends : client.delta.head < d.block := by
    have hlen := run.block logLaws
    have hpos := List.length_pos_iff.mpr hne
    rw [h.headBlock, block]
    omega
  obtain ⟨pending, hpending, hhead, hseg, hnz, sums⟩ := PendingDelta.ingest_ok h.noZeros ascends
    (segments.trans h.segments.symm) canonical before after
  have sums' : ∀ j r k, pending.at j r k = client.delta.at j r k + sumAt ds j r k := fun j r k => by
    rw [sums, sum]
  refine ⟨{ client with delta := pending }, by rw [RisePirClient.ingestDelta, hpending], ?_⟩
  refine ⟨h.params.trans (run.params logLaws).symm, h.hints, hhead.trans block,
    hseg.trans h.segments, hnz, ?_, ?_, run.wellFormed logLaws laws h.wellFormed,
    h.codec.trans (run.valueCodec logLaws).symm⟩
  · intro j r k hj hr hk
    rw [sums']
    exact movedAll j r k hj hr hk
  · intro j r k out
    rw [sums', outsideAll j r k out]

/-- A published delta on its own. -/
theorem ingest_single (logLaws : C.LogLaws) (laws : B.ServerLaws) (h : Tracks client pinned head)
    {head' : RisePirServer C B} {d : BlockDelta} (run : BlockRun head [d] head') :
    ∃ client', client.ingestDelta d = (client', .ok ()) ∧ Tracks client' pinned head' := by
  have fits := run.fits logLaws d (by simp)
  have hblock : d.block = head'.block := by
    cases run with
    | cons next step rest =>
        cases rest
        exact (apply_published logLaws step).1.head.symm
  exact h.ingestDelta logLaws laws run (by simp) hblock fits.segments fits.canonical fun j r k => by
    simp

/-- A coalesced range of published deltas. -/
theorem ingest_range (logLaws : C.LogLaws) (laws : B.ServerLaws) (h : Tracks client pinned head)
    {head' : RisePirServer C B} {ds : List BlockDelta} (run : BlockRun head ds head')
    (hne : ds ≠ []) : ∃ d client', coalesce ds = .ok d ∧
      client.ingestDelta d = (client', .ok ()) ∧ Tracks client' pinned head' := by
  obtain ⟨d, hd, hblock, hseg, hcan, hat⟩ := run.coalesced logLaws hne
  obtain ⟨client', hingest, tracks⟩ := h.ingestDelta logLaws laws run hne hblock hseg hcan hat
  exact ⟨d, client', hd, hingest, tracks⟩

/-- A patched client state pins the hint of the head. -/
private theorem patchState_tracks (laws : B.Lawful) (h : Tracks client pinned head) {j : Nat}
    {st : B.ClientState} (hst : client.states[j]? = some st) :
    B.stateParams (client.patchState j st) = B.stateParams st ∧
      B.stateHint (client.patchState j st) =
        B.hintOf (B.stateParams st) (cellFn (segmentCells p head.store.cells j)) := by
  have hj : j < p.arity := by
    rw [← h.states_length]
    exact (List.getElem?_eq_some_iff.mp hst).1
  have words : (fun i => total (flatWords p.rowWidth (client.delta.segment j).terms) i) =
      deltaFn p.rowWidth (client.delta.asRowDeltas j) := by
    funext i
    rw [deltaFn, flatTerms, entries_asRowDeltas, List.map_map, flatWords]
    rfl
  have change : cellFn (segmentCells p head.store.cells j) = fun i =>
      cellFn (segmentCells p pinned.store.cells j) i +
        deltaFn p.rowWidth (client.delta.asRowDeltas j) i := by
    rw [h.cellFn_head hj, ← words]
  rw [RisePirClient.patchState]
  split
  · rename_i hempty
    refine ⟨rfl, ?_⟩
    rw [List.isEmpty_iff.mp hempty, deltaFn_nil] at change
    rw [h.hints j st hst, change]
    simp only [add_zero]
  · refine ⟨laws.patch_params _ _, ?_⟩
    rw [laws.patch_hint, h.hints j st hst, laws.toServerLaws.patch_hintOf,
      (h.describes hst).width_eq, change]

/-- The client that `collect_garbage` at the head leaves when something is pending. -/
def folded (client : RisePirClient C B) : RisePirClient C B :=
  { client with
      states := client.states.mapIdx client.patchState
      pinnedBlock := client.delta.head
      delta := .new client.states.length client.delta.head }

/-- Folding the pending delta into the hints pins the client at the head. -/
theorem fold_pending (laws : B.Lawful) (h : Tracks client pinned head) :
    Tracks (folded client) head head := by
  have states : ∀ j, (client.states.mapIdx client.patchState)[j]? =
      client.states[j]?.map (client.patchState j) := fun j => List.getElem?_mapIdx
  refine ⟨?_, ?_, h.headBlock, by simp [folded, PendingDelta.new, h.states_length],
    PendingDelta.new_noZeros _ _, ?_, ?_, h.wellFormed, h.codec⟩
  · rw [← h.params]
    refine List.ext_getElem? fun j => ?_
    rw [List.getElem?_map, List.getElem?_map, folded, states]
    cases hj : client.states[j]? with
    | none => rfl
    | some st => exact congrArg some (patchState_tracks laws h hj).1
  · intro j st hst
    rw [folded, states] at hst
    obtain ⟨st₀, h₀, rfl⟩ := Option.map_eq_some_iff.mp hst
    obtain ⟨params, hint⟩ := patchState_tracks laws h h₀
    rw [hint, params]
  · intro j row offset _ _ _
    change _ = _ + (PendingDelta.new _ _).at j row offset
    rw [PendingDelta.at_new, add_zero]
  · intro j row offset _
    exact PendingDelta.at_new _ _ _ _ _

/-- Garbage collection at the head keeps the client following, pinned there or where it was. -/
theorem collectGarbage (laws : B.Lawful) (h : Tracks client pinned head) :
    ∃ client' pinned', client.collectGarbage client.delta.head = (client', .ok ()) ∧
      Tracks client' pinned' head := by
  rw [RisePirClient.collectGarbage, if_neg (by simp)]
  split
  · exact ⟨client, pinned, rfl, h⟩
  · exact ⟨folded client, head, rfl, h.fold_pending laws⟩

end Tracks

end RisePir.Client.Tracking
