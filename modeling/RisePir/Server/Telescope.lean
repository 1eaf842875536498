import RisePir.Server.CellDelta
import RisePir.Server.Small

set_option autoImplicit false
set_option relaxedAutoImplicit false

/-! What one successful block does: its published delta is canonical, is exactly the
cells' change, and patches every hint to the hint of the new cells. -/

namespace RisePir.Server.Telescope

open RisePir.Lib.FlatMatrix
open RisePir.Lib.Sparse
open RisePir.Proto.Types
open RisePir.Upstream.Cuckoo
open RisePir.Upstream.Pir
open RisePir.Upstream.Slots
open RisePir.Server.Fold
open RisePir.Server.Core
open RisePir.Server.CellDelta
open RisePir.Server.Small

variable {p : CuckooParams} {C : SegmentedCuckoo p} {B : PirBackend}

/-- A segment's parameters describe the geometry, its material is the expansion of its
parameters, and its hint has the shape of `A · D`. -/
structure SegmentWellFormed (p : CuckooParams) (seg : SegmentState B) : Prop where
  describes : seg.params.Describes p.segmentSize p.rowWidth p.plaintextBits
  material : seg.material = B.expandHintMaterial seg.params
  hint : ∃ H, seg.hint = ⟨tabulate seg.params.lweDim seg.params.reshapeRowWidth H⟩

/-- Every segment is well formed. -/
def WellFormed (s : RisePirServer C B) : Prop := ∀ seg ∈ s.segments, SegmentWellFormed p seg

/-- The hints are `A · D` of the given cells: `hints[j] == A_j · D_j`. -/
def HintsMatch (segments : List (SegmentState B)) (cells : List (BitVec 32)) : Prop :=
  ∀ j seg, segments[j]? = some seg →
    seg.hint = B.hintOf seg.params (cellFn (segmentCells p cells j))

/-- The log's row deltas at any cell are the sums of the mutations'. -/
theorem fold_moved {cells after : List (BitVec 32)} {muts : List SlotMutation}
    (h : C.Replays cells muts after) (hcells : cells.length = p.totalCells) :
    Moved p cells after fun j row offset =>
      cellAt ((foldMutationsIntoRowDeltas C muts).getD j []) row offset := by
  intro j row offset _ hr ho
  have inside : ∀ m ∈ muts, m.bucket < p.numBuckets := fun m hm => (replays_inside h m hm).1
  simp only [fold_cellAt inside]
  exact replays_cellOf h hcells hr ho

theorem fold_entry_ne_zero {muts : List SlotMutation} {j : Nat} {e : (Nat × Nat) × Int}
    (he : e ∈ entries ((foldMutationsIntoRowDeltas C muts).getD j [])) :
    cellAt ((foldMutationsIntoRowDeltas C muts).getD j []) e.1.1 e.1.2 = e.2 ∧ e.2 ≠ 0 := by
  have canonical : Canonical ((foldMutationsIntoRowDeltas C muts).getD j []) :=
    BlockDelta.IsCanonical.segment (d := ⟨0, foldMutationsIntoRowDeltas C muts⟩)
      (fold_canonical muts) j
  exact canonical.mem_entries_iff.mp he

/-- The folded delta of a log fits the deployment. -/
theorem fold_fits {cells after : List (BitVec 32)} {muts : List SlotMutation}
    (h : C.Replays cells muts after) (hcells : cells.length = p.totalCells) (block : Nat) :
    Fits p ⟨block, foldMutationsIntoRowDeltas C muts⟩ := by
  have slots := replays_inside h
  have inside : ∀ m ∈ muts, m.bucket < p.numBuckets := fun m hm => (slots m hm).1
  have place : ∀ j, ∀ e ∈ entries ((foldMutationsIntoRowDeltas C muts).getD j []),
      j < p.arity ∧ e.1.1 < p.segmentSize ∧ e.1.2 < p.rowWidth := by
    intro j e he
    obtain ⟨hval, hne⟩ := fold_entry_ne_zero he
    rw [fold_cellAt inside] at hval
    obtain ⟨m, hm, hm0⟩ : ∃ m ∈ muts, mutationAt C m j e.1.1 e.1.2 ≠ 0 := by
      by_contra hnone
      push Not at hnone
      refine hne (hval.symm.trans (List.sum_eq_zero fun x hx => ?_))
      obtain ⟨m, hm, rfl⟩ := List.mem_map.mp hx
      exact hnone m hm
    exact mutationAt_inside (slots m hm) hm0
  refine ⟨fold_length muts, fold_canonical muts, fun j e he => (place j e he).2, ?_⟩
  intro j e he
  obtain ⟨hj, hr, ho⟩ := place j e he
  obtain ⟨hval, hne⟩ := fold_entry_ne_zero he
  have telescope := replays_cellOf h hcells (j := j) hr ho
  have sum := fold_cellAt (C := C) inside j e.1.1 e.1.2
  rw [← sum, hval] at telescope
  rcases replays_bounded h hcells (j := j) hr ho with hzero | ⟨hbefore, hafter⟩
  · exact absurd (hval.symm.trans (sum.trans hzero)) hne
  · have hb : (cellOf p cells j e.1.1 e.1.2 : Int) < 2 ^ p.plaintextBits := by exact_mod_cast hbefore
    have ha : (cellOf p after j e.1.1 e.1.2 : Int) < 2 ^ p.plaintextBits := by exact_mod_cast hafter
    rw [abs_lt]
    constructor
    · have := Int.natCast_nonneg (cellOf p after j e.1.1 e.1.2)
      omega
    · have := Int.natCast_nonneg (cellOf p cells j e.1.1 e.1.2)
      omega

/-- On a well-formed segment every patch, the skipped empty one included, adds `A · Δ`. -/
theorem patchSegment_hint (laws : B.ServerLaws) {seg : SegmentState B}
    (wf : SegmentWellFormed p seg) (H : Nat → Nat → BitVec 32)
    (hint : seg.hint = ⟨tabulate seg.params.lweDim seg.params.reshapeRowWidth H⟩)
    (deltas : SegmentRowDeltas) :
    (patchSegment seg deltas) = { seg with hint :=
      ⟨tabulate seg.params.lweDim seg.params.reshapeRowWidth fun i c => H i c +
        vecMul seg.params.shape (B.matrix seg.params i) (deltaFn p.rowWidth deltas) c⟩ } := by
  unfold patchSegment
  split
  · rename_i hempty
    have : deltas = [] := List.isEmpty_iff.mp hempty
    subst this
    rw [deltaFn_nil]
    simp only [vecMul_zero, add_zero, ← hint]
  · rw [wf.material, hint, laws.patch, wf.describes.width_eq]

theorem patchSegment_patchSegment (laws : B.ServerLaws) {seg : SegmentState B}
    (wf : SegmentWellFormed p seg) (H : Nat → Nat → BitVec 32)
    (hint : seg.hint = ⟨tabulate seg.params.lweDim seg.params.reshapeRowWidth H⟩)
    (deltas deltas' : SegmentRowDeltas) :
    patchSegment (patchSegment seg deltas) deltas' = { seg with hint :=
      ⟨tabulate seg.params.lweDim seg.params.reshapeRowWidth fun i c => H i c +
        vecMul seg.params.shape (B.matrix seg.params i) (deltaFn p.rowWidth deltas) c +
        vecMul seg.params.shape (B.matrix seg.params i) (deltaFn p.rowWidth deltas') c⟩ } := by
  have first := patchSegment_hint laws wf H hint deltas
  have wf' : SegmentWellFormed p (patchSegment seg deltas) := by
    rw [first]
    exact ⟨wf.describes, wf.material, _, rfl⟩
  have second := patchSegment_hint laws wf' (fun i c => H i c +
    vecMul seg.params.shape (B.matrix seg.params i) (deltaFn p.rowWidth deltas) c)
    (by rw [first]) deltas'
  rw [second, first]

theorem patchSegment_wellFormed (laws : B.ServerLaws) {seg : SegmentState B}
    (wf : SegmentWellFormed p seg) (deltas : SegmentRowDeltas) :
    SegmentWellFormed p (patchSegment seg deltas) := by
  obtain ⟨H, hint⟩ := wf.hint
  rw [patchSegment_hint laws wf H hint]
  exact ⟨wf.describes, wf.material, _, rfl⟩

theorem patchSegment_params (seg : SegmentState B) (deltas : SegmentRowDeltas) :
    (patchSegment seg deltas).params = seg.params := by
  unfold patchSegment
  split <;> rfl

theorem patchSegments_getElem? {segments : List (SegmentState B)}
    {rowDeltas : List SegmentRowDeltas} (length : rowDeltas.length = segments.length) (j : Nat) :
    (patchSegments segments rowDeltas)[j]? =
      segments[j]?.map fun seg => patchSegment seg (rowDeltas.getD j []) := by
  rw [patchSegments, List.getElem?_zipWith]
  by_cases hj : j < segments.length
  · have hj' : j < rowDeltas.length := by omega
    rw [List.getElem?_eq_getElem hj, List.getElem?_eq_getElem hj', List.getD_eq_getElem _ _ hj']
    rfl
  · rw [List.getElem?_eq_none (by omega), List.getElem?_eq_none (by omega)]
    rfl

theorem patchSegments_wellFormed (laws : B.ServerLaws) {segments : List (SegmentState B)}
    (wf : ∀ seg ∈ segments, SegmentWellFormed p seg) {rowDeltas : List SegmentRowDeltas}
    (length : rowDeltas.length = segments.length) :
    ∀ seg ∈ patchSegments segments rowDeltas, SegmentWellFormed p seg := by
  intro seg hseg
  obtain ⟨j, hj⟩ := List.mem_iff_getElem?.mp hseg
  rw [patchSegments_getElem? length] at hj
  obtain ⟨seg₀, h₀, rfl⟩ := Option.map_eq_some_iff.mp hj
  exact patchSegment_wellFormed laws (wf seg₀ (List.mem_of_getElem? h₀)) _

/-- A delta that is exactly the cells' change patches matching hints to matching hints. -/
theorem patchSegments_match (laws : B.ServerLaws) {segments : List (SegmentState B)}
    (wf : ∀ seg ∈ segments, SegmentWellFormed p seg) (hseg : segments.length = p.arity)
    {cells cells' : List (BitVec 32)} (hcells : cells.length = p.totalCells)
    (hcells' : cells'.length = p.totalCells) {d : BlockDelta} (fits : Fits p d)
    (moved : Moved p cells cells' d.at) (hints : HintsMatch (p := p) segments cells) :
    HintsMatch (p := p) (patchSegments segments d.perSegment) cells' := by
  intro j seg hj
  rw [patchSegments_getElem? (fits.segments.trans hseg.symm)] at hj
  obtain ⟨seg₀, h₀, rfl⟩ := Option.map_eq_some_iff.mp hj
  have hjlt : j < p.arity := by
    rw [← hseg]
    exact (List.getElem?_eq_some_iff.mp h₀).1
  have wf₀ := wf seg₀ (List.mem_of_getElem? h₀)
  have hint₀ := hints j seg₀ h₀
  rw [patchSegment_hint laws wf₀ _ hint₀]
  have change : cellFn (segmentCells p cells' j) = fun i =>
      cellFn (segmentCells p cells j) i + deltaFn p.rowWidth (segmentOf d j) i :=
    cellFn_moved hcells hcells' fits.inside moved hjlt
  rw [change]
  simp only [PirBackend.hintOf]
  congr 1
  exact tabulate_congr fun i _ c _ => (vecMul_add _ _ _ _ _).symm

private theorem deltaFn_fold_cons {cells after : List (BitVec 32)} {m : SlotMutation}
    {muts : List SlotMutation} (h : C.Replays cells (m :: muts) after)
    (hcells : cells.length = p.totalCells) (j : Nat) :
    deltaFn p.rowWidth ((foldMutationsIntoRowDeltas C (m :: muts)).getD j []) =
      fun i => deltaFn p.rowWidth ((foldMutationsIntoRowDeltas C [m]).getD j []) i +
        deltaFn p.rowWidth ((foldMutationsIntoRowDeltas C muts).getD j []) i := by
  obtain _ | @⟨_, _, _, _, slot, old, rest⟩ := h
  have hlen := writeSlot_length slot hcells (C.pack_length m.newFingerprint m.newValueCells)
  have whole : C.Replays cells (m :: muts) after := .cons slot old rest
  have one : C.Replays cells [m] _ := .cons slot old (.nil _)
  have fits := fun {ms a b} (hr : C.Replays a ms b) ha => (fold_fits hr ha 0).inside j
  have inside : ∀ m' ∈ m :: muts, m'.bucket < p.numBuckets :=
    fun m' hm => (replays_inside whole m' hm).1
  funext i
  have hi : i / p.rowWidth * p.rowWidth + i % p.rowWidth = i := Nat.div_add_mod' _ _
  have ho : i % p.rowWidth < p.rowWidth := Nat.mod_lt _ p.rowWidth_pos
  have word : ∀ {ms a b}, C.Replays a ms b → a.length = p.totalCells →
      deltaFn p.rowWidth ((foldMutationsIntoRowDeltas C ms).getD j []) i =
        BitVec.ofInt 32 (ms.map fun m => mutationAt C m j (i / p.rowWidth) (i % p.rowWidth)).sum := by
    intro ms a b hr ha
    rw [← fold_cellAt fun m' hm => (replays_inside hr m' hm).1]
    conv_lhs => rw [← hi]
    exact deltaFn_cell (fun e he => (fits hr ha e he).2) ho
  rw [word whole hcells, word one hcells, word rest hlen, ← BitVec.ofInt_add]
  simp

/-- Patching once per slot mutation, in log order. -/
def patchPerMutation (C : SegmentedCuckoo p) (segments : List (SegmentState B))
    (muts : List SlotMutation) : List (SegmentState B) :=
  muts.foldl (fun segs m => patchSegments segs (foldMutationsIntoRowDeltas C [m])) segments

/-- The batched patch of a whole log is the patches of its mutations one by one. -/
theorem patchSegments_batched (laws : B.ServerLaws)
    {segments : List (SegmentState B)} (wf : ∀ seg ∈ segments, SegmentWellFormed p seg)
    (hseg : segments.length = p.arity) {cells after : List (BitVec 32)} {muts : List SlotMutation}
    (h : C.Replays cells muts after) (hcells : cells.length = p.totalCells) :
    patchSegments segments (foldMutationsIntoRowDeltas C muts) =
      patchPerMutation C segments muts := by
  have foldLength : ∀ ms, (foldMutationsIntoRowDeltas C ms).length = segments.length :=
    fun ms => (fold_length ms).trans hseg.symm
  induction muts generalizing segments cells with
  | nil =>
      refine List.ext_getElem? fun j => ?_
      rw [patchSegments_getElem? (foldLength []), patchPerMutation, List.foldl_nil]
      have empty : (foldMutationsIntoRowDeltas C []).getD j [] = [] := by
        have zero : Accumulator.toRows (∅ : Accumulator Nat Nat Int) = [] := rfl
        by_cases hj : j < p.arity <;> simp [foldMutationsIntoRowDeltas, hj, zero]
      rw [empty]
      cases segments[j]? <;> rfl
  | cons m muts ih =>
      have whole := h
      obtain _ | @⟨_, _, _, _, slot, old, rest⟩ := h
      have hlen := writeSlot_length slot hcells
        (C.pack_length m.newFingerprint m.newValueCells)
      have first : (patchSegments segments (foldMutationsIntoRowDeltas C [m])).length = p.arity := by
        rw [patchSegments, List.length_zipWith, fold_length, hseg, Nat.min_self]
      have step := ih (patchSegments_wellFormed laws wf (foldLength [m])) first rest hlen
        fun ms => (fold_length ms).trans first.symm
      rw [patchPerMutation, List.foldl_cons, ← patchPerMutation, ← step]
      refine List.ext_getElem? fun j => ?_
      rw [patchSegments_getElem? (foldLength _),
        patchSegments_getElem? ((fold_length muts).trans first.symm),
        patchSegments_getElem? (foldLength _)]
      cases hj : segments[j]? with
      | none => rfl
      | some seg =>
          have wf₀ := wf seg (List.mem_of_getElem? hj)
          obtain ⟨H, hint⟩ := wf₀.hint
          simp only [Option.map_some]
          rw [patchSegment_patchSegment laws wf₀ H hint, patchSegment_hint laws wf₀ H hint,
            deltaFn_fold_cons whole hcells]
          simp only [vecMul_add, add_assoc]

/-- The mutations that a block's writes leave in the log. -/
def blockLog (rng : C.Rng) (s : RisePirServer C B) (update : BlockUpdate) : List SlotMutation :=
  (applyEntries s.valueCodec ⟨rng, s.store⟩ update).1.store.mutationLog

/-- What a successful block publishes and leaves behind. -/
structure Published (s s' : RisePirServer C B) (delta : BlockDelta) :
    Prop where
  ascends : s.block < delta.block
  head : s'.block = delta.block
  fits : Fits p delta
  moved : Moved p s.store.cells s'.store.cells delta.at
  segments : s'.segments = patchSegments s.segments delta.perSegment
  codec : s'.valueCodec = s.valueCodec

theorem apply_published (laws : C.LogLaws) {rng : C.Rng} {s s' : RisePirServer C B}
    {update : BlockUpdate} {delta : BlockDelta} {report : BlockApplyReport}
    (h : s.applyBlockReporting rng update = (s', .ok (delta, report))) :
    Published s s' delta ∧ delta.block = update.block := by
  obtain ⟨hblock, t, kinds, -, hcommit, hreplays⟩ := RisePirServer.apply_ok_cases laws h
  simp only [RisePirServer.commitBlock, Prod.mk.injEq] at hcommit
  obtain ⟨rfl, rfl⟩ := hcommit
  exact ⟨⟨hblock, rfl, fold_fits hreplays s.store.cells_length _,
    fold_moved hreplays s.store.cells_length, rfl, rfl⟩, rfl⟩

theorem Published.wellFormed (laws : B.ServerLaws) {s s' : RisePirServer C B} {delta : BlockDelta}
    (h : Published s s' delta) (wf : WellFormed s) : WellFormed s' := by
  intro seg hseg
  rw [h.segments] at hseg
  exact patchSegments_wellFormed laws wf (h.fits.segments.trans s.segments_length.symm) seg hseg

theorem Published.hintsMatch (laws : B.ServerLaws) {s s' : RisePirServer C B} {delta : BlockDelta}
    (h : Published s s' delta) (wf : WellFormed s)
    (hints : HintsMatch (p := p) s.segments s.store.cells) :
    HintsMatch (p := p) s'.segments s'.store.cells := by
  rw [h.segments]
  exact patchSegments_match laws wf s.segments_length s.store.cells_length s'.store.cells_length
    h.fits h.moved hints

/-- The server that `new` builds is well formed and its hints match its cells. -/
theorem new_hintsMatch (laws : B.ServerLaws) (store : C.Store) (config : B.Config)
    (coins : Nat → B.Coins) (codec : Proto.Value.ValueCodec) (genesisBlock : Nat)
    (value_bits : codec.valueBits = p.valueBits) :
    WellFormed (RisePirServer.new (B := B) store config coins codec genesisBlock value_bits) ∧
      HintsMatch (p := p) (RisePirServer.new (B := B) store config coins codec genesisBlock
        value_bits).segments store.cells := by
  have setup := fun j (hj : j < p.arity) => laws.setup config (coins j)
    (segmentCells p store.cells j) p.segmentSize p.rowWidth p.plaintextBits p.segmentSize_pos
    p.rowWidth_pos (segmentCells_length store.cells_length hj)
  have segment : ∀ j seg, (RisePirServer.new (B := B) store config coins codec genesisBlock
      value_bits).segments[j]? = some seg → j < p.arity ∧
        seg = ⟨(B.serverSetup config (coins j) (segmentCells p store.cells j) p.segmentSize
          p.rowWidth p.plaintextBits).1, (B.serverSetup config (coins j)
            (segmentCells p store.cells j) p.segmentSize p.rowWidth p.plaintextBits).2.1,
          (B.serverSetup config (coins j) (segmentCells p store.cells j) p.segmentSize
            p.rowWidth p.plaintextBits).2.2⟩ := by
    intro j seg h
    simp only [RisePirServer.new, List.getElem?_map, Option.map_eq_some_iff] at h
    obtain ⟨i, hi, rfl⟩ := h
    obtain ⟨hlt, rfl⟩ := List.getElem?_eq_some_iff.mp hi
    rw [List.getElem_range]
    exact ⟨by simpa using hlt, rfl⟩
  constructor
  · intro seg hseg
    obtain ⟨j, hj⟩ := List.mem_iff_getElem?.mp hseg
    obtain ⟨hlt, rfl⟩ := segment j seg hj
    obtain ⟨hdesc, hmat, hhint⟩ := setup j hlt
    exact ⟨hdesc, hmat, _, hhint⟩
  · intro j seg hj
    obtain ⟨hlt, rfl⟩ := segment j seg hj
    exact (setup j hlt).2.2

/-- One successful block: the delta is canonical with every entry on a cell of its
segment and below the plaintext modulus; the cells move by the delta and nowhere else;
the batched hint patch is the per-mutation patches in log order; and hints that matched
the old cells match the new ones. -/
theorem apply_block_telescopes (logLaws : C.LogLaws) (laws : B.ServerLaws) {rng : C.Rng}
    {s s' : RisePirServer C B} {update : BlockUpdate} {delta : BlockDelta}
    {report : BlockApplyReport} (wf : WellFormed s)
    (h : s.applyBlockReporting rng update = (s', .ok (delta, report))) :
    delta.perSegment.length = p.arity ∧ (∀ seg ∈ delta.perSegment, Canonical seg) ∧
      (∀ j, ∀ e ∈ entries (segmentOf delta j),
        e.1.1 < p.segmentSize ∧ e.1.2 < p.rowWidth ∧ |e.2| < 2 ^ p.plaintextBits) ∧
      (∀ j row offset, j < p.arity → row < p.segmentSize → offset < p.rowWidth →
        (cellOf p s'.store.cells j row offset : Int) =
          cellOf p s.store.cells j row offset + delta.at j row offset) ∧
      s'.segments = patchPerMutation C s.segments (blockLog rng s update) ∧
      (HintsMatch (p := p) s.segments s.store.cells →
        HintsMatch (p := p) s'.segments s'.store.cells) := by
  obtain ⟨published, -⟩ := apply_published logLaws h
  obtain ⟨-, t, kinds, hentries, hcommit, hreplays⟩ := RisePirServer.apply_ok_cases logLaws h
  have log : blockLog rng s update = t.store.mutationLog := by rw [blockLog, hentries]
  refine ⟨published.fits.segments, published.fits.canonical,
    fun j e he => ⟨(published.fits.inside j e he).1, (published.fits.inside j e he).2,
      published.fits.magnitude j e he⟩, published.moved, ?_, published.hintsMatch laws wf⟩
  simp only [RisePirServer.commitBlock, Prod.mk.injEq] at hcommit
  obtain ⟨rfl, -⟩ := hcommit
  rw [log]
  exact patchSegments_batched laws wf s.segments_length hreplays s.store.cells_length

/-- The small server is well formed and its hints match its cells. -/
theorem smallServer_hintsMatch (genesisBlock : Nat) : WellFormed (smallServer genesisBlock) ∧
    HintsMatch (p := smallParams) (smallServer genesisBlock).segments
      (smallServer genesisBlock).store.cells :=
  new_hintsMatch Upstream.ReferencePir.serverLaws _ _ _ _ _ _

private def twoEntries : BlockUpdate :=
  ⟨1, [(smallKey 3 1 0 0, 5), (smallKey 4 2 0 1, 7)], [(smallKey 3 1 0 0, 2)]⟩

private theorem twoEntries_succeeds : (smallServer 0).succeeds (draw 0) twoEntries = true := by
  decide

/-- A block of two inserts and a credit, in which one slot is written twice. -/
theorem apply_block_telescopes_twoEntries :
    ((smallServer 0).after (draw 0) twoEntries).segments =
        patchPerMutation (Upstream.ReferenceTable.referenceTable smallParams)
          (smallServer 0).segments (blockLog (draw 0) (smallServer 0) twoEntries) ∧
      HintsMatch (p := smallParams) ((smallServer 0).after (draw 0) twoEntries).segments
        ((smallServer 0).after (draw 0) twoEntries).store.cells := by
  obtain ⟨delta, report, run⟩ := SmallServer.applied twoEntries_succeeds
  obtain ⟨wf, hints⟩ := smallServer_hintsMatch 0
  obtain ⟨-, -, -, -, patched, matching⟩ := apply_block_telescopes
    (Upstream.ReferenceTable.logLaws smallParams) Upstream.ReferencePir.serverLaws wf run
  exact ⟨patched, matching hints⟩

end RisePir.Server.Telescope
