import RisePir.Http.Node
import RisePir.Server.Refusal
import RisePir.Server.Run

set_option autoImplicit false
set_option relaxedAutoImplicit false

/-! What a node serves over a whole run: at every moment its answers, its setup bundles and
its deltas speak of the same databases. -/

namespace RisePir.Http.Serving

open RisePir.Lib.Sparse
open RisePir.Proto.Types
open RisePir.Proto.Codec
open RisePir.Upstream.Cuckoo
open RisePir.Upstream.Pir
open RisePir.Server.Core
open RisePir.Server.CellDelta
open RisePir.Server.DeltaRing
open RisePir.Server.Refusal
open RisePir.Server.Run
open RisePir.Server.Small
open RisePir.Server.Telescope
open RisePir.Http.Node

variable {p : CuckooParams} {C : SegmentedCuckoo p} {B : PirBackend}

section History

/-- The initial cells with every delta published up to `block` added. -/
def DatabaseAt (p : CuckooParams) (initial : List (BitVec 32)) (ds : List BlockDelta) (block : Nat)
    (cells : List (BitVec 32)) : Prop := Moved p initial cells (sumAt (upTo ds block))

/-- Published deltas: ascending blocks, each delta of the deployment, and at every block a
store that holds the database there. -/
structure History (C : SegmentedCuckoo p) (initial : List (BitVec 32)) (ds : List BlockDelta) :
    Prop where
  ascending : Ascending ds
  fits : ∀ d ∈ ds, Fits p d
  word : ∀ d ∈ ds, d.block < 2 ^ 64
  stores : ∀ block, ∃ store : C.Store, DatabaseAt p initial ds block store.cells

theorem moved_sub {a b c : List (BitVec 32)} {f g : Nat → Nat → Nat → Int} (hb : Moved p a b f)
    (hc : Moved p a c g) : Moved p b c fun j row offset => g j row offset - f j row offset := by
  intro j row offset hj hr ho
  rw [hc j row offset hj hr ho, hb j row offset hj hr ho]
  dsimp only
  omega

theorem sumAt_outside {ds : List BlockDelta} (fits : ∀ d ∈ ds, Fits p d) {j row offset : Nat}
    (out : ¬ (j < p.arity ∧ row < p.segmentSize ∧ offset < p.rowWidth)) :
    sumAt ds j row offset = 0 := by
  refine List.sum_eq_zero fun x hx => ?_
  obtain ⟨d, hd, rfl⟩ := List.mem_map.mp hx
  exact Fits.outside (fits d hd) out

variable {initial : List (BitVec 32)} {ds : List BlockDelta}

/-- The databases at two blocks differ by what was published between them. -/
theorem databaseAt_between {block block' : Nat} (le : block ≤ block') {cells cells' : List (BitVec 32)}
    (h : DatabaseAt p initial ds block cells) (h' : DatabaseAt p initial ds block' cells') :
    Moved p cells cells' (sumAt (between ds block block')) := by
  intro j row offset hj hr ho
  have step := moved_sub h h' j row offset hj hr ho
  dsimp only at step
  rw [sumAt_upTo ds le] at step
  omega

namespace History

theorem between_magnitude (h : History C initial ds) {block block' : Nat} (le : block ≤ block')
    (j row offset : Nat) : |sumAt (between ds block block') j row offset| < 2 ^ p.plaintextBits := by
  obtain ⟨store, hstore⟩ := h.stores block
  obtain ⟨store', hstore'⟩ := h.stores block'
  refine Moved.magnitude (databaseAt_between le hstore hstore') (fun _ _ _ => ?_) j row offset
  exact sumAt_outside fun d hd => h.fits d (List.mem_of_mem_filter hd)

/-- A range that a ring of the latest deltas serves lies below the head, is a delta of the
deployment, and its body decodes to it. -/
theorem range_served (h : History C initial ds) {head : Nat} (below : ∀ d ∈ ds, d.block ≤ head)
    (word : head < 2 ^ 64) {r : Ring} (suffix : r.buf <:+ ds) {fromBlock toBlock : Nat}
    {d : BlockDelta} (served : r.range fromBlock toBlock = some d) :
    fromBlock < toBlock ∧ toBlock ≤ head ∧ d.block = toBlock ∧
      decodeBlockDelta (encodeBlockDelta d) p.plaintextBits p.arity = .ok d ∧
      ∀ j row offset, d.at j row offset = sumAt (between ds fromBlock toBlock) j row offset := by
  obtain ⟨hlt, hfull, hblock, hsegments, hcanonical, hat⟩ := r.range_spec suffix h.ascending h.fits
    (fun b b' le j row offset => inI64_of_magnitude (h.between_magnitude le j row offset)) served
  have fits : Fits p d := by
    refine fits_of_at hsegments hcanonical (fun j row offset out => ?_) fun j row offset => ?_
    · rw [hat]
      exact sumAt_outside (fun e he => h.fits e (List.mem_of_mem_filter he)) out
    · rw [hat]
      exact h.between_magnitude hlt.le j row offset
  have room : (between ds fromBlock toBlock).length ≤ head + 1 - (fromBlock + 1) := by
    refine Ascending.length_le (h.ascending.filter _) (fun e he => ?_) fun e he => ?_
    · have := (List.mem_filter.mp he).2
      simp only [decide_eq_true_eq] at this
      omega
    · exact Nat.lt_succ_of_le (below e (List.mem_of_mem_filter he))
  have le : toBlock ≤ head := by omega
  exact ⟨hlt, le, hblock, fits.decode_encode (by omega), hat⟩

/-- One more block, whose delta leads to a store. -/
theorem append (h : History C initial ds) {head : Nat} (below : ∀ d ∈ ds, d.block ≤ head)
    {d : BlockDelta} (above : head < d.block) (fits : Fits p d) (word : d.block < 2 ^ 64)
    {store : C.Store} (moved : Moved p initial store.cells (sumAt (ds ++ [d]))) :
    History C initial (ds ++ [d]) where
  ascending := by
    refine List.pairwise_append.mpr ⟨h.ascending, List.pairwise_singleton _ _, fun e he e' he' => ?_⟩
    rw [List.mem_singleton.mp he']
    exact lt_of_le_of_lt (below e he) above
  fits e he := by
    rcases List.mem_append.mp he with he | he
    · exact h.fits e he
    · rw [List.mem_singleton.mp he]
      exact fits
  word e he := by
    rcases List.mem_append.mp he with he | he
    · exact h.word e he
    · rw [List.mem_singleton.mp he]
      exact word
  stores block := by
    by_cases hblock : block < d.block
    · obtain ⟨store', hstore'⟩ := h.stores block
      refine ⟨store', ?_⟩
      have same : upTo (ds ++ [d]) block = upTo ds block := upTo_append_later fun e he => by
        rw [List.mem_singleton.mp he]
        exact hblock
      rw [DatabaseAt, same]
      exact hstore'
    · refine ⟨store, ?_⟩
      have whole : upTo (ds ++ [d]) block = ds ++ [d] := by
        refine upTo_of_le fun e he => ?_
        rcases List.mem_append.mp he with he | he
        · have := below e he
          omega
        · rw [List.mem_singleton.mp he]
          omega
      rw [DatabaseAt, whole]
      exact moved

end History

end History

/-- A bundle's hints are `A · D` of the given cells. -/
def BundleMatches (p : CuckooParams) (B : PirBackend) (cells : List (BitVec 32)) (bundle : SetupBundle) :
    Prop := bundle.params = p ∧ ∀ j sp hint, bundle.backendParams[j]? = some sp →
      bundle.hints[j]? = some hint → hint = B.hintOf sp (cellFn (segmentCells p cells j))

/-- A node whose cells, hints, retained deltas and cached bundle all come from the initial
cells and the published deltas. -/
structure Consistent (initial : List (BitVec 32)) (ds : List BlockDelta) (node : NodeState C B) :
    Prop where
  history : History C initial ds
  word : node.server.block < 2 ^ 64
  below : ∀ d ∈ ds, d.block ≤ node.server.block
  cells : Moved p initial node.server.store.cells (sumAt ds)
  wellFormed : WellFormed node.server
  hints : HintsMatch (p := p) node.server.segments node.server.store.cells
  ring : node.ring.buf <:+ ds
  perBlock : ∀ block d, node.perBlock[block]? = some d → d ∈ ds ∧ d.block = block
  setup : ∀ bundle, node.setupCache = some bundle → bundle.block ≤ node.server.block ∧
    ∃ store : C.Store, DatabaseAt p initial ds bundle.block store.cells ∧
      BundleMatches p B store.cells bundle

/-- The responses to a query bundle computed from given cells: `q · D` per segment. -/
def answersFrom (server : RisePirServer C B) (cells : List (BitVec 32)) (queries : List Query) :
    List Response :=
  (server.segments.zip queries).mapIdx fun j entry =>
    entry.1.params.product entry.2 (cellFn (segmentCells p cells j))

/-- Everything a node serves at its block speaks of one database per block: the cells
behind an answer, the bundle behind `/setup`, and the deltas of `/sync` and `/delta`. -/
structure Serves (initial : List (BitVec 32)) (ds : List BlockDelta) (node : NodeState C B) :
    Prop where
  cells : DatabaseAt p initial ds node.server.block node.server.store.cells
  hints : HintsMatch (p := p) node.server.segments node.server.store.cells
  answer : ∀ queries responses block,
    node.answer (some node.epoch) queries = .ok (responses, block) →
      block = node.server.block ∧ responses = answersFrom node.server node.server.store.cells queries
  setup : node.setupBytes.2.block ≤ node.server.block ∧ ∃ cells,
    DatabaseAt p initial ds node.setupBytes.2.block cells ∧ BundleMatches p B cells node.setupBytes.2
  sync : ∀ fromBlock toBlock body,
    node.sync (some node.epoch) (some (fromBlock, toBlock)) = .ok body →
      toBlock ≤ node.server.block ∧ ∃ d,
        decodeBlockDelta body p.plaintextBits p.arity = .ok d ∧ d.block = toBlock ∧
        ∀ cells cells', DatabaseAt p initial ds fromBlock cells →
          DatabaseAt p initial ds toBlock cells' → Moved p cells cells' d.at
  delta : ∀ block body, node.deltaByBlock block (some node.epoch) = .ok body →
    ∃ d ∈ ds, d.block = block ∧ decodeBlockDelta body p.plaintextBits p.arity = .ok d

/-- A run of a node: blocks that are applied, blocks that fail, and `/setup` requests; the
other endpoints only read. `refusal` says which failing blocks the run may meet. -/
inductive NodeRun (refusal : C.Rng → RisePirServer C B → BlockUpdate → Prop) :
    NodeState C B → List BlockDelta → NodeState C B → Prop
  | start (node : NodeState C B) : NodeRun refusal node [] node
  | applied {node mid node' : NodeState C B} {ds : List BlockDelta} {rng : C.Rng}
      {update : BlockUpdate} {delta : BlockDelta} {report : BlockApplyReport}
      (run : NodeRun refusal node ds mid) (word : update.block < 2 ^ 64)
      (step : mid.applyBlockReporting rng update = (node', .ok (delta, report))) :
      NodeRun refusal node (ds ++ [delta]) node'
  | failed {node mid node' : NodeState C B} {ds : List BlockDelta} {rng : C.Rng}
      {update : BlockUpdate} {e : ServerError} (run : NodeRun refusal node ds mid)
      (allowed : refusal rng mid.server update)
      (step : mid.applyBlockReporting rng update = (node', .error e)) :
      NodeRun refusal node ds node'
  | setup {node mid : NodeState C B} {ds : List BlockDelta} (run : NodeRun refusal node ds mid) :
      NodeRun refusal node ds mid.setupBytes.1

section Steps

variable {initial : List (BitVec 32)} {ds : List BlockDelta} {node node' : NodeState C B}

theorem Consistent.database (h : Consistent initial ds node) :
    DatabaseAt p initial ds node.server.block node.server.store.cells := by
  rw [DatabaseAt, upTo_of_le h.below]
  exact h.cells

/-- The bundle of the current head. -/
theorem Consistent.currentBundle (h : Consistent initial ds node) :
    BundleMatches p B node.server.store.cells node.server.setup := by
  refine ⟨rfl, fun j sp hint hsp hhint => ?_⟩
  simp only [RisePirServer.setup, List.getElem?_map, Option.map_eq_some_iff] at hsp hhint
  obtain ⟨seg, hseg, rfl⟩ := hsp
  obtain ⟨seg', hseg', rfl⟩ := hhint
  cases hseg.symm.trans hseg'
  exact h.hints j seg hseg

/-- Either bundle that `/setup` may hand out matches the database at its block. -/
theorem Consistent.setupBytes (h : Consistent initial ds node) :
    node.setupBytes.2.block ≤ node.server.block ∧
      (∃ store : C.Store, DatabaseAt p initial ds node.setupBytes.2.block store.cells ∧
        BundleMatches p B store.cells node.setupBytes.2) ∧
      Consistent initial ds node.setupBytes.1 := by
  have fresh : node.regenerate.2.block ≤ node.server.block ∧
      (∃ store : C.Store, DatabaseAt p initial ds node.regenerate.2.block store.cells ∧
        BundleMatches p B store.cells node.regenerate.2) ∧
      Consistent initial ds node.regenerate.1 := by
    have bundle : ∃ store : C.Store, DatabaseAt p initial ds node.regenerate.2.block store.cells ∧
        BundleMatches p B store.cells node.regenerate.2 :=
      ⟨node.server.store, h.database, h.currentBundle⟩
    refine ⟨Nat.le_refl _, bundle, { h with setup := ?_ }⟩
    intro b hb
    cases hb
    exact ⟨Nat.le_refl _, bundle⟩
  unfold NodeState.setupBytes
  cases hcache : node.setupCache with
  | none => exact fresh
  | some cached =>
      dsimp only
      split
      · exact ⟨(h.setup cached hcache).1, (h.setup cached hcache).2, h⟩
      · exact fresh

private theorem mem_evict {ring : Ring} {perBlock : Std.ExtTreeMap Nat BlockDelta} {block : Nat}
    {d : BlockDelta} (h : (evict ring perBlock)[block]? = some d) : perBlock[block]? = some d := by
  unfold evict at h
  cases holdest : ring.oldest with
  | none =>
      rw [holdest] at h
      exact h
  | some oldest =>
      rw [holdest] at h
      dsimp only at h
      rw [Std.ExtTreeMap.getElem?_filter'] at h
      exact (Option.filter_eq_some_iff.mp h).1

/-- A published block keeps the node consistent. -/
theorem Consistent.applied (logLaws : C.LogLaws) (laws : B.ServerLaws)
    (h : Consistent initial ds node) {rng : C.Rng} {update : BlockUpdate} {delta : BlockDelta}
    {report : BlockApplyReport} (word : update.block < 2 ^ 64)
    (step : node.applyBlockReporting rng update = (node', .ok (delta, report))) :
    Consistent initial (ds ++ [delta]) node' := by
  unfold NodeState.applyBlockReporting at step
  cases hs : node.server.applyBlockReporting rng update with
  | mk server r =>
      rw [hs] at step
      cases r with
      | error e => cases step
      | ok out =>
          obtain ⟨delta', report'⟩ := out
          obtain ⟨published, hblock⟩ := apply_published logLaws hs
          dsimp only at step
          cases step
          have above : ∀ d ∈ ds, d.block < delta.block :=
            fun d hd => lt_of_le_of_lt (h.below d hd) published.ascends
          have moved : Moved p initial server.store.cells (sumAt (ds ++ [delta])) := by
            have whole := h.cells.trans published.moved
            intro j row offset hj hr ho
            rw [whole j row offset hj hr ho, sumAt_append, sumAt_cons, sumAt_nil, add_zero]
          refine ⟨h.history.append h.below published.ascends published.fits (hblock ▸ word) moved,
            published.head.trans hblock ▸ word, ?_, moved, published.wellFormed laws h.wellFormed,
            published.hintsMatch laws h.wellFormed h.hints, Ring.push_suffix h.ring delta, ?_, ?_⟩
          · intro d hd
            rw [published.head]
            rcases List.mem_append.mp hd with hd | hd
            · exact (above d hd).le
            · rw [List.mem_singleton.mp hd]
          · intro block d hd
            have hd := mem_evict hd
            rw [Std.ExtTreeMap.getElem?_insert] at hd
            split at hd
            · rename_i heq
              cases hd
              exact ⟨by simp, by simpa using heq⟩
            · obtain ⟨hmem, hb⟩ := h.perBlock block d hd
              exact ⟨List.mem_append_left _ hmem, hb⟩
          · intro bundle hbundle
            obtain ⟨hle, store, hstore, hmatch⟩ := h.setup bundle hbundle
            have before : bundle.block < delta.block := lt_of_le_of_lt hle published.ascends
            refine ⟨by rw [published.head]; exact before.le, store, ?_, hmatch⟩
            rw [DatabaseAt, upTo_append_later fun d hd => by rw [List.mem_singleton.mp hd]; exact before]
            exact hstore

/-- A block refused unwritten keeps the node consistent. -/
theorem Consistent.failed (laws : C.PlacementLaws) (h : Consistent initial ds node) {rng : C.Rng}
    {update : BlockUpdate} {e : ServerError} (refused : RefusedUnwritten C rng node.server update)
    (step : node.applyBlockReporting rng update = (node', .error e)) :
    Consistent initial ds node' := by
  obtain ⟨server, e', happly, hcells, hsegments, hblock, -⟩ := refused.untouched laws
  unfold NodeState.applyBlockReporting at step
  rw [happly] at step
  cases step
  refine ⟨h.history, hblock ▸ h.word, fun d hd => ?_, ?_, ?_, ?_, h.ring, h.perBlock,
    fun bundle hbundle => ?_⟩
  · rw [hblock]
    exact h.below d hd
  · rw [hcells]
    exact h.cells
  · intro seg hseg
    exact h.wellFormed seg (hsegments ▸ hseg)
  · rw [hsegments, hcells]
    exact h.hints
  · rw [hblock]
    exact h.setup bundle hbundle

theorem NodeRun.consistent (logLaws : C.LogLaws) (placementLaws : C.PlacementLaws)
    (laws : B.ServerLaws) {published : List BlockDelta}
    (run : NodeRun (RefusedUnwritten C) node published node') (start : Consistent initial ds node) :
    Consistent initial (ds ++ published) node' := by
  induction run with
  | start =>
      rw [List.append_nil]
      exact start
  | applied run word step ih =>
      rw [← List.append_assoc]
      exact ih.applied logLaws laws word step
  | failed run allowed step ih => exact ih.failed placementLaws allowed step
  | setup run ih => exact ih.setupBytes.2.2

private theorem epochGate_self : node.epochGate (some node.epoch) = none := by
  rw [NodeState.epochGate, if_pos rfl]

private theorem answer_from (laws : B.ServerLaws) (wellFormed : WellFormed node.server)
    {queries : List Query} {responses : List Response} {block : Nat}
    (h : node.server.answer queries = .ok (responses, block)) : block = node.server.block ∧
      responses = answersFrom node.server node.server.store.cells queries := by
  unfold RisePirServer.answer at h
  split at h
  · cases h
  cases h
  refine ⟨rfl, List.ext_getElem? fun j => ?_⟩
  rw [answersFrom, List.getElem?_mapIdx, List.getElem?_mapIdx]
  cases hj : (node.server.segments.zip queries)[j]? with
  | none => rfl
  | some entry =>
      have hseg : node.server.segments[j]? = some entry.1 :=
        (List.getElem?_zip_eq_some.mp hj).1
      have hlt : j < p.arity := by
        rw [← node.server.segments_length]
        exact (List.getElem?_eq_some_iff.mp hseg).1
      have describes := (wellFormed entry.1 (List.mem_of_getElem? hseg)).describes
      simp only [Option.map_some]
      rw [laws.answer _ _ _ _ _ _ describes (segmentCells_length node.server.store.cells_length hlt)]

/-- A consistent node serves one database per block. -/
theorem Consistent.serves (laws : B.ServerLaws) (h : Consistent initial ds node) :
    Serves initial ds node where
  cells := h.database
  hints := h.hints
  answer queries responses block hanswer := by
    unfold NodeState.answer at hanswer
    rw [epochGate_self] at hanswer
    dsimp only at hanswer
    cases hs : node.server.answer queries with
    | error e =>
        rw [hs] at hanswer
        cases hanswer
    | ok out =>
        rw [hs] at hanswer
        cases hanswer
        exact answer_from laws h.wellFormed hs
  setup := by
    obtain ⟨hle, ⟨store, hstore, hmatch⟩, -⟩ := h.setupBytes
    exact ⟨hle, store.cells, hstore, hmatch⟩
  sync fromBlock toBlock body hsync := by
    unfold NodeState.sync at hsync
    rw [epochGate_self] at hsync
    dsimp only at hsync
    cases hrange : node.ring.range fromBlock toBlock with
    | none =>
        rw [hrange] at hsync
        cases hsync
    | some d =>
        rw [hrange] at hsync
        cases hsync
        obtain ⟨hlt, hle, hblock, hdecode, hat⟩ :=
          h.history.range_served h.below h.word h.ring hrange
        refine ⟨hle, d, hdecode, hblock, fun cells cells' hcells hcells' j row offset hj hr ho => ?_⟩
        rw [databaseAt_between hlt.le hcells hcells' j row offset hj hr ho, hat]
  delta block body hdelta := by
    unfold NodeState.deltaByBlock at hdelta
    rw [if_neg (by simp)] at hdelta
    cases hget : node.perBlock[block]? with
    | none =>
        rw [hget] at hdelta
        cases hdelta
    | some d =>
        rw [hget] at hdelta
        cases hdelta
        obtain ⟨hmem, hblock⟩ := h.perBlock block d hget
        exact ⟨d, hmem, hblock, (h.history.fits d hmem).decode_encode (h.history.word d hmem)⟩

end Steps

/-- A fresh node over a server whose hints match its cells is consistent. -/
theorem new_consistent (keccak256 : List UInt8 → List UInt8) {server : RisePirServer C B}
    (word : server.block < 2 ^ 64) (wellFormed : WellFormed server)
    (hints : HintsMatch (p := p) server.segments server.store.cells) {capacity : Nat}
    (capacity_pos : 0 < capacity) (complete : Bool) :
    Consistent server.store.cells [] (NodeState.new keccak256 server (.new capacity capacity_pos)
      complete) where
  history := ⟨List.Pairwise.nil, by simp, by simp, fun _ => ⟨server.store, Moved.refl _⟩⟩
  word := word
  below := by simp
  cells := Moved.refl _
  wellFormed := wellFormed
  hints := hints
  ring := List.suffix_refl []
  perBlock block d h := by simp [NodeState.new] at h
  setup bundle h := by cases h

/-- An applied block's server is the server's own, and so is a failed one's. -/
theorem apply_server {rng : C.Rng} {node node' : NodeState C B} {update : BlockUpdate}
    {r : Except ServerError (BlockDelta × BlockApplyReport)}
    (step : node.applyBlockReporting rng update = (node', r)) :
    node.server.applyBlockReporting rng update = (node'.server, r) := by
  unfold NodeState.applyBlockReporting at step
  cases hs : node.server.applyBlockReporting rng update with
  | mk server r' =>
      rw [hs] at step
      cases r' <;> cases step <;> rfl

theorem setupBytes_server (node : NodeState C B) : node.setupBytes.1.server = node.server := by
  unfold NodeState.setupBytes
  cases node.setupCache with
  | none => rfl
  | some cached =>
      dsimp only
      split <;> rfl

/-- What a run publishes lies above the block it starts at. -/
theorem NodeRun.above (logLaws : C.LogLaws) {refusal : C.Rng → RisePirServer C B → BlockUpdate → Prop}
    {published : List BlockDelta} {node node' : NodeState C B} (run : NodeRun refusal node published node') :
    node.server.block ≤ node'.server.block ∧ ∀ d ∈ published, node.server.block < d.block := by
  induction run with
  | start => exact ⟨Nat.le_refl _, by simp⟩
  | applied run word step ih =>
      obtain ⟨le, above⟩ := ih
      obtain ⟨out, -⟩ := apply_published logLaws (apply_server step)
      have ascends := lt_of_le_of_lt le out.ascends
      refine ⟨out.head ▸ ascends.le, fun d hd => ?_⟩
      rcases List.mem_append.mp hd with hd | hd
      · exact above d hd
      · rw [List.mem_singleton.mp hd]
        exact ascends
  | failed run allowed step ih =>
      rw [(RisePirServer.apply_error_keeps (apply_server step)).2.1]
      exact ih
  | setup run ih =>
      rw [setupBytes_server]
      exact ih

/-- In every run whose failing blocks are refused unwritten, the node serves one database per
block at every moment, and a bundle it handed out earlier is of that database. -/
theorem node_serves_published (logLaws : C.LogLaws) (placementLaws : C.PlacementLaws)
    (laws : B.ServerLaws) {initial : List (BitVec 32)} {ds published published' : List BlockDelta}
    {node earlier node' : NodeState C B} (start : Consistent initial ds node)
    (run : NodeRun (RefusedUnwritten C) node published earlier)
    (later : NodeRun (RefusedUnwritten C) earlier published' node') :
    Serves initial (ds ++ published ++ published') node' ∧
      ∃ cells, BundleMatches p B cells earlier.setupBytes.2 ∧
        DatabaseAt p initial (ds ++ published ++ published') earlier.setupBytes.2.block cells := by
  have before := run.consistent logLaws placementLaws laws start
  refine ⟨(later.consistent logLaws placementLaws laws before).serves laws, ?_⟩
  obtain ⟨hle, store, hstore, hmatch⟩ := (before.serves laws).setup
  refine ⟨store, hmatch, ?_⟩
  rw [DatabaseAt, upTo_append_later fun d hd => lt_of_le_of_lt hle ((later.above logLaws).2 d hd)]
  exact hstore

abbrev SmallNode : Type := NodeState (Upstream.ReferenceTable.referenceTable smallParams)
  Upstream.ReferencePir.referencePir

/-- A complete node over the small server at genesis. -/
def smallNode : SmallNode := .new smallDigest (smallServer 0) (.new 4 pos_four) true

theorem smallNode_consistent : Consistent smallNode.server.store.cells [] smallNode := by
  obtain ⟨wellFormed, hints⟩ := smallServer_hintsMatch 0
  exact new_consistent smallDigest (by decide) wellFormed hints (by omega) true

/-- Its second balance does not fit eight bits. -/
private def overflowing : BlockUpdate := ⟨1, [(smallKey 3 1 0 0, 5), (smallKey 4 2 0 1, 256)], []⟩

private def tornNode : SmallNode := (smallNode.applyBlockReporting (draw 0) overflowing).1

private def onesQuery : List Query := [⟨[1, 1]⟩, ⟨[1, 1]⟩]

/-- A block that fails at its second change leaves the head where it was and the first
change in the cells: at block 0 the node then gives another answer than before. -/
theorem failed_block_changes_answers :
    Consistent smallNode.server.store.cells [] smallNode ∧
      (smallNode.applyBlockReporting (draw 0) overflowing).2.toOption = none ∧
      tornNode.server.block = smallNode.server.block ∧
      (∃ before after, smallNode.answer (some smallNode.epoch) onesQuery = .ok (before, 0) ∧
        tornNode.answer (some tornNode.epoch) onesQuery = .ok (after, 0) ∧ before ≠ after) ∧
      ¬ Serves smallNode.server.store.cells [] tornNode := by
  refine ⟨smallNode_consistent, by decide, by decide,
    ⟨[⟨[0, 0, 0, 0]⟩, ⟨[0, 0, 0, 0]⟩], [⟨[50, 80, 0, 6]⟩, ⟨[0, 0, 0, 0]⟩], by decide, by decide,
      by decide⟩, fun serves => ?_⟩
  have cell := serves.cells 0 0 0 (by decide) (by decide) (by decide)
  revert cell
  decide

/-- Refused at its first change. -/
private def refused : BlockUpdate := ⟨1, [(smallKey 4 2 0 1, 256), (smallKey 3 1 0 0, 5)], []⟩

private def oneEntry : BlockUpdate := ⟨1, [(smallKey 3 1 0 0, 5)], [(smallKey 3 1 0 0, 2)]⟩

private def refusedNode : SmallNode := (smallNode.applyBlockReporting (draw 0) refused).1

private theorem refused_unwritten :
    RefusedUnwritten (Upstream.ReferenceTable.referenceTable smallParams) (draw 0) smallNode.server
      refused := by
  have overflow : smallNode.server.valueCodec.encode (smallKey 4 2 0 1) 256 =
      .error .balanceOverflow := by decide
  exact .change [] (smallKey 4 2 0 1, 256) [(smallKey 3 1 0 0, 5)] rfl (by simp)
    (refused_of_encode (by decide) overflow)

private theorem applied_of_isSome {node : SmallNode} {update : BlockUpdate}
    (h : (node.applyBlockReporting (draw 0) update).2.toOption.isSome = true) :
    ∃ delta report node', node.applyBlockReporting (draw 0) update = (node', .ok (delta, report)) := by
  cases hr : node.applyBlockReporting (draw 0) update with
  | mk node' r =>
      rw [hr] at h
      cases r with
      | error e => cases h
      | ok out => exact ⟨out.1, out.2, node', rfl⟩

/-- A block refused at its first change, a bundle served, and a block that is applied. -/
theorem node_serves_published_afterRefused : ∃ delta report node',
    refusedNode.setupBytes.1.applyBlockReporting (draw 0) oneEntry = (node', .ok (delta, report)) ∧
      Serves smallNode.server.store.cells [delta] node' := by
  obtain ⟨delta, report, node', step⟩ := applied_of_isSome
    (show (refusedNode.setupBytes.1.applyBlockReporting (draw 0) oneEntry).2.toOption.isSome = true by
      decide)
  obtain ⟨server, e, fails, -⟩ := refused_unwritten.untouched
    (Upstream.ReferenceTable.placementLaws smallParams)
  have failed : smallNode.applyBlockReporting (draw 0) refused = (refusedNode, .error e) := by
    rw [refusedNode, NodeState.applyBlockReporting, fails]
  have run := NodeRun.failed (.start smallNode) refused_unwritten failed
  have later : NodeRun (RefusedUnwritten _) refusedNode [delta] node' :=
    .applied (.setup (.start refusedNode)) (by decide) step
  exact ⟨delta, report, node', step, (node_serves_published
    (Upstream.ReferenceTable.logLaws smallParams) (Upstream.ReferenceTable.placementLaws smallParams)
    Upstream.ReferencePir.serverLaws smallNode_consistent run later).1⟩

end RisePir.Http.Serving
