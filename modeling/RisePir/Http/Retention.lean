import RisePir.Http.SetupWindow

set_option autoImplicit false
set_option relaxedAutoImplicit false

/-! What is retained: the ranges a ring can serve, and the index beside the ring of a node. -/

namespace RisePir.Http.Retention

open RisePir.Lib.Sparse
open RisePir.Proto.Types
open RisePir.Upstream.Cuckoo
open RisePir.Upstream.Pir
open RisePir.Server.Core
open RisePir.Server.CellDelta
open RisePir.Server.DeltaRing
open RisePir.Server.Fold
open RisePir.Server.Small
open RisePir.Http.Node
open RisePir.Http.Serving
open RisePir.Http.SetupWindow
open Std (ExtTreeMap)

/-- Deltas as a ring is meant to be given them. -/
structure Pushable (segments : Nat) (ds : List BlockDelta) : Prop where
  count : ∀ d ∈ ds, d.perSegment.length = segments
  ascending : Ascending ds
  word : ∀ d ∈ ds, d.block < 2 ^ 64 - 1
  fits : ∀ fromBlock toBlock, SumsFit (between ds fromBlock toBlock)

/-- A ring after a sequence of pushes. -/
def pushes (r : Ring) (ds : List BlockDelta) : Ring := ds.foldl Ring.push r

/-- Every block of the range is retained. -/
def Retained (r : Ring) (fromBlock toBlock : Nat) : Prop :=
  ∀ block, fromBlock < block → block ≤ toBlock → ∃ d ∈ r.buf, d.block = block

theorem pushes_latest (r : Ring) (ds : List BlockDelta) {held : List BlockDelta}
    (h : r.buf = latest r.capacity held) :
    (pushes r ds).capacity = r.capacity ∧ (pushes r ds).buf = latest r.capacity (held ++ ds) := by
  induction ds generalizing r held with
  | nil =>
      rw [List.append_nil]
      exact ⟨rfl, h⟩
  | cons d ds ih =>
      have step := ih (r.push d) (Ring.push_latest h d)
      rw [List.append_assoc] at step
      exact step

theorem latest_length (n : Nat) (ds : List BlockDelta) :
    (latest n ds).length = min ds.length n := by
  rw [latest, List.length_drop]
  omega

theorem latest_suffix (n : Nat) (ds : List BlockDelta) : latest n ds <:+ ds := List.drop_suffix _ _

section Ranges

variable {r : Ring} {ds : List BlockDelta} {segments fromBlock toBlock : Nat}

private theorem mem_between {d : BlockDelta} (h : d ∈ between ds fromBlock toBlock) :
    fromBlock + 1 ≤ d.block ∧ d.block < toBlock + 1 := by
  have inside := (List.mem_filter.mp h).2
  simp only [decide_eq_true_eq] at inside
  omega

/-- As many retained blocks as the range has numbers are the blocks of the range, in order. -/
theorem between_consecutive (ascending : Ascending ds)
    (count : ∀ d ∈ ds, d.perSegment.length = segments)
    (full : (between ds fromBlock toBlock).length = toBlock - fromBlock) :
    Consecutive segments (fromBlock + 1) (between ds fromBlock toBlock) := by
  apply Ascending.consecutive (ascending.filter _)
  · intro d hd
    exact (mem_between hd).1
  · intro d hd
    exact (mem_between hd).2
  · rw [← between, full]
    omega
  · intro d hd
    exact count d (List.mem_of_mem_filter hd)

/-- The length test is the membership test. -/
theorem full_iff (ascending : Ascending r.buf) (count : ∀ d ∈ r.buf, d.perSegment.length = segments) :
    (between r.buf fromBlock toBlock).length = toBlock - fromBlock ↔
      Retained r fromBlock toBlock := by
  constructor
  · intro full block above below
    have blocks := Consecutive.blocks (between_consecutive ascending count full)
    have mem : block ∈ (between r.buf fromBlock toBlock).map BlockDelta.block := by
      rw [blocks, full, List.mem_range'_1]
      omega
    obtain ⟨d, hd, rfl⟩ := List.mem_map.mp mem
    exact ⟨d, List.mem_of_mem_filter hd, rfl⟩
  · intro retained
    have most : (between r.buf fromBlock toBlock).length ≤ toBlock + 1 - (fromBlock + 1) := by
      apply Ascending.length_le (ascending.filter _)
      · intro d hd
        exact (mem_between hd).1
      · intro d hd
        exact (mem_between hd).2
    have covered : List.range' (fromBlock + 1) (toBlock - fromBlock) ⊆
        (between r.buf fromBlock toBlock).map BlockDelta.block := by
      intro block hblock
      rw [List.mem_range'_1] at hblock
      obtain ⟨d, hd, rfl⟩ := retained block (by omega) (by omega)
      refine List.mem_map_of_mem (List.mem_filter.mpr ⟨hd, ?_⟩)
      simp only [decide_eq_true_eq]
      omega
    have nodup : (List.range' (fromBlock + 1) (toBlock - fromBlock)).Nodup := List.nodup_range'
    have least := (nodup.subperm covered).length_le
    rw [List.length_range', List.length_map] at least
    omega

/-- A ring serves exactly the ranges it retains whole. -/
theorem range_eq_some_iff (pushed : Pushable segments ds) (suffix : r.buf <:+ ds) (d : BlockDelta) :
    r.range fromBlock toBlock = some d ↔
      fromBlock < toBlock ∧ Retained r fromBlock toBlock ∧
        coalesce (between r.buf fromBlock toBlock) = .ok d := by
  have ascending : Ascending r.buf := pushed.ascending.sublist suffix.sublist
  have count : ∀ d ∈ r.buf, d.perSegment.length = segments :=
    fun d hd => pushed.count d (suffix.subset hd)
  rw [← full_iff ascending count, Ring.range, Ring.selected, ← between]
  by_cases forward : toBlock ≤ fromBlock
  · rw [if_pos forward]
    refine iff_of_false (by simp) ?_
    rintro ⟨hlt, -⟩
    omega
  · rw [if_neg forward]
    by_cases full : (between r.buf fromBlock toBlock).length = toBlock - fromBlock
    · rw [if_neg (not_not.mpr full)]
      cases coalesce (between r.buf fromBlock toBlock) with
      | error e => simp [Except.toOption]
      | ok out =>
          simp only [Except.toOption, Option.some.injEq, Except.ok.injEq, full, true_and,
            iff_and_self]
          omega
    · rw [if_pos full]
      exact iff_of_false (by simp) fun h => full h.2.1

/-- What is retained whole is served. -/
theorem range_isSome_of_retained (pushed : Pushable segments ds) (suffix : r.buf <:+ ds)
    (forward : fromBlock < toBlock) (retained : Retained r fromBlock toBlock) :
    ∃ d, r.range fromBlock toBlock = some d := by
  have ascending : Ascending r.buf := pushed.ascending.sublist suffix.sublist
  have count : ∀ d ∈ r.buf, d.perSegment.length = segments :=
    fun d hd => pushed.count d (suffix.subset hd)
  have full := (full_iff ascending count).mpr retained
  have run := between_consecutive ascending count full
  have published := Ring.selected_eq suffix pushed.ascending full
  rw [Ring.selected, ← between] at published
  have nonempty : between r.buf fromBlock toBlock ≠ [] := by
    intro none
    rw [none, List.length_nil] at full
    omega
  obtain ⟨d, coalesced, -⟩ := coalesce_sums nonempty run (published ▸ pushed.fits fromBlock toBlock)
  exact ⟨d, (range_eq_some_iff pushed suffix d).mpr ⟨forward, retained, coalesced⟩⟩

end Ranges

section Index

/-- The index has the deltas of the list under their blocks. -/
def Indexes (perBlock : ExtTreeMap Nat BlockDelta) (ds : List BlockDelta) : Prop :=
  ∀ block d, perBlock[block]? = some d ↔ d ∈ ds ∧ d.block = block

variable {perBlock : ExtTreeMap Nat BlockDelta} {ds : List BlockDelta}

theorem Indexes.insert (h : Indexes perBlock ds) {delta : BlockDelta}
    (later : ∀ d ∈ ds, d.block < delta.block) :
    Indexes (perBlock.insert delta.block delta) (ds ++ [delta]) := by
  intro block d
  rw [ExtTreeMap.getElem?_insert]
  by_cases here : delta.block = block
  · rw [if_pos (by simpa using here), Option.some.injEq]
    constructor
    · rintro rfl
      exact ⟨List.mem_append_right _ (List.mem_singleton_self _), here⟩
    · rintro ⟨hmem, hblock⟩
      rcases List.mem_append.mp hmem with old | new
      · have := later d old
        omega
      · exact (List.mem_singleton.mp new).symm
  · rw [if_neg (by simpa using here), h block d]
    constructor
    · rintro ⟨hmem, hblock⟩
      exact ⟨List.mem_append_left _ hmem, hblock⟩
    · rintro ⟨hmem, hblock⟩
      rcases List.mem_append.mp hmem with old | new
      · exact ⟨old, hblock⟩
      · rw [List.mem_singleton.mp new] at hblock
        exact absurd hblock here

/-- Dropping what is older than the ring leaves the ring's deltas. -/
theorem Indexes.evict {ring : Ring} (h : Indexes perBlock ds) (ascending : Ascending ds)
    (suffix : ring.buf <:+ ds) (empty : ring.buf = [] → ds = []) :
    Indexes (Node.evict ring perBlock) ring.buf := by
  obtain ⟨older, rfl⟩ := suffix
  unfold Node.evict Ring.oldest
  cases buf : ring.buf with
  | nil =>
      rw [buf, List.append_nil] at h empty
      rw [empty rfl] at h
      exact h
  | cons oldest rest =>
      rw [buf] at h ascending
      obtain ⟨-, young, before⟩ := List.pairwise_append.mp ascending
      intro block d
      simp only [List.head?_cons, Option.map_some, ExtTreeMap.getElem?_filter',
        Option.filter_eq_some_iff, decide_eq_true_eq]
      rw [h block d, List.mem_append]
      constructor
      · rintro ⟨⟨hmem, rfl⟩, kept⟩
        rcases hmem with old | new
        · have := before d old oldest List.mem_cons_self
          omega
        · exact ⟨new, rfl⟩
      · rintro ⟨hmem, rfl⟩
        refine ⟨⟨.inr hmem, rfl⟩, ?_⟩
        rcases List.mem_cons.mp hmem with rfl | later
        · exact Nat.le_refl _
        · exact (List.rel_of_pairwise_cons young later).le

end Index

section Nodes

variable {p : CuckooParams} {C : SegmentedCuckoo p} {B : PirBackend}

theorem seed_indexes (node : NodeState C B) (seeds : List BlockDelta) {ds : List BlockDelta}
    (h : Indexes node.perBlock ds) (ascending : Ascending (ds ++ seeds)) :
    Indexes (node.seed seeds).perBlock (ds ++ seeds) := by
  induction seeds generalizing node ds with
  | nil =>
      rw [List.append_nil]
      exact h
  | cons d seeds ih =>
      obtain ⟨-, -, before⟩ := List.pairwise_append.mp ascending
      have inserted := h.insert fun e he => before e he d List.mem_cons_self
      have step := ih { node with ring := node.ring.push d, perBlock := node.perBlock.insert d.block d }
        inserted (by rwa [List.append_assoc])
      rw [List.append_assoc] at step
      exact step

/-- A node that has been given the deltas in `ds`: its ring holds the latest of them, and its
index exactly the ring's. -/
structure Window (ds : List BlockDelta) (capacity : Nat) (node : NodeState C B) : Prop where
  capacity_eq : node.ring.capacity = capacity
  ring : node.ring.buf = latest capacity ds
  index : Indexes node.perBlock node.ring.buf
  ascending : Ascending ds
  head : ∀ d ∈ ds, d.block ≤ node.server.block

theorem window_seeded (keccak256 : List UInt8 → List UInt8) (server : RisePirServer C B)
    {capacity : Nat} (capacity_pos : 0 < capacity) (complete : Bool) {seeds : List BlockDelta}
    (ascending : Ascending seeds) (head : ∀ d ∈ seeds, d.block ≤ server.block) :
    Window seeds capacity ((NodeState.new keccak256 server (.new capacity capacity_pos)
      complete).seedHistory seeds) := by
  obtain ⟨hcapacity, hring, hserver, -⟩ := seed_ring
    (NodeState.new keccak256 server (.new capacity capacity_pos) complete) seeds
    (show (Ring.new capacity capacity_pos).buf = latest capacity [] by simp [Ring.new, latest])
  rw [List.nil_append] at hring
  have empty : Indexes (NodeState.new keccak256 server (.new capacity capacity_pos)
      complete).perBlock [] := fun block d => by simp [NodeState.new]
  have indexed := seed_indexes _ seeds empty ascending
  rw [List.nil_append] at indexed
  refine ⟨hcapacity, hring, ?_, ascending, ?_⟩
  · apply indexed.evict ascending
    · rw [hring]
      exact latest_suffix _ _
    · intro none
      have length := latest_length capacity seeds
      rw [show (NodeState.new keccak256 server (.new capacity capacity_pos) complete).ring.capacity =
        capacity from rfl] at hring
      rw [← hring, none, List.length_nil] at length
      exact List.length_eq_zero_iff.mp (by omega)
  · intro d hd
    rw [NodeState.seedHistory, hserver]
    exact head d hd

variable {ds : List BlockDelta} {capacity : Nat} {node node' : NodeState C B}

/-- A published delta is of the new head, above the old one, and has a list for every segment. -/
theorem apply_head {rng : C.Rng} {s s' : RisePirServer C B} {update : BlockUpdate}
    {delta : BlockDelta} {report : BlockApplyReport}
    (h : s.applyBlockReporting rng update = (s', .ok (delta, report))) :
    s.block < delta.block ∧ s'.block = delta.block ∧ delta.perSegment.length = p.arity := by
  unfold RisePirServer.applyBlockReporting at h
  split at h
  · cases h
  · rename_i above
    cases he : applyEntries s.valueCodec ⟨rng, s.store⟩ update with
    | mk t r =>
        rw [he] at h
        cases r with
        | error e => cases h
        | ok kinds =>
            cases h
            exact ⟨by simpa [RisePirServer.commitBlock] using above, rfl, fold_length _⟩

theorem Window.applied (h : Window ds capacity node) {rng : C.Rng} {update : BlockUpdate}
    {delta : BlockDelta} {report : BlockApplyReport}
    (step : node.applyBlockReporting rng update = (node', .ok (delta, report))) :
    Window (ds ++ [delta]) capacity node' := by
  unfold NodeState.applyBlockReporting at step
  cases hs : node.server.applyBlockReporting rng update with
  | mk server r =>
      rw [hs] at step
      cases r with
      | error e => cases step
      | ok out =>
          obtain ⟨delta', report'⟩ := out
          dsimp only at step
          cases step
          obtain ⟨above, head, -⟩ := apply_head hs
          have before : ∀ d ∈ ds, d.block < delta.block :=
            fun d hd => lt_of_le_of_lt (h.head d hd) above
          have held : node.ring.buf <:+ ds := by
            rw [h.ring]
            exact latest_suffix _ _
          have ascending : Ascending (ds ++ [delta]) := by
            refine List.pairwise_append.mpr ⟨h.ascending, List.pairwise_singleton _ _, ?_⟩
            intro d hd e he
            rw [List.mem_singleton.mp he]
            exact before d hd
          have within : Ascending (node.ring.buf ++ [delta]) := by
            refine ascending.sublist (held.sublist.append_right _)
          have pushed : (node.ring.push delta).buf = latest capacity (ds ++ [delta]) := by
            rw [Ring.push_latest (by rw [h.ring, h.capacity_eq]), h.capacity_eq]
          refine ⟨h.capacity_eq, pushed, ?_, ascending, ?_⟩
          · refine (h.index.insert fun d hd => before d (held.subset hd)).evict within
              (Ring.push_suffix (List.suffix_refl _) delta) fun none => ?_
            exact absurd none (List.append_ne_nil_of_right_ne_nil _ (List.cons_ne_nil _ _))
          · intro d hd
            rw [head]
            rcases List.mem_append.mp hd with old | new
            · exact (before d old).le
            · rw [List.mem_singleton.mp new]

theorem Window.failed (h : Window ds capacity node) {rng : C.Rng} {update : BlockUpdate}
    {e : ServerError} (step : node.applyBlockReporting rng update = (node', .error e)) :
    Window ds capacity node' := by
  have kept := (RisePirServer.apply_error_keeps (apply_server step)).2.1
  unfold NodeState.applyBlockReporting at step
  cases hs : node.server.applyBlockReporting rng update with
  | mk server r =>
      rw [hs] at step
      cases r with
      | ok out => cases step
      | error e' =>
          dsimp only at step
          cases step
          exact ⟨h.capacity_eq, h.ring, h.index, h.ascending, fun d hd => kept ▸ h.head d hd⟩

theorem Window.setupBytes (h : Window ds capacity node) : Window ds capacity node.setupBytes.1 := by
  have regenerated : Window ds capacity node.regenerate.1 :=
    ⟨h.capacity_eq, h.ring, h.index, h.ascending, h.head⟩
  unfold NodeState.setupBytes
  cases node.setupCache with
  | none => exact regenerated
  | some cached =>
      dsimp only
      split
      · exact h
      · exact regenerated

/-- Over a run the window takes in what is published, with a list for every segment. -/
theorem Window.run {refusal : C.Rng → RisePirServer C B → BlockUpdate → Prop}
    {published : List BlockDelta} (h : Window ds capacity node)
    (run : NodeRun refusal node published node') :
    Window (ds ++ published) capacity node' ∧ ∀ d ∈ published, d.perSegment.length = p.arity := by
  induction run with
  | start =>
      rw [List.append_nil]
      exact ⟨h, by simp⟩
  | applied run word step ih =>
      obtain ⟨window, count⟩ := ih
      have applied := window.applied step
      rw [List.append_assoc] at applied
      refine ⟨applied, fun d hd => ?_⟩
      rcases List.mem_append.mp hd with old | new
      · exact count d old
      · rw [List.mem_singleton.mp new]
        exact (apply_head (apply_server step)).2.2
  | failed run allowed step ih => exact ⟨ih.1.failed step, ih.2⟩
  | setup run ih => exact ⟨ih.1.setupBytes, ih.2⟩

/-- What `/delta` serves under the node's epoch. -/
theorem deltaByBlock_served (h : Window ds capacity node) (block : Nat) :
    (∃ body, node.deltaByBlock block (some node.epoch) = .ok body) ↔
      ∃ d ∈ node.ring.buf, d.block = block := by
  unfold NodeState.deltaByBlock
  rw [if_neg (by simp)]
  cases held : node.perBlock[block]? with
  | none =>
      refine iff_of_false (by simp) ?_
      rintro ⟨d, hd, rfl⟩
      rw [(h.index d.block d).mpr ⟨hd, rfl⟩] at held
      cases held
  | some d => exact iff_of_true ⟨_, rfl⟩ ⟨d, ((h.index block d).mp held)⟩

/-- What `/sync` serves under the node's epoch. -/
theorem sync_served (node : NodeState C B) (fromBlock toBlock : Nat) :
    (∃ body, node.sync (some node.epoch) (some (fromBlock, toBlock)) = .ok body) ↔
      ∃ d, node.ring.range fromBlock toBlock = some d := by
  unfold NodeState.sync
  rw [NodeState.epochGate, if_pos rfl]
  dsimp only
  cases node.ring.range fromBlock toBlock with
  | none => simp
  | some d => simp

end Nodes

section Claim

variable {p : CuckooParams} {C : SegmentedCuckoo p} {B : PirBackend}

/-- The ring holds the latest deltas, and serves exactly the ranges it retains whole, each as the
coalesced delta of its blocks. -/
structure ServesLatest (capacity : Nat) (ds : List BlockDelta) (r : Ring) : Prop where
  held : r.buf = latest capacity ds
  length : r.buf.length = min ds.length capacity
  served : ∀ fromBlock toBlock, (∃ d, r.range fromBlock toBlock = some d) ↔
    fromBlock < toBlock ∧ Retained r fromBlock toBlock
  coalesced : ∀ fromBlock toBlock d, r.range fromBlock toBlock = some d →
    ∃ blocks, blocks.Sublist r.buf ∧
      blocks.map BlockDelta.block = List.range' (fromBlock + 1) (toBlock - fromBlock) ∧
      coalesce blocks = .ok d

theorem pushes_servesLatest {capacity : Nat} (capacity_pos : 0 < capacity) {segments : Nat}
    {ds : List BlockDelta} (pushed : Pushable segments ds) :
    ServesLatest capacity ds (pushes (.new capacity capacity_pos) ds) := by
  obtain ⟨-, held⟩ := pushes_latest (.new capacity capacity_pos) ds
    (show (Ring.new capacity capacity_pos).buf = latest capacity [] by simp [Ring.new, latest])
  rw [List.nil_append] at held
  change _ = latest capacity ds at held
  have suffix : (pushes (.new capacity capacity_pos) ds).buf <:+ ds := by
    rw [held]
    exact latest_suffix _ _
  refine ⟨held, by rw [held, latest_length], fun fromBlock toBlock => ⟨?_, ?_⟩, ?_⟩
  · rintro ⟨d, hd⟩
    obtain ⟨forward, retained, -⟩ := (range_eq_some_iff pushed suffix d).mp hd
    exact ⟨forward, retained⟩
  · rintro ⟨forward, retained⟩
    exact range_isSome_of_retained pushed suffix forward retained
  · intro fromBlock toBlock d hd
    obtain ⟨-, retained, coalesced⟩ := (range_eq_some_iff pushed suffix d).mp hd
    have ascending := pushed.ascending.sublist suffix.sublist
    have count : ∀ d ∈ (pushes (.new capacity capacity_pos) ds).buf,
        d.perSegment.length = segments := fun d hd => pushed.count d (suffix.subset hd)
    have full := (full_iff ascending count).mpr retained
    have blocks := Consecutive.blocks (between_consecutive ascending count full)
    rw [full] at blocks
    exact ⟨_, List.filter_sublist, blocks, coalesced⟩

/-- A ring serves exactly what it retains of its latest deltas, and the index of a node has
exactly the deltas of its ring, so `/sync` and `/delta` retain the same blocks. -/
theorem retained_ranges {capacity : Nat} (capacity_pos : 0 < capacity) :
    (∀ segments ds, Pushable segments ds →
      ServesLatest capacity ds (pushes (.new capacity capacity_pos) ds)) ∧
    ∀ (keccak256 : List UInt8 → List UInt8) (server : RisePirServer C B) (complete : Bool)
      (seeds published : List BlockDelta) (node : NodeState C B)
      (refusal : C.Rng → RisePirServer C B → BlockUpdate → Prop),
      Ascending seeds → (∀ d ∈ seeds, d.block ≤ server.block) →
      NodeRun refusal ((NodeState.new keccak256 server (.new capacity capacity_pos)
        complete).seedHistory seeds) published node →
      node.ring.buf = latest capacity (seeds ++ published) ∧
        Indexes node.perBlock node.ring.buf ∧
        ((∀ d ∈ seeds, d.perSegment.length = p.arity) →
          (∀ d ∈ seeds ++ published, d.block < 2 ^ 64 - 1) →
          (∀ fromBlock toBlock, SumsFit (between (seeds ++ published) fromBlock toBlock)) →
          ∀ fromBlock toBlock,
            (∃ body, node.sync (some node.epoch) (some (fromBlock, toBlock)) = .ok body) ↔
              fromBlock < toBlock ∧ ∀ block, fromBlock < block → block ≤ toBlock →
                ∃ body, node.deltaByBlock block (some node.epoch) = .ok body) := by
  constructor
  · intro segments ds pushed
    exact pushes_servesLatest capacity_pos pushed
  · intro keccak256 server complete seeds published node refusal ascending head run
    obtain ⟨window, count⟩ :=
      (window_seeded keccak256 server capacity_pos complete ascending head).run run
    refine ⟨window.ring, window.index, fun seeded word fits fromBlock toBlock => ?_⟩
    have pushed : Pushable p.arity (seeds ++ published) := by
      refine ⟨fun d hd => ?_, window.ascending, word, fits⟩
      rcases List.mem_append.mp hd with old | new
      · exact seeded d old
      · exact count d new
    have suffix : node.ring.buf <:+ seeds ++ published := by
      rw [window.ring]
      exact latest_suffix _ _
    simp only [deltaByBlock_served window]
    rw [sync_served]
    constructor
    · rintro ⟨d, hd⟩
      obtain ⟨forward, retained, -⟩ := (range_eq_some_iff pushed suffix d).mp hd
      exact ⟨forward, retained⟩
    · rintro ⟨forward, retained⟩
      exact range_isSome_of_retained pushed suffix forward retained

/-- One entry at a block. -/
private def single (block : Nat) : BlockDelta := ⟨block, [[(0, [(0, 1)])], []]⟩

private theorem single_sums (ds : List BlockDelta) (few : ds.length < 2 ^ 63)
    (all : ∀ d ∈ ds, ∃ block, d = single block) : SumsFit ds := by
  refine sumsFit_of_small fun j => lt_of_le_of_lt ?_ few
  clear few
  induction ds with
  | nil => simp [termsOf]
  | cons d ds ih =>
      have rest := ih fun e he => all e (List.mem_cons_of_mem _ he)
      obtain ⟨block, rfl⟩ := all d List.mem_cons_self
      have first : ((entries ((single block).perSegment.getD j [])).map fun e =>
          e.2.natAbs).sum ≤ 1 := by
        rcases j with _ | _ | j <;> simp [single, entries]
      rw [termsOf_cons, List.map_append, List.sum_append, List.length_cons]
      omega

private theorem single_between {ds : List BlockDelta} (few : ds.length < 2 ^ 63)
    (all : ∀ d ∈ ds, ∃ block, d = single block) (fromBlock toBlock : Nat) :
    SumsFit (between ds fromBlock toBlock) := by
  apply single_sums
  · exact lt_of_le_of_lt List.filter_sublist.length_le few
  · intro d hd
    exact all d (List.mem_of_mem_filter hd)

private def seededPair : SmallNode :=
  (NodeState.new smallDigest (smallServer 3) (.new 2 (by omega)) true).seedHistory
    [single 2, single 3]

/-- Blocks 1, 2 and 4 in a ring of two, and a node seeded with blocks 2 and 3. -/
theorem retained_ranges_gap :
    (∃ d, (pushes (.new 2 (by omega)) [single 1, single 2, single 4]).range 3 4 = some d) ∧
      (¬ ∃ d, (pushes (.new 2 (by omega)) [single 1, single 2, single 4]).range 1 4 = some d) ∧
      ∃ body, seededPair.sync (some seededPair.epoch) (some (1, 3)) = .ok body := by
  obtain ⟨rings, nodes⟩ := retained_ranges (C := Upstream.ReferenceTable.referenceTable smallParams)
    (B := Upstream.ReferencePir.referencePir) (show 0 < 2 by omega)
  have pushed : Pushable 2 [single 1, single 2, single 4] :=
    ⟨by decide, by decide, by decide, single_between (by decide) (by simp)⟩
  have ring := rings 2 _ pushed
  have window : Window [single 2, single 3] 2 seededPair :=
    window_seeded smallDigest (smallServer 3) (by omega) true (by decide) (by decide)
  have node := (nodes smallDigest (smallServer 3) true [single 2, single 3] [] seededPair
    (fun _ _ _ => False) (by decide) (by decide) (.start _)).2.2 (by decide) (by decide)
    (single_between (by decide) (by simp)) 1 3
  refine ⟨(ring.served 3 4).mpr ⟨by decide, ?_⟩, fun served => ?_, node.mpr ⟨by decide, ?_⟩⟩
  · intro block above below
    obtain rfl : block = 4 := by omega
    exact ⟨single 4, by decide, rfl⟩
  · obtain ⟨d, hd, hblock⟩ := ((ring.served 1 4).mp served).2 3 (by omega) (by omega)
    revert hblock
    revert d
    decide
  · intro block above below
    obtain rfl | rfl : block = 2 ∨ block = 3 := by omega
    · exact (deltaByBlock_served window 2).mpr ⟨single 2, by decide, rfl⟩
    · exact (deltaByBlock_served window 3).mpr ⟨single 3, by decide, rfl⟩

end Claim

end RisePir.Http.Retention
