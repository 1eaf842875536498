import RisePir.Http.Serving

set_option autoImplicit false
set_option relaxedAutoImplicit false

/-! The cached setup bundle against the retained window: whatever bundle a node hands out,
a client that starts from it can still catch up. -/

namespace RisePir.Http.SetupWindow

open RisePir.Proto.Types
open RisePir.Upstream.Cuckoo
open RisePir.Upstream.Pir
open RisePir.Server.Core
open RisePir.Server.DeltaRing
open RisePir.Server.Run
open RisePir.Server.Small
open RisePir.Http.Node
open RisePir.Http.Serving

variable {p : CuckooParams} {C : SegmentedCuckoo p} {B : PirBackend}

/-- Contiguous deltas, the last of them of the block `head`. -/
def EndingAt (head : Nat) (seeds : List BlockDelta) : Prop :=
  ∀ i d, seeds[i]? = some d → d.block + seeds.length = head + 1 + i

/-- The follow loop's node: consecutive blocks and `/setup` requests. The loop stops at the
first block that fails, whatever that block wrote, and the node keeps serving. -/
inductive FollowRun : NodeState C B → List BlockDelta → (stopped : Bool) → NodeState C B → Prop
  | start (node : NodeState C B) : FollowRun node [] false node
  | applied {node mid node' : NodeState C B} {ds : List BlockDelta} {rng : C.Rng}
      {update : BlockUpdate} {delta : BlockDelta} {report : BlockApplyReport}
      (run : FollowRun node ds false mid) (next : update.block = mid.server.block + 1)
      (step : mid.applyBlockReporting rng update = (node', .ok (delta, report))) :
      FollowRun node (ds ++ [delta]) false node'
  | failed {node mid node' : NodeState C B} {ds : List BlockDelta} {stopped : Bool} {rng : C.Rng}
      {update : BlockUpdate} {e : ServerError} (run : FollowRun node ds stopped mid)
      (step : mid.applyBlockReporting rng update = (node', .error e)) :
      FollowRun node ds true node'
  | setup {node mid : NodeState C B} {ds : List BlockDelta} {stopped : Bool}
      (run : FollowRun node ds stopped mid) : FollowRun node ds stopped mid.setupBytes.1

/-- The bundle is the one of a server between the first and the last of a run. -/
def PassedThrough (first : RisePirServer C B) (ds : List BlockDelta) (last : RisePirServer C B)
    (bundle : SetupBundle) : Prop :=
  ∃ pre post atBlock, ds = pre ++ post ∧ BlockRun first pre atBlock ∧ BlockRun atBlock post last ∧
    bundle = atBlock.setup

/-- The node's head, ring and cached bundle in terms of the server the run began with: the
ring holds the latest of the seeded and published deltas, and the bundle is that of a server
the run passed through. -/
structure Windowed (first : RisePirServer C B) (seeds ds : List BlockDelta) (capacity : Nat)
    (stopped : Bool) (node : NodeState C B) : Prop where
  live : ∃ live, BlockRun first ds live ∧ live.setup = node.server.setup ∧
    (stopped = false → live = node.server) ∧
    ∀ bundle, node.setupCache = some bundle → PassedThrough first ds live bundle
  capacity_eq : node.ring.capacity = capacity
  ring : node.ring.buf = latest capacity (seeds ++ ds)

section Steps

variable {first : RisePirServer C B} {seeds ds : List BlockDelta} {capacity : Nat} {stopped : Bool}
  {node node' : NodeState C B}

theorem seed_ring (node : NodeState C B) (seeds : List BlockDelta) {ds : List BlockDelta}
    (h : node.ring.buf = latest node.ring.capacity ds) :
    (node.seed seeds).ring.capacity = node.ring.capacity ∧
      (node.seed seeds).ring.buf = latest node.ring.capacity (ds ++ seeds) ∧
      (node.seed seeds).server = node.server ∧ (node.seed seeds).setupCache = node.setupCache := by
  induction seeds generalizing node ds with
  | nil =>
      rw [List.append_nil]
      exact ⟨rfl, h, rfl, rfl⟩
  | cons d seeds ih =>
      have step := ih { node with ring := node.ring.push d, perBlock := node.perBlock.insert d.block d }
        (Ring.push_latest h d)
      rw [List.append_assoc] at step
      exact step

theorem windowed_start (keccak256 : List UInt8 → List UInt8) (first : RisePirServer C B)
    (capacity_pos : 0 < capacity) (complete : Bool) (seeds : List BlockDelta) :
    Windowed first seeds [] capacity false
      ((NodeState.new keccak256 first (.new capacity capacity_pos) complete).seedHistory seeds) := by
  obtain ⟨hcapacity, hring, hserver, hcache⟩ := seed_ring
    (NodeState.new keccak256 first (.new capacity capacity_pos) complete) seeds
    (show (Ring.new capacity capacity_pos).buf = latest capacity [] by simp [Ring.new, latest])
  refine ⟨⟨first, .nil first, ?_, fun _ => ?_, fun bundle hbundle => ?_⟩, hcapacity, ?_⟩
  · rw [NodeState.seedHistory, hserver]
    rfl
  · rw [NodeState.seedHistory, hserver]
    rfl
  · rw [NodeState.seedHistory, hcache] at hbundle
    cases hbundle
  · rw [List.append_nil]
    exact hring

theorem Windowed.applied (h : Windowed first seeds ds capacity false node) {rng : C.Rng}
    {update : BlockUpdate} {delta : BlockDelta} {report : BlockApplyReport}
    (next : update.block = node.server.block + 1)
    (step : node.applyBlockReporting rng update = (node', .ok (delta, report))) :
    Windowed first seeds (ds ++ [delta]) capacity false node' := by
  unfold NodeState.applyBlockReporting at step
  cases hs : node.server.applyBlockReporting rng update with
  | mk server r =>
      rw [hs] at step
      cases r with
      | error e => cases step
      | ok out =>
          obtain ⟨delta', report'⟩ := out
          dsimp only at step
          cases step
          obtain ⟨live, run, -, live_eq, cached⟩ := h.live
          cases live_eq rfl
          have last : BlockRun node.server [delta] server := .cons next hs (.nil _)
          refine ⟨⟨server, run.append last, rfl, fun _ => rfl, fun bundle hbundle => ?_⟩,
            h.capacity_eq, ?_⟩
          · obtain ⟨pre, post, atBlock, rfl, before, after, rfl⟩ := cached bundle hbundle
            exact ⟨pre, post ++ [delta], atBlock, List.append_assoc _ _ _, before,
              after.append last, rfl⟩
          · have held : node.ring.buf = latest node.ring.capacity (seeds ++ ds) := by
              rw [h.ring, h.capacity_eq]
            have pushed := Ring.push_latest held delta
            rw [h.capacity_eq, List.append_assoc] at pushed
            exact pushed

theorem Windowed.failed (h : Windowed first seeds ds capacity stopped node) {rng : C.Rng}
    {update : BlockUpdate} {e : ServerError}
    (step : node.applyBlockReporting rng update = (node', .error e)) :
    Windowed first seeds ds capacity true node' := by
  unfold NodeState.applyBlockReporting at step
  cases hs : node.server.applyBlockReporting rng update with
  | mk server r =>
      obtain ⟨live, run, setup_eq, -, cached⟩ := h.live
      rw [hs] at step
      cases r with
      | ok out => cases step
      | error e' =>
          obtain ⟨hsegments, hblock, -⟩ := RisePirServer.apply_error_keeps hs
          dsimp only at step
          cases step
          refine ⟨⟨live, run, ?_, by simp, cached⟩, h.capacity_eq, h.ring⟩
          rw [setup_eq, RisePirServer.setup, RisePirServer.setup, hsegments, hblock]

/-- A bundle that `/setup` hands out: of a server passed through, and no older than the
fresh window unless it is the head's. -/
theorem Windowed.setupBytes (h : Windowed first seeds ds capacity stopped node) :
    (node.setupBytes.2.block = node.server.block ∨
      node.server.block - node.setupBytes.2.block ≤ capacity / 8) ∧
      node.setupBytes.1.ring = node.ring ∧ node.setupBytes.1.setupCache = some node.setupBytes.2 ∧
      Windowed first seeds ds capacity stopped node.setupBytes.1 := by
  have fresh : Windowed first seeds ds capacity stopped node.regenerate.1 := by
    obtain ⟨live, run, setup_eq, live_eq, -⟩ := h.live
    refine ⟨⟨live, run, setup_eq, live_eq, fun bundle hbundle => ?_⟩, h.capacity_eq, h.ring⟩
    cases hbundle
    exact ⟨ds, [], live, (List.append_nil ds).symm, run, .nil live, setup_eq.symm⟩
  unfold NodeState.setupBytes
  cases hcache : node.setupCache with
  | none => exact ⟨.inl rfl, rfl, rfl, fresh⟩
  | some cached =>
      dsimp only
      split
      · rename_i window
        rw [NodeState.freshWindow, h.capacity_eq] at window
        exact ⟨.inr window, rfl, hcache, h⟩
      · exact ⟨.inl rfl, rfl, rfl, fresh⟩

theorem FollowRun.windowed (run : FollowRun node ds stopped node')
    (start : Windowed first seeds [] capacity false node) :
    Windowed first seeds ds capacity stopped node' := by
  induction run with
  | start => exact start
  | applied run next step ih => exact ih.applied next step
  | failed run step ih => exact ih.failed step
  | setup run ih => exact ih.setupBytes.2.2.2

/-- A ring that still holds the blocks from `atBlock` on serves the range up to the head. -/
theorem range_isSome (laws : C.LogLaws) {pre post : List BlockDelta}
    {atBlock live : RisePirServer C B} (ending : EndingAt first.block seeds)
    (before : BlockRun first pre atBlock) (after : BlockRun atBlock post live) (hne : post ≠ [])
    {r : Ring} (ring : r.buf = latest r.capacity (seeds ++ (pre ++ post)))
    (window : post.length ≤ r.capacity) : (r.range atBlock.block live.block).isSome = true := by
  have hpre := before.block laws
  have hpost := after.block laws
  have pos : 0 < post.length := List.length_pos_iff.mpr hne
  have old : ∀ d ∈ latest (r.capacity - post.length) (seeds ++ pre), d.block ≤ atBlock.block := by
    intro d hd
    rcases List.mem_append.mp (List.mem_of_mem_drop hd) with hd | hd
    · obtain ⟨i, hi⟩ := List.mem_iff_getElem?.mp hd
      have := ending i d hi
      have := (List.getElem?_eq_some_iff.mp hi).1
      omega
    · have run := before.consecutive laws
      rw [← List.append_nil pre] at run
      have := (consecutive_split run).1 d hd
      omega
  have new : ∀ d ∈ post, atBlock.block < d.block ∧ d.block ≤ live.block := by
    intro d hd
    have run := after.consecutive laws
    have above := (consecutive_split (List.nil_append post ▸ run)).2 d hd
    rw [← List.append_nil post] at run
    have below := (consecutive_split run).1 d hd
    rw [List.length_nil] at above
    omega
  have selected : r.selected atBlock.block live.block = post := by
    rw [Ring.selected, ring, ← List.append_assoc, latest_append window, List.filter_append,
      List.filter_eq_nil_iff.mpr fun d hd => ?_, List.filter_eq_self.mpr fun d hd => ?_,
      List.nil_append]
    · simpa using new d hd
    · have := old d hd
      simp
      omega
  obtain ⟨d, hd, -⟩ := after.coalesced laws hne
  rw [Ring.range, if_neg (by omega), selected, if_neg (by simp; omega), hd]
  rfl

end Steps

/-- Whatever the capacity, the seeded tail and the requests before: the bundle that `/setup`
returns is the one of a server the run passed through, at or below the head, and `/sync` leads
from its block to the head. -/
theorem setup_bundle_syncable (laws : C.LogLaws) (keccak256 : List UInt8 → List UInt8)
    (first : RisePirServer C B) {capacity : Nat} (capacity_pos : 0 < capacity) (complete : Bool)
    {seeds ds : List BlockDelta} (ending : EndingAt first.block seeds) {stopped : Bool}
    {node : NodeState C B}
    (run : FollowRun ((NodeState.new keccak256 first (.new capacity capacity_pos)
      complete).seedHistory seeds) ds stopped node) :
    node.setupBytes.2.block ≤ node.server.block ∧
      (node.setupBytes.2.block = node.server.block ∨
        (node.setupBytes.1.ring.range node.setupBytes.2.block node.server.block).isSome = true) ∧
      ∃ live, live.setup = node.server.setup ∧ (stopped = false → live = node.server) ∧
        PassedThrough first ds live node.setupBytes.2 := by
  have windowed := run.windowed (windowed_start keccak256 first capacity_pos complete seeds)
  obtain ⟨window, ring, cache, after⟩ := windowed.setupBytes
  obtain ⟨live, -, setup_eq, live_eq, cached⟩ := after.live
  rw [setupBytes_server] at setup_eq live_eq
  obtain ⟨pre, post, atBlock, rfl, before, later, bundle⟩ := cached _ cache
  have head : live.block = node.server.block := congrArg SetupBundle.block setup_eq
  have block : node.setupBytes.2.block = atBlock.block := by rw [bundle]; rfl
  have hpost := later.block laws
  refine ⟨by omega, ?_, live, setup_eq, live_eq, pre, post, atBlock, rfl, before, later, bundle⟩
  by_cases hne : post = []
  · left
    rw [hne, List.length_nil] at hpost
    omega
  · right
    have pos : 0 < post.length := List.length_pos_iff.mpr hne
    have near : post.length ≤ node.ring.capacity := by
      rw [windowed.capacity_eq]
      rcases window with window | window <;> omega
    rw [ring, block, ← head]
    exact range_isSome laws ending before later hne
      (by rw [windowed.capacity_eq]; exact windowed.ring) near

private def seeded : List BlockDelta := [⟨0, [[], []]⟩]

private def wideNode : SmallNode :=
  (NodeState.new smallDigest (smallServer 0) (.new 8 pos_eight) true).seedHistory seeded

private def oneChange : BlockUpdate := ⟨1, [(smallKey 3 1 0 0, 5)], []⟩

/-- A bundle taken before block 1 and handed out again after it. -/
theorem setup_bundle_syncable_oneChange : ∃ delta report node,
    wideNode.setupBytes.1.applyBlockReporting (draw 0) oneChange = (node, .ok (delta, report)) ∧
      node.setupBytes.2.block = 0 ∧ node.server.block = 1 ∧
      (node.setupBytes.1.ring.range 0 1).isSome = true := by
  have ok : (wideNode.setupBytes.1.applyBlockReporting (draw 0) oneChange).2.toOption.isSome = true := by
    decide
  cases step : wideNode.setupBytes.1.applyBlockReporting (draw 0) oneChange with
  | mk node r =>
      rw [step] at ok
      cases r with
      | error e => cases ok
      | ok out =>
          have after : node = (wideNode.setupBytes.1.applyBlockReporting (draw 0) oneChange).1 := by
            rw [step]
          have bundle : node.setupBytes.2.block = 0 := by
            rw [after]
            decide
          have head : node.server.block = 1 := by
            rw [after]
            decide
          have ending : EndingAt (smallServer 0).block seeded := by
            intro i d hd
            obtain ⟨hi, rfl⟩ := List.getElem?_eq_some_iff.mp hd
            have : i = 0 := by simpa [seeded] using hi
            subst this
            rfl
          obtain ⟨-, synced, -⟩ := setup_bundle_syncable
            (Upstream.ReferenceTable.logLaws smallParams) smallDigest (smallServer 0) (by omega) true
            ending (.applied (.setup (.start wideNode)) (by decide) step)
          rw [bundle, head] at synced
          exact ⟨out.1, out.2, node, rfl, bundle, head, synced.resolve_left (by omega)⟩

end RisePir.Http.SetupWindow
