import RisePir.Http.SetupWindow

set_option autoImplicit false
set_option relaxedAutoImplicit false

/-! Every node that a client can meet: processes that begin with the state an earlier process
left, follow the chain, and may have stopped at a block. -/

namespace RisePir.Http.Lifetime

open RisePir.Proto.Types
open RisePir.Proto.Codec
open RisePir.Upstream.Cuckoo
open RisePir.Upstream.Pir
open RisePir.Server.Core
open RisePir.Server.CellDelta
open RisePir.Server.DeltaRing
open RisePir.Server.Run
open RisePir.Server.Telescope
open RisePir.Http.Node
open RisePir.Http.Serving
open RisePir.Http.SetupWindow
open RisePir.Http.Wire

variable {p : CuckooParams} {C : SegmentedCuckoo p} {B : PirBackend}

section Runs

variable {s s' : RisePirServer C B} {ds : List BlockDelta}

/-- The blocks a run publishes, by number. -/
theorem run_blocks (laws : C.LogLaws) (run : BlockRun s ds s') :
    ds.map BlockDelta.block = List.range' (s.block + 1) ds.length :=
  Consecutive.blocks (run.consecutive laws)

theorem run_inside (laws : C.LogLaws) (run : BlockRun s ds s') {d : BlockDelta} (hd : d ∈ ds) :
    s.block < d.block ∧ d.block ≤ s'.block := by
  have hmem := List.mem_map_of_mem (f := BlockDelta.block) hd
  rw [run_blocks laws run, List.mem_range'_1] at hmem
  have length := run.block laws
  omega

/-- A run's deltas are a history over its first cells. -/
theorem run_history (laws : C.LogLaws) (run : BlockRun s ds s') (word : s'.block < 2 ^ 64) :
    History C s.store.cells ds := by
  induction ds using List.reverseRecOn generalizing s' with
  | nil =>
      exact ⟨List.Pairwise.nil, by simp, by simp, fun block => ⟨s.store, Moved.refl _⟩⟩
  | append_singleton ds d ih =>
      obtain ⟨mid, before, last⟩ := run.split
      have inside := run_inside laws last (List.mem_singleton_self d)
      exact (ih before (by omega)).append (fun e he => (run_inside laws before he).2) inside.1
        (last.fits laws d (List.mem_singleton_self d)) (by omega) (run.moved laws)

end Runs

/-- A node of a deployment: a process begins with the server that an earlier run reached,
seeds its ring with the latest of that run's deltas, and follows the chain from there. -/
inductive Deployed (keccak256 : List UInt8 → List UInt8) : NodeState C B → Prop
  | mk {genesis first : RisePirServer C B} {replayed seeds ds : List BlockDelta} {capacity : Nat}
      {complete stopped : Bool} {node : NodeState C B} (wellFormed : WellFormed genesis)
      (before : BlockRun genesis replayed first) (tail : seeds <:+ replayed)
      (capacity_pos : 0 < capacity)
      (run : FollowRun ((NodeState.new keccak256 first (.new capacity capacity_pos)
        complete).seedHistory seeds) ds stopped node)
      (word : node.server.block < 2 ^ 64) : Deployed keccak256 node

/-- What every deployed node retains of its history. -/
structure Retains (keccak256 : List UInt8 → List UInt8) (genesis live : RisePirServer C B)
    (ds : List BlockDelta) (node : NodeState C B) : Prop where
  run : BlockRun genesis ds live
  setup : live.setup = node.server.setup
  word : live.block < 2 ^ 64
  ring : node.ring.buf <:+ ds
  epoch : node.epoch = lineageEpoch keccak256 live.setup.backendParams
  bundle : PassedThrough genesis ds live node.setupBytes.2

theorem FollowRun.epoch {node node' : NodeState C B} {ds : List BlockDelta} {stopped : Bool}
    (run : FollowRun node ds stopped node') : node'.epoch = node.epoch := by
  induction run with
  | start => rfl
  | @applied mid node' ds rng update delta report run next step ih =>
      rw [← ih]
      unfold NodeState.applyBlockReporting at step
      cases hs : mid.server.applyBlockReporting rng update with
      | mk server r =>
          rw [hs] at step
          cases r with
          | error e => cases step
          | ok out =>
              obtain ⟨delta', report'⟩ := out
              dsimp only at step
              cases step
              rfl
  | @failed mid node' ds stopped rng update e run step ih =>
      rw [← ih]
      unfold NodeState.applyBlockReporting at step
      cases hs : mid.server.applyBlockReporting rng update with
      | mk server r =>
          rw [hs] at step
          cases r with
          | ok out => cases step
          | error e' =>
              dsimp only at step
              cases step
              rfl
  | @setup mid ds stopped run ih =>
      rw [← ih]
      unfold NodeState.setupBytes
      cases mid.setupCache with
      | none => rfl
      | some cached =>
          dsimp only
          split <;> rfl

theorem PassedThrough.before {genesis first last : RisePirServer C B} {replayed ds : List BlockDelta}
    {bundle : SetupBundle} (run : BlockRun genesis replayed first)
    (h : PassedThrough first ds last bundle) : PassedThrough genesis (replayed ++ ds) last bundle := by
  obtain ⟨pre, post, atBlock, rfl, before, after, rfl⟩ := h
  exact ⟨replayed ++ pre, post, atBlock, (List.append_assoc _ _ _).symm, run.append before, after, rfl⟩

theorem Deployed.retains (laws : C.LogLaws) {keccak256 : List UInt8 → List UInt8} {node : NodeState C B}
    (h : Deployed keccak256 node) : ∃ genesis live ds, WellFormed genesis ∧
      Retains keccak256 genesis live ds node := by
  obtain @⟨genesis, first, replayed, seeds, ds, capacity, complete, stopped, node, wellFormed, before,
    tail, capacity_pos, run, word⟩ := h
  have windowed := run.windowed (windowed_start keccak256 first capacity_pos complete seeds)
  obtain ⟨-, -, cache, after⟩ := windowed.setupBytes
  obtain ⟨live, lives, setup_eq, -, cached⟩ := after.live
  rw [setupBytes_server] at setup_eq
  have ring : node.ring.buf <:+ replayed ++ ds := by
    rw [windowed.ring]
    obtain ⟨older, rfl⟩ := tail
    refine (List.drop_suffix _ _).trans ⟨older, ?_⟩
    rw [List.append_assoc]
  have params : live.setup.backendParams = first.setup.backendParams := lives.params laws
  refine ⟨genesis, live, replayed ++ ds, wellFormed, before.append lives, setup_eq, ?_, ring, ?_,
    PassedThrough.before before (cached _ cache)⟩
  · have head : live.block = node.server.block := congrArg SetupBundle.block setup_eq
    omega
  · rw [params, FollowRun.epoch run, NodeState.seedHistory]
    have seeded : ∀ (l : List BlockDelta) (n : NodeState C B), (n.seed l).epoch = n.epoch := by
      intro l
      induction l with
      | nil => exact fun n => rfl
      | cons d l ih => exact fun n => ih _
    exact seeded _ _

namespace Retains

variable {keccak256 : List UInt8 → List UInt8} {genesis live : RisePirServer C B}
  {ds : List BlockDelta} {node : NodeState C B}

/-- Whatever `/setup` hands out carries the parameters the epoch is made of. -/
theorem bundle_epoch (laws : C.LogLaws) (h : Retains keccak256 genesis live ds node) :
    node.setupBytes.2.params = p ∧
      lineageEpoch keccak256 node.setupBytes.2.backendParams = node.epoch := by
  obtain ⟨pre, post, atBlock, rfl, before, after, bundle⟩ := h.bundle
  have same : live.setup.backendParams = atBlock.setup.backendParams := after.params laws
  rw [bundle, h.epoch, same]
  exact ⟨rfl, rfl⟩

/-- A range that the node serves: one retained delta for each of its blocks, their coalesced
sum, and a body that decodes to it. -/
theorem range_covers (laws : C.LogLaws) (h : Retains keccak256 genesis live ds node)
    {fromBlock toBlock : Nat} {d : BlockDelta} (served : node.ring.range fromBlock toBlock = some d) :
    (node.ring.selected fromBlock toBlock).map BlockDelta.block =
        List.range' (fromBlock + 1) (toBlock - fromBlock) ∧
      d.block = toBlock ∧ d.perSegment.length = p.arity ∧ d.IsCanonical ∧
      (∀ j row offset, |d.at j row offset| < 2 ^ p.plaintextBits) ∧
      decodeBlockDelta (encodeBlockDelta d) p.plaintextBits p.arity = .ok d := by
  have history := run_history laws h.run h.word
  obtain ⟨hlt, le, hblock, decodes, sums⟩ := history.range_served
    (fun e he => (run_inside laws h.run he).2) h.word h.ring served
  obtain ⟨-, full, -, segments, canonical, -⟩ := node.ring.range_spec h.ring history.ascending
    history.fits (fun b b' le j row offset => inI64_of_magnitude (history.between_magnitude le j row
      offset)) served
  refine ⟨?_, hblock, segments, canonical, fun j row offset => ?_, decodes⟩
  · have selected : (node.ring.selected fromBlock toBlock).length = toBlock - fromBlock := by
      by_contra hne
      rw [Ring.range, if_neg (by omega), if_pos hne] at served
      cases served
    have whole := Ring.selected_eq h.ring history.ascending selected
    have inside : ∀ e ∈ between ds fromBlock toBlock, fromBlock + 1 ≤ e.block ∧
        e.block < toBlock + 1 := by
      intro e he
      have hrange := (List.mem_filter.mp he).2
      simp only [decide_eq_true_eq] at hrange
      omega
    have run : Consecutive p.arity (fromBlock + 1) (between ds fromBlock toBlock) :=
      Ascending.consecutive (history.ascending.filter _) (fun e he => (inside e he).1)
        (fun e he => (inside e he).2) (full.trans (by omega))
        fun e he => (history.fits e (List.mem_of_mem_filter he)).segments
    rw [whole, Consecutive.blocks run, full]
  · rw [sums]
    exact history.between_magnitude hlt.le j row offset

end Retains

end RisePir.Http.Lifetime
