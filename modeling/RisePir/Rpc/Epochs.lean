import RisePir.Client.EndToEnd
import RisePir.Http.Lifetime
import RisePir.Rpc.NativeSession

set_option autoImplicit false
set_option relaxedAutoImplicit false

/-! The nodes of a deployment over its lifetime. Whatever restarts and regressions happen
under one epoch, its nodes stand at the blocks of one history. -/

namespace RisePir.Rpc.Epochs

open RisePir.Proto.Types
open RisePir.Proto.Codec
open RisePir.Proto.Value
open RisePir.Upstream.Cuckoo
open RisePir.Upstream.Pir
open RisePir.Client.Core
open RisePir.Client.Tracking
open RisePir.Server.Core
open RisePir.Server.CellDelta
open RisePir.Server.DeltaRing
open RisePir.Server.Run
open RisePir.Server.Telescope
open RisePir.Http.Node
open RisePir.Http.Lifetime
open RisePir.Http.Serving
open RisePir.Http.Wire
open RisePir.Rpc.NativeSession

/-- One epoch's history: its servers block by block with the deltas between them. -/
structure Lineage (T : Tables) (B : PirBackend) (keccak256 : List UInt8 → List UInt8)
    (codec : ValueCodec) where
  params : CuckooParams
  epoch : String
  blocks : Nat
  server : Nat → RisePirServer (T params) B
  delta : Nat → BlockDelta
  steps : ∀ i, i < blocks → BlockRun (server i) [delta i] (server (i + 1))
  wellFormed : WellFormed (server 0)
  hints : HintsMatch (p := params) (server 0).segments (server 0).store.cells
  codec_eq : (server 0).valueCodec = codec
  word : (server 0).block + blocks < 2 ^ 64
  widths : ∀ seg ∈ (server 0).segments, seg.params.reshapeRowWidth < 2 ^ 32
  epoch_eq : epoch = lineageEpoch keccak256 (server 0).setup.backendParams

variable {T : Tables} {B : PirBackend} {keccak256 : List UInt8 → List UInt8} {codec : ValueCodec}

namespace Lineage

variable (L : Lineage T B keccak256 codec)

/-- The deltas between two positions. -/
def deltas (i j : Nat) : List BlockDelta := (List.range' i (j - i)).map L.delta

/-- A node at some block of the lineage: whatever part of the history it retains, and a
cached bundle of some block it has passed. -/
structure Holds (node : NodeState (T L.params) B) (i : Nat) : Prop where
  inside : i ≤ L.blocks
  epoch : node.epoch = L.epoch
  server : node.server = L.server i
  ring : node.ring.buf <:+ L.deltas 0 i
  cached : ∀ bundle, node.setupCache = some bundle → ∃ k ≤ i, bundle = (L.server k).setup

variable {L}

theorem deltas_append {i j k : Nat} (hij : i ≤ j) (hjk : j ≤ k) :
    L.deltas i k = L.deltas i j ++ L.deltas j k := by
  obtain ⟨m, rfl⟩ := Nat.exists_eq_add_of_le hij
  obtain ⟨n, rfl⟩ := Nat.exists_eq_add_of_le hjk
  rw [deltas, deltas, deltas, ← List.map_append, Nat.add_assoc, Nat.add_sub_cancel_left,
    Nat.add_sub_cancel_left, ← Nat.add_assoc, Nat.add_sub_cancel_left, List.range'_append_1]

theorem run {i j : Nat} (le : i ≤ j) (inside : j ≤ L.blocks) :
    BlockRun (L.server i) (L.deltas i j) (L.server j) := by
  obtain ⟨n, rfl⟩ := Nat.exists_eq_add_of_le le
  induction n with
  | zero =>
      rw [deltas, Nat.add_zero, Nat.sub_self]
      exact .nil _
  | succ n ih =>
      have last : L.deltas (i + n) (i + (n + 1)) = [L.delta (i + n)] := by
        rw [deltas, ← Nat.add_assoc, Nat.add_sub_cancel_left]
        rfl
      rw [deltas_append (Nat.le_add_right i n) (by omega), last]
      exact (ih (Nat.le_add_right _ _) (by omega)).append (L.steps (i + n) (by omega))

variable (logLaws : ∀ p, (T p).LogLaws)

include logLaws

theorem block_eq {i : Nat} (inside : i ≤ L.blocks) : (L.server i).block = (L.server 0).block + i := by
  have h := (L.run (Nat.zero_le i) inside).block (logLaws _)
  rw [h, deltas, List.length_map, List.length_range']
  rfl

theorem block_inj {i j : Nat} (hi : i ≤ L.blocks) (hj : j ≤ L.blocks)
    (h : (L.server i).block = (L.server j).block) : i = j := by
  rw [L.block_eq logLaws hi, L.block_eq logLaws hj] at h
  omega

theorem server_wellFormed (laws : B.ServerLaws) {i : Nat} (inside : i ≤ L.blocks) :
    WellFormed (L.server i) :=
  (L.run (Nat.zero_le i) inside).wellFormed (logLaws _) laws L.wellFormed

theorem server_hints (laws : B.ServerLaws) {i : Nat} (inside : i ≤ L.blocks) :
    HintsMatch (p := L.params) (L.server i).segments (L.server i).store.cells :=
  (L.run (Nat.zero_le i) inside).hintsMatch (logLaws _) laws L.wellFormed L.hints

theorem server_codec {i : Nat} (inside : i ≤ L.blocks) : (L.server i).valueCodec = codec :=
  ((L.run (Nat.zero_le i) inside).valueCodec (logLaws _)).trans L.codec_eq

theorem server_backendParams {i : Nat} (inside : i ≤ L.blocks) :
    (L.server i).setup.backendParams = (L.server 0).setup.backendParams :=
  (L.run (Nat.zero_le i) inside).params (logLaws _)

theorem server_widths {i : Nat} (inside : i ≤ L.blocks) :
    ∀ seg ∈ (L.server i).segments, seg.params.reshapeRowWidth < 2 ^ 32 := by
  intro seg hseg
  have hmem : seg.params ∈ (L.server i).segments.map SegmentState.params := List.mem_map_of_mem hseg
  rw [(L.run (Nat.zero_le i) inside).params (logLaws _)] at hmem
  obtain ⟨seg₀, h₀, heq⟩ := List.mem_map.mp hmem
  rw [← heq]
  exact L.widths seg₀ h₀

/-- The deltas of the whole lineage, over the cells it begins with. -/
theorem history : History (T L.params) (L.server 0).store.cells (L.deltas 0 L.blocks) :=
  run_history (logLaws _) (L.run (Nat.zero_le _) (Nat.le_refl _)) (by
    rw [L.block_eq logLaws (Nat.le_refl _)]
    exact L.word)

/-- The blocks of a range of the history. -/
theorem between_deltas {i j k : Nat} (hij : i ≤ j) (hjk : j ≤ k) (inside : k ≤ L.blocks) :
    between (L.deltas 0 k) (L.server i).block (L.server j).block = L.deltas i j := by
  have older := fun d hd => run_inside (logLaws _) (L.run (Nat.zero_le i) (by omega)) (d := d) hd
  have kept := fun d hd => run_inside (logLaws _) (L.run hij (by omega)) (d := d) hd
  have newer := fun d hd => run_inside (logLaws _) (L.run hjk inside) (d := d) hd
  rw [between, deltas_append (Nat.zero_le i) (by omega), deltas_append hij hjk, List.filter_append,
    List.filter_append, List.filter_eq_nil_iff.mpr fun d hd => ?_,
    List.filter_eq_self.mpr fun d hd => ?_, List.filter_eq_nil_iff.mpr fun d hd => ?_,
    List.nil_append, List.append_nil]
  · have := newer d hd
    simp
    omega
  · have := kept d hd
    simp
    omega
  · have := older d hd
    simp
    omega

end Lineage

end RisePir.Rpc.Epochs
