import RisePir.Server.Effect
import RisePir.Server.Run

set_option autoImplicit false
set_option relaxedAutoImplicit false

/-! Tables all of whose entries decode. Every block keeps that, whether it succeeds or not. -/

namespace RisePir.Server.Intact

open RisePir.Proto.Types
open RisePir.Proto.Value
open RisePir.Proto.Value.ValueCodec
open RisePir.Upstream.Cuckoo
open RisePir.Upstream.Pir
open RisePir.Upstream.Slots
open RisePir.Server.Verified
open RisePir.Server.Core
open RisePir.Server.Effect
open RisePir.Server.Run

variable {p : CuckooParams} {C : SegmentedCuckoo p} {B : PirBackend} {codec : ValueCodec}

/-- Every occupied slot's value decodes under the tag it carries. -/
def IntactCells (C : SegmentedCuckoo p) (codec : ValueCodec) (cells : List (BitVec 32)) : Prop :=
  ∀ s, p.IsSlot s → (C.slotAt cells s).1 ≠ 0 →
    ∀ key, codec.keyTag key = codec.extractKeyTag (C.slotAt cells s).2 →
      ∃ b, codec.decode key (C.slotAt cells s).2 = .found b

private theorem encoded_decodes {addr key : AddressHash} {balance : Balance} {bytes : List UInt8}
    (henc : codec.encode addr balance = .ok bytes)
    (htag : codec.keyTag key = codec.extractKeyTag bytes) :
    ∃ b, codec.decode key bytes = .found b := by
  rw [extractKeyTag_encode henc] at htag
  exact ⟨balance, (decode_eq_of_keyTag htag bytes).trans (decode_encode henc)⟩

theorem IntactCells.change {cells cells' : List (BitVec 32)} (h : IntactCells C codec cells)
    {addr : AddressHash} {balance : Balance}
    (effect : ChangeEffect C codec cells cells' addr balance) : IntactCells C codec cells' := by
  intro t ht hocc key htag
  cases effect with
  | noop absent zero same =>
      subst same
      exact h t ht hocc key htag
  | delete s content own zero vacant rewritten =>
      by_cases hts : t = s
      · subst hts
        rw [rewritten.self] at hocc
        exact absurd vacant hocc
      · rw [rewritten.other t ht hts] at hocc htag ⊢
        exact h t ht hocc key htag
  | update s bytes own nonzero encoded rewritten =>
      by_cases hts : t = s
      · subst hts
        rw [rewritten.self] at htag ⊢
        exact encoded_decodes encoded htag
      · rw [rewritten.other t ht hts] at hocc htag ⊢
        exact h t ht hocc key htag
  | insert target source bytes absent nonzero encoded inserted entry =>
      by_cases hts : t = target
      · subst hts
        rw [entry] at htag ⊢
        exact encoded_decodes encoded htag
      · cases hsource : source t with
        | none => exact absurd (inserted.vacant t ht hts hsource) hocc
        | some s₀ =>
            obtain ⟨hs₀, hocc₀, hsame, -⟩ := inserted.moved t s₀ ht hts hsource
            have same : C.slotAt cells' t = C.slotAt cells s₀ := congrArg C.unpackSlotCells hsame
            rw [same] at htag ⊢
            exact h s₀ hs₀ hocc₀ key htag

theorem applyEntries_intact (laws : C.PlacementLaws) (bits : codec.valueBits = p.valueBits)
    {t : Table C} (h : IntactCells C codec t.store.cells) (update : BlockUpdate) :
    IntactCells C codec (applyEntries codec t update).1.store.cells := by
  refine applyEntries_invariant (f := fun (_ : Unit) _ => ()) (g := fun _ _ => ())
    (P := fun store _ => IntactCells C codec store.cells) ?_ ?_ t () h
  · intro entry _ t t' _ kind hst step
    exact hst.change (applyChange_effect laws bits step)
  · intro entry _ t t' _ kind hst step
    obtain ⟨prior, -, -, hchange⟩ := applyCredit_ok step
    exact hst.change (applyChange_effect laws bits hchange)

/-- A table all of whose entries decode stays one, whatever the block's outcome. -/
theorem apply_intact (laws : C.PlacementLaws) {s : RisePirServer C B}
    (h : IntactCells C s.valueCodec s.store.cells) (rng : C.Rng) (update : BlockUpdate) :
    IntactCells C s.valueCodec (s.applyBlockReporting rng update).1.store.cells ∧
      (s.applyBlockReporting rng update).1.valueCodec = s.valueCodec := by
  have intact := applyEntries_intact laws s.value_bits (t := ⟨rng, s.store⟩) h update
  unfold RisePirServer.applyBlockReporting
  split
  · exact ⟨h, rfl⟩
  · cases he : applyEntries s.valueCodec ⟨rng, s.store⟩ update with
    | mk t r =>
        rw [he] at intact
        cases r <;> exact ⟨intact, rfl⟩

theorem run_intact (laws : C.PlacementLaws) {s s' : RisePirServer C B} {ds : List BlockDelta}
    (run : BlockRun s ds s') (h : IntactCells C s.valueCodec s.store.cells) :
    IntactCells C s'.valueCodec s'.store.cells := by
  induction run with
  | nil s => exact h
  | @cons rng s s₁ s₂ update delta report ds next step rest ih =>
      obtain ⟨intact, hcodec⟩ := apply_intact laws h rng update
      rw [step] at intact hcodec
      refine ih ?_
      rw [hcodec]
      exact intact

/-- In such a table a key with one matching slot reads a balance. -/
theorem balanceOf_intact (laws : C.PlacementLaws) {s : RisePirServer C B}
    (h : IntactCells C s.valueCodec s.store.cells) {key : AddressHash} {slot : Nat × Nat}
    (hown : ownSlots C s.valueCodec s.store.cells key = [slot]) :
    ∃ b, s.balanceOf key = .ok (some b) ∧
      s.valueCodec.decode key (C.slotAt s.store.cells slot).2 = .found b := by
  have hmem : slot ∈ ownSlots C s.valueCodec s.store.cells key := by simp [hown]
  obtain ⟨hprobe, hmatch⟩ := mem_ownSlots.mp hmem
  obtain ⟨hfp, htag⟩ := tagMatch_iff.mp hmatch
  have hocc : (C.slotAt s.store.cells slot).1 ≠ 0 := by
    rw [hfp]
    exact (laws.fp_range key).1.ne'
  obtain ⟨b, hb⟩ := h slot (isSlot_of_mem_probe laws hprobe) hocc key htag.symm
  refine ⟨b, ?_, hb⟩
  rw [RisePirServer.balanceOf, get_unique laws hown, hb]

end RisePir.Server.Intact
