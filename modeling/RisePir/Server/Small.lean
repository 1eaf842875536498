import RisePir.Server.Core
import RisePir.Upstream.ReferencePir
import RisePir.Upstream.ReferenceTable

set_option autoImplicit false
set_option relaxedAutoImplicit false

/-! A deployment small enough to run: two segments of two one-slot buckets, 8-bit key
tags, balances and checksums. -/

namespace RisePir.Server.Small

open RisePir.Lib.Digits
open RisePir.Proto.Types
open RisePir.Proto.Value
open RisePir.Upstream.Cuckoo
open RisePir.Upstream.Pir
open RisePir.Upstream.ReferencePir
open RisePir.Upstream.ReferenceTable
open RisePir.Server.Core

def smallParams : CuckooParams where
  arity := 2
  numBuckets := 4
  bucketSize := 1
  fingerprintBits := 4
  valueBits := 24
  plaintextBits := 8
  arity_range := by decide
  segments_even := by decide
  numBuckets_range := by decide
  bucketSize_pos := by decide
  fieldBits_pos := by decide
  plaintextBits_range := by decide
  rowWidth_fits := by decide

/-- The key tag is the key's first byte. -/
def smallCodec : ValueCodec := ⟨8, 8, 8, fun bytes _ => BitVec.ofNat 64 (leNat (bytes.take 1))⟩

theorem smallCodec_width : smallCodec.valueBits = smallParams.valueBits := rfl

theorem pos_four : 0 < 4 := by decide

theorem pos_eight : 0 < 8 := by decide

/-- A key by its tag, its fingerprint's byte and its rows in the two segments. -/
def smallKey (tag fingerprint row₀ row₁ : Nat) : AddressHash :=
  BitVec.ofNat 256 (tag + 2 ^ 8 * fingerprint + 2 ^ 16 * row₀ + 2 ^ 24 * row₁)

abbrev SmallServer : Type := RisePirServer (referenceTable smallParams) referencePir

/-- The empty server at a genesis block. -/
def smallServer (genesisBlock : Nat) : SmallServer :=
  .new (emptyStore smallParams) ⟨1, 1⟩ (fun j => ⟨BitVec.ofNat 128 j, []⟩) smallCodec genesisBlock
    smallCodec_width

theorem smallServer_cells (genesisBlock : Nat) :
    (smallServer genesisBlock).store.cells = (emptyStore smallParams).cells := by
  rw [smallServer]
  rfl

/-- A random source under which `insert` tries every candidate slot, from `rotation` on. -/
def draw (rotation : Nat) : (referenceTable smallParams).Rng := Draw.mk rotation 2

/-- A digest that is `keccak256`'s on the lineage material of this deployment. -/
def smallDigest : List UInt8 → List UInt8 := fun _ =>
  [0xc9, 0xe7, 0x5d, 0x0e, 0xe6, 0xd2, 0x31, 0x1f, 0x97, 0x90, 0x83, 0x94, 0xd7, 0xc2, 0xe4, 0x4e,
    0x9b, 0x2b, 0x20, 0xa7, 0xd8, 0x20, 0xd2, 0x71, 0x20, 0x39, 0x79, 0x81, 0xa8, 0x9c, 0x6e, 0x5b]

/-- The server that a block leaves behind. -/
def SmallServer.after (s : SmallServer) (rng : (referenceTable smallParams).Rng)
    (update : BlockUpdate) : SmallServer :=
  (s.applyBlockReporting rng update).1

/-- The block succeeds. -/
def SmallServer.succeeds (s : SmallServer) (rng : (referenceTable smallParams).Rng)
    (update : BlockUpdate) : Bool :=
  (s.applyBlockReporting rng update).2.toOption.isSome

theorem SmallServer.applied {s : SmallServer} {rng : (referenceTable smallParams).Rng}
    {update : BlockUpdate} (h : s.succeeds rng update = true) :
    ∃ delta report, s.applyBlockReporting rng update = (s.after rng update, .ok (delta, report)) := by
  rw [succeeds] at h
  cases hr : s.applyBlockReporting rng update with
  | mk s' r =>
      rw [hr] at h
      cases r with
      | error e => cases h
      | ok out => exact ⟨out.1, out.2, by rw [after, hr]⟩

end RisePir.Server.Small
