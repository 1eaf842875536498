import RisePir.Lib.Digits
import RisePir.Proto.Varint
import RisePir.Server.Core

set_option autoImplicit false
set_option relaxedAutoImplicit false

/-! The setup bundle's wire body, and the epoch that names a hint lineage. -/

namespace RisePir.Http.Wire

open RisePir.Lib.Digits
open RisePir.Proto.Varint
open RisePir.Upstream.Pir
open RisePir.Server.Core

/-- `b"RPS1"`. -/
def SETUP_MAGIC : List UInt8 := [0x52, 0x50, 0x53, 0x31]

/-- `encode_u32s`: a length prefix, then the words little-endian. -/
def encodeU32s (values : List (BitVec 32)) : List UInt8 :=
  writeUvarint values.length ++ values.flatMap fun v => leBytes 4 v.toNat

def encodeServerParams (sp : SimpleServerParams) : List UInt8 :=
  leBytes 4 sp.lweDim ++ leBytes 4 sp.plaintextBits ++ leBytes 8 sp.sigma.toNat ++
    leBytes 16 sp.seed.toNat ++ leBytes 4 sp.nRows ++ leBytes 4 sp.rowWidth ++ leBytes 4 sp.k ++
    leBytes 4 sp.reshapeRows ++ leBytes 4 sp.reshapeRowWidth

/-- `encode_setup`. -/
def encodeSetup (bundle : SetupBundle) : List UInt8 :=
  SETUP_MAGIC ++ [UInt8.ofNat bundle.params.arity] ++ leBytes 4 bundle.params.numBuckets ++
    leBytes 4 bundle.params.bucketSize ++ leBytes 4 bundle.params.fingerprintBits ++
    leBytes 4 bundle.params.valueBits ++ leBytes 4 bundle.params.plaintextBits ++
    leBytes 8 bundle.block ++ bundle.backendParams.flatMap encodeServerParams ++
    bundle.hints.flatMap fun hint => encodeU32s hint.data

/-- The bytes that `lineage_epoch` hashes. -/
def lineageMaterial (params : List SimpleServerParams) : List UInt8 :=
  params.flatMap fun sp => leBytes 16 sp.seed.toNat ++ leBytes 4 sp.nRows ++ leBytes 4 sp.rowWidth ++
    leBytes 4 sp.reshapeRows ++ leBytes 4 sp.reshapeRowWidth

def hexDigit (n : Nat) : Char := "0123456789abcdef".toList.getD n '0'

/-- `lineage_epoch`: the digest's first eight bytes in hex. -/
def lineageEpoch (keccak256 : List UInt8 → List UInt8) (params : List SimpleServerParams) : String :=
  String.ofList (((keccak256 (lineageMaterial params)).take 8).flatMap fun byte =>
    [hexDigit (byte.toNat / 16), hexDigit (byte.toNat % 16)])

end RisePir.Http.Wire
