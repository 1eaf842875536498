import Mathlib.Data.BitVec
import RisePir.Lib.FlatMatrix
import RisePir.Lib.Splice
import RisePir.Proto.Types

set_option autoImplicit false
set_option relaxedAutoImplicit false

/-! The index-PIR backend as this repository sees it: an LWE scheme over 32-bit
words. Its code is a dependency, so its operations are a parameter and what the
repository relies on is stated as laws about them. -/

namespace RisePir.Upstream.Pir

open RisePir.Lib.FlatMatrix
open RisePir.Lib.Sparse
open RisePir.Lib.Splice
open RisePir.Proto.Types

/-- `SimpleServerParams` with the fields of its `SimpleParams`; `sigma` is kept as
the bits of the `f64`. FrodoPIR's parameters are those with `k = 1`. -/
structure SimpleServerParams where
  lweDim : Nat
  plaintextBits : Nat
  sigma : BitVec 64
  seed : BitVec 128
  nRows : Nat
  rowWidth : Nat
  k : Nat
  reshapeRows : Nat
  reshapeRowWidth : Nat
  deriving DecidableEq, Repr

/-- The matrix under which a segment's flat cells are read. -/
def SimpleServerParams.shape (sp : SimpleServerParams) : Shape :=
  ⟨sp.reshapeRows, sp.reshapeRowWidth⟩

/-- The parameters describe a segment of `nRows` rows of `rowWidth` cells, `k` of
them side by side in a row of the reshaped matrix. -/
structure SimpleServerParams.Describes (sp : SimpleServerParams) (nRows rowWidth plaintextBits : Nat) :
    Prop where
  rows_eq : sp.nRows = nRows
  width_eq : sp.rowWidth = rowWidth
  bits_eq : sp.plaintextBits = plaintextBits
  k_pos : 0 < sp.k
  reshape_width : sp.reshapeRowWidth = sp.k * sp.rowWidth
  reshape_rows : sp.reshapeRows = (sp.nRows + (sp.k - 1)) / sp.k

/-- `SimpleHint::data`: `lwe_dim × reshape_row_width`, row by row. -/
structure Hint where
  data : List (BitVec 32)
  deriving DecidableEq, Repr

structure Query where
  b : List (BitVec 32)
  deriving DecidableEq, Repr

structure Response where
  a : List (BitVec 32)
  deriving DecidableEq, Repr

/-- A flat cell array as a function, zero past its end. -/
def cellFn (cells : List (BitVec 32)) : Nat → BitVec 32 := fun i => cells.getD i 0

/-- Signed row deltas as words mod `2^32` at their flat positions. -/
def deltaFn (rowWidth : Nat) (deltas : SegmentRowDeltas) : Nat → BitVec 32 :=
  total ((flatTerms rowWidth deltas).map fun e => (e.1, BitVec.ofInt 32 e.2))

/-- `q · D` for a flat array `D`. -/
def SimpleServerParams.product (sp : SimpleServerParams) (q : Query) (D : Nat → BitVec 32) : Response :=
  ⟨(List.range sp.reshapeRowWidth).map fun c => vecMul sp.shape (fun r => q.b.getD r 0) D c⟩

/-- The upstream operations. `matrix` is the public LWE matrix that the seed of the
parameters expands to; `Material` is its expansion in the form the server keeps. -/
structure PirBackend where
  Config : Type
  Coins : Type
  Material : Type
  ClientState : Type
  matrix : SimpleServerParams → Nat → Nat → BitVec 32
  serverSetup : Config → Coins → List (BitVec 32) → (nRows rowWidth plaintextBits : Nat) →
    SimpleServerParams × Material × Hint
  expandHintMaterial : SimpleServerParams → Material
  serverAnswer : SimpleServerParams → List (BitVec 32) → (nRows rowWidth : Nat) → Query → Response
  serverPatchHint : SimpleServerParams → Material → Hint → SegmentRowDeltas → Hint
  clientSetup : SimpleServerParams → Hint → ClientState
  clientQuery : Coins → ClientState → Nat → ClientState × Query
  clientDecode : ClientState → Response → List (BitVec 32)
  clientPatchState : ClientState → SegmentRowDeltas → ClientState
  /-- `ClientState::params`. -/
  stateParams : ClientState → SimpleServerParams
  /-- The hint a client state is pinned to. -/
  stateHint : ClientState → Hint
  /-- The in-flight secret of the state is the one `query` for `row` was made with. -/
  InFlight : ClientState → Nat → Query → Prop

namespace PirBackend

variable (B : PirBackend)

/-- `A · D` for a flat array `D`. -/
def hintOf (sp : SimpleServerParams) (D : Nat → BitVec 32) : Hint :=
  ⟨tabulate sp.lweDim sp.reshapeRowWidth fun i c => vecMul sp.shape (B.matrix sp i) D c⟩

/-- The server's side: setup computes `A · D`, an answer is `q · D`, and a patch adds
`A · Δ`, all mod `2^32`. -/
structure ServerLaws : Prop where
  setup : ∀ config coins cells nRows rowWidth plaintextBits, 0 < nRows → 0 < rowWidth →
    cells.length = nRows * rowWidth →
    let out := B.serverSetup config coins cells nRows rowWidth plaintextBits
    out.1.Describes nRows rowWidth plaintextBits ∧ out.2.1 = B.expandHintMaterial out.1 ∧
      out.2.2 = B.hintOf out.1 (cellFn cells)
  answer : ∀ sp cells nRows rowWidth plaintextBits q, sp.Describes nRows rowWidth plaintextBits →
    cells.length = nRows * rowWidth →
    B.serverAnswer sp cells nRows rowWidth q = sp.product q (cellFn cells)
  patch : ∀ sp (H : Nat → Nat → BitVec 32) deltas,
    B.serverPatchHint sp (B.expandHintMaterial sp)
        ⟨tabulate sp.lweDim sp.reshapeRowWidth H⟩ deltas =
      ⟨tabulate sp.lweDim sp.reshapeRowWidth fun i c =>
        H i c + vecMul sp.shape (B.matrix sp i) (deltaFn sp.rowWidth deltas) c⟩

/-- The client's side: a response `q · D` decoded against the hint `A · D` is exactly the
queried row of `D`, for every `D` of plaintext cells. -/
structure ClientLaws : Prop where
  setup_params : ∀ sp hint, B.stateParams (B.clientSetup sp hint) = sp
  setup_hint : ∀ sp hint, B.stateHint (B.clientSetup sp hint) = hint
  query_params : ∀ coins st row, B.stateParams (B.clientQuery coins st row).1 = B.stateParams st
  query_hint : ∀ coins st row, B.stateHint (B.clientQuery coins st row).1 = B.stateHint st
  query_inFlight : ∀ coins st row,
    B.InFlight (B.clientQuery coins st row).1 row (B.clientQuery coins st row).2
  query_length : ∀ coins st row,
    (B.clientQuery coins st row).2.b.length = (B.stateParams st).reshapeRows
  patch_params : ∀ st deltas, B.stateParams (B.clientPatchState st deltas) = B.stateParams st
  patch_hint : ∀ st deltas, B.stateHint (B.clientPatchState st deltas) =
    B.serverPatchHint (B.stateParams st) (B.expandHintMaterial (B.stateParams st))
      (B.stateHint st) deltas
  patch_inFlight : ∀ st deltas row q, B.InFlight st row q →
    B.InFlight (B.clientPatchState st deltas) row q
  decode : ∀ st row q cells nRows rowWidth plaintextBits,
    (B.stateParams st).Describes nRows rowWidth plaintextBits →
    cells.length = nRows * rowWidth → row < nRows →
    (∀ cell ∈ cells, cell.toNat < 2 ^ plaintextBits) →
    B.InFlight st row q → B.stateHint st = B.hintOf (B.stateParams st) (cellFn cells) →
    B.clientDecode st ((B.stateParams st).product q (cellFn cells)) =
      slice cells (row * rowWidth) rowWidth

/-- Both sides' laws. -/
structure Lawful : Prop extends ServerLaws B, ClientLaws B

variable {B}

/-- A patch turns `A · D` into `A · (D + Δ)`. -/
theorem ServerLaws.patch_hintOf (laws : B.ServerLaws) (sp : SimpleServerParams)
    (D : Nat → BitVec 32) (deltas : SegmentRowDeltas) :
    B.serverPatchHint sp (B.expandHintMaterial sp) (B.hintOf sp D) deltas =
      B.hintOf sp fun i => D i + deltaFn sp.rowWidth deltas i := by
  rw [hintOf, laws.patch, hintOf]
  congr 1
  exact tabulate_congr fun i _ c _ => (vecMul_add _ _ _ _ _).symm

end PirBackend

theorem deltaFn_nil (rowWidth : Nat) : deltaFn rowWidth [] = fun _ => 0 := rfl

/-- The delta word at a cell is the signed delta there, mod `2^32`. -/
theorem deltaFn_cell {rowWidth : Nat} {deltas : SegmentRowDeltas}
    (inside : ∀ e ∈ entries deltas, e.1.2 < rowWidth) {r o : Nat} (ho : o < rowWidth) :
    deltaFn rowWidth deltas (r * rowWidth + o) = BitVec.ofInt 32 (cellAt deltas r o) := by
  have cast := total_mapValues (Int.castAddHom (BitVec 32)) (flatTerms rowWidth deltas)
    (r * rowWidth + o)
  rw [total_flatTerms inside ho] at cast
  exact cast

end RisePir.Upstream.Pir
