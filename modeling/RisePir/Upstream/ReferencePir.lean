import RisePir.Upstream.Pir

set_option autoImplicit false
set_option relaxedAutoImplicit false

/-! The scheme without noise: a query is `s · A` plus a multiple of one row's unit vector.
It shows the backend's laws satisfiable and runs the examples. -/

namespace RisePir.Upstream.ReferencePir

open RisePir.Lib.FlatMatrix
open RisePir.Lib.Splice
open RisePir.Proto.Types
open RisePir.Upstream.Pir

/-- The two freely chosen parameters. -/
structure Config where
  lweDim : Nat
  k : Nat
  deriving DecidableEq, Repr

/-- A client's parameters, its hint, and the row and secret in flight. -/
structure ClientState where
  params : SimpleServerParams
  hint : Hint
  inFlight : Option (Nat × List (BitVec 32))
  deriving DecidableEq, Repr

/-- Entry `(i, r)` of a matrix that the seed determines. -/
def matrix (sp : SimpleServerParams) (i r : Nat) : BitVec 32 :=
  BitVec.ofNat 32 (sp.seed.toNat + 7 * i + 11 * r + 1)

/-- A secret's coefficient, zero past its end. -/
def coefficient (secret : List (BitVec 32)) (i : Nat) : BitVec 32 := secret.getD i 0

/-- The position of the plaintext in a 32-bit word. -/
def scale (sp : SimpleServerParams) : Nat := 2 ^ (32 - sp.plaintextBits)

/-- `s · A` plus the plaintext scale at the row of the reshaped matrix that holds `row`. -/
def encrypt (sp : SimpleServerParams) (secret : List (BitVec 32)) (row : Nat) : Query :=
  ⟨(List.range sp.reshapeRows).map fun r =>
    ((List.range sp.lweDim).map fun i => coefficient secret i * matrix sp i r).sum +
      if r = row / sp.k then BitVec.ofNat 32 (scale sp) else 0⟩

/-- Column `c` of a response without the secret's share. -/
def decrypt (sp : SimpleServerParams) (hint : Hint) (secret : List (BitVec 32)) (a : List (BitVec 32))
    (c : Nat) : BitVec 32 :=
  BitVec.ofNat 32 ((a.getD c 0 - ((List.range sp.lweDim).map fun i =>
    coefficient secret i * hint.data.getD (i * sp.reshapeRowWidth + c) 0).sum).toNat / scale sp)

/-- `server_patch_hint`: `A · Δ` is added entry by entry. -/
def patchHint (sp : SimpleServerParams) (hint : Hint) (deltas : SegmentRowDeltas) : Hint :=
  ⟨tabulate sp.lweDim sp.reshapeRowWidth fun i c =>
    hint.data.getD (i * sp.reshapeRowWidth + c) 0 +
      vecMul sp.shape (matrix sp i) (deltaFn sp.rowWidth deltas) c⟩

/-- Parameters of a segment; `k` rows stand side by side. -/
def describe (config : Config) (seed : BitVec 128) (nRows rowWidth plaintextBits : Nat) :
    SimpleServerParams where
  lweDim := config.lweDim
  plaintextBits := plaintextBits
  sigma := 0x401999999999999a
  seed := seed
  nRows := nRows
  rowWidth := rowWidth
  k := max 1 config.k
  reshapeRows := (nRows + (max 1 config.k - 1)) / max 1 config.k
  reshapeRowWidth := max 1 config.k * rowWidth

/-- `serverSetup` draws the seed, `clientQuery` the secret. -/
structure Coins where
  seed : BitVec 128
  secret : List (BitVec 32)

def referencePir : PirBackend where
  Config := Config
  Coins := Coins
  Material := Unit
  ClientState := ClientState
  matrix := matrix
  serverSetup config coins cells nRows rowWidth plaintextBits :=
    let sp := describe config coins.seed nRows rowWidth plaintextBits
    (sp, (), ⟨tabulate sp.lweDim sp.reshapeRowWidth fun i c =>
      vecMul sp.shape (matrix sp i) (cellFn cells) c⟩)
  expandHintMaterial _ := ()
  serverAnswer sp cells _ _ q := sp.product q (cellFn cells)
  serverPatchHint sp _ hint deltas := patchHint sp hint deltas
  clientSetup sp hint := ⟨sp, hint, none⟩
  clientQuery coins st row := ({ st with inFlight := some (row, coins.secret) },
    encrypt st.params coins.secret row)
  clientDecode st resp :=
    match st.inFlight with
    | none => []
    | some (row, secret) => (List.range st.params.rowWidth).map fun o =>
        decrypt st.params st.hint secret resp.a (row % st.params.k * st.params.rowWidth + o)
  clientPatchState st deltas := { st with hint := patchHint st.params st.hint deltas }
  stateParams st := st.params
  stateHint st := st.hint
  InFlight st row q := ∃ secret, st.inFlight = some (row, secret) ∧ q = encrypt st.params secret row

section Laws

private theorem product_getD (sp : SimpleServerParams) (q : Query) (D : Nat → BitVec 32) {c : Nat}
    (hc : c < sp.reshapeRowWidth) :
    (sp.product q D).a.getD c 0 = vecMul sp.shape (fun r => q.b.getD r 0) D c := by
  simp [SimpleServerParams.product, hc]

/-- The secret's share of a response is the secret's combination of the hint. -/
private theorem product_encrypt (sp : SimpleServerParams) (secret : List (BitVec 32)) {row : Nat}
    (D : Nat → BitVec 32) {c : Nat} (hc : c < sp.reshapeRowWidth)
    (hrow : row / sp.k < sp.reshapeRows) :
    (sp.product (encrypt sp secret row) D).a.getD c 0 =
      ((List.range sp.lweDim).map fun i =>
        coefficient secret i * vecMul sp.shape (matrix sp i) D c).sum +
      BitVec.ofNat 32 (scale sp) * D (row / sp.k * sp.reshapeRowWidth + c) := by
  have entry : vecMul sp.shape (fun r => (encrypt sp secret row).b.getD r 0) D c =
      vecMul sp.shape (fun r => ((List.range sp.lweDim).map fun i =>
        coefficient secret i * matrix sp i r).sum +
          if r = row / sp.k then BitVec.ofNat 32 (scale sp) else 0) D c := by
    unfold vecMul
    congr 1
    refine List.map_congr_left fun r hr => ?_
    have hr : r < sp.reshapeRows := List.mem_range.mp hr
    simp [encrypt, hr]
  rw [product_getD sp _ D hc, entry, vecMul_add_left, vecMul_combination, vecMul_unit,
    if_pos (show row / sp.k < sp.shape.rows from hrow)]
  rfl

private theorem scaled_div {bits : Nat} {x : BitVec 32} (hx : x.toNat < 2 ^ bits) :
    BitVec.ofNat 32 ((BitVec.ofNat 32 (2 ^ (32 - bits)) * x).toNat / 2 ^ (32 - bits)) = x := by
  have product : x.toNat * 2 ^ (32 - bits) < 2 ^ 32 := by
    by_cases h : bits ≤ 32
    · calc x.toNat * 2 ^ (32 - bits) < 2 ^ bits * 2 ^ (32 - bits) :=
            Nat.mul_lt_mul_of_pos_right hx (Nat.two_pow_pos _)
        _ = 2 ^ 32 := by rw [← pow_add]; congr 1; omega
    · have : 32 - bits = 0 := by omega
      rw [this, pow_zero, Nat.mul_one]
      exact x.isLt
  have number : (BitVec.ofNat 32 (2 ^ (32 - bits)) * x).toNat = x.toNat * 2 ^ (32 - bits) := by
    rw [BitVec.toNat_mul, BitVec.toNat_ofNat, Nat.mod_mul_mod, Nat.mul_comm,
      Nat.mod_eq_of_lt product]
  rw [number, Nat.mul_div_cancel _ (Nat.two_pow_pos _)]
  simp

/-- A response decrypts column by column to the queried row of the reshaped matrix. -/
private theorem decrypt_product (sp : SimpleServerParams) (secret : List (BitVec 32)) {row : Nat}
    (D : Nat → BitVec 32) {c : Nat} (hc : c < sp.reshapeRowWidth)
    (hrow : row / sp.k < sp.reshapeRows)
    (small : (D (row / sp.k * sp.reshapeRowWidth + c)).toNat < 2 ^ sp.plaintextBits) :
    decrypt sp (referencePir.hintOf sp D) secret (sp.product (encrypt sp secret row) D).a c =
      D (row / sp.k * sp.reshapeRowWidth + c) := by
  have share : ((List.range sp.lweDim).map fun i => coefficient secret i *
      (referencePir.hintOf sp D).data.getD (i * sp.reshapeRowWidth + c) 0).sum =
      ((List.range sp.lweDim).map fun i =>
        coefficient secret i * vecMul sp.shape (matrix sp i) D c).sum := by
    congr 1
    refine List.map_congr_left fun i hi => ?_
    rw [PirBackend.hintOf, tabulate_getD _ _ (List.mem_range.mp hi) hc]
    rfl
  rw [decrypt, product_encrypt sp secret D hc hrow, share, add_sub_cancel_left]
  exact scaled_div small

theorem serverLaws : referencePir.ServerLaws where
  setup config coins cells nRows rowWidth plaintextBits _ _ _ :=
    ⟨⟨rfl, rfl, rfl, by simp [referencePir, describe], rfl, rfl⟩, rfl, rfl⟩
  answer sp cells nRows rowWidth plaintextBits q _ _ := rfl
  patch sp H deltas := by
    change patchHint sp _ deltas = _
    rw [patchHint]
    congr 1
    refine tabulate_congr fun i hi c hc => ?_
    rw [tabulate_getD _ _ hi hc]
    rfl

theorem clientLaws : referencePir.ClientLaws where
  setup_params _ _ := rfl
  setup_hint _ _ := rfl
  query_params _ _ _ := rfl
  query_hint _ _ _ := rfl
  query_inFlight coins st row := ⟨coins.secret, rfl, rfl⟩
  query_length coins st row := by simp [referencePir, encrypt]
  patch_params _ _ := rfl
  patch_hint _ _ := rfl
  patch_inFlight _ _ _ _ h := h
  decode st row q cells nRows rowWidth plaintextBits describes length hrow small inFlight hint := by
    obtain ⟨secret, hflight, rfl⟩ := inFlight
    change st.params.Describes nRows rowWidth plaintextBits at describes
    obtain ⟨hn, hw, hbits, hk, hreshape, hrows⟩ := describes
    have hbig : row / st.params.k < st.params.reshapeRows := by
      rw [hrows, hn, Nat.div_lt_iff_lt_mul hk]
      have := Nat.lt_div_mul_add (a := nRows + (st.params.k - 1)) hk
      omega
    have inside : row * rowWidth + rowWidth ≤ cells.length := by
      rw [length]
      calc row * rowWidth + rowWidth = (row + 1) * rowWidth := by ring
        _ ≤ nRows * rowWidth := Nat.mul_le_mul_right _ hrow
    have decoded : referencePir.clientDecode st ((referencePir.stateParams st).product
        (encrypt st.params secret row) (cellFn cells)) = (List.range st.params.rowWidth).map
          fun o => decrypt st.params st.hint secret (st.params.product
            (encrypt st.params secret row) (cellFn cells)).a
              (row % st.params.k * st.params.rowWidth + o) := by
      change (match st.inFlight with | none => [] | some (row, secret) => _) = _
      rw [hflight]
      rfl
    rw [decoded]
    refine ext_getD 0 (by rw [length_slice inside, List.length_map, List.length_range, hw])
      fun o ho => ?_
    have ho : o < st.params.rowWidth := by simpa using ho
    have column : row % st.params.k * st.params.rowWidth + o < st.params.reshapeRowWidth := by
      rw [hreshape]
      calc _ < (row % st.params.k + 1) * st.params.rowWidth := by
            rw [Nat.add_mul, Nat.one_mul]
            omega
        _ ≤ st.params.k * st.params.rowWidth := Nat.mul_le_mul_right _ (Nat.mod_lt _ hk)
    have index : row / st.params.k * st.params.reshapeRowWidth +
        (row % st.params.k * st.params.rowWidth + o) = row * rowWidth + o := by
      conv_rhs => rw [← Nat.div_add_mod row st.params.k]
      rw [hreshape, hw]
      ring
    have hcell : row * rowWidth + o < cells.length := by omega
    have hint : st.hint = referencePir.hintOf st.params (cellFn cells) := hint
    have plain := decrypt_product st.params secret (cellFn cells) column hbig (by
      rw [index, hbits, cellFn, List.getD_eq_getElem _ _ hcell]
      exact small _ (List.getElem_mem hcell))
    rw [getD_slice, if_pos (by omega), List.getD_eq_getElem _ _ (by simpa using ho),
      List.getElem_map, List.getElem_range, hint, plain, index, cellFn]

theorem lawful : referencePir.Lawful := { serverLaws, clientLaws with }

end Laws

end RisePir.Upstream.ReferencePir
