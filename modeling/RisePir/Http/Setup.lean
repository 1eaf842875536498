import RisePir.Http.Bundles

set_option autoImplicit false
set_option relaxedAutoImplicit false

/-! The setup bundle's reader. Of the geometry it carries only the scheme byte is checked, and
of a segment's parameters only what the backend's constructor asserts. -/

namespace RisePir.Http.Setup

open RisePir.Lib.Digits
open RisePir.Proto.Codec
open RisePir.Proto.Varint
open RisePir.Upstream.Cuckoo
open RisePir.Upstream.Pir
open RisePir.Server.Core
open RisePir.Http.Wire
open RisePir.Http.Bundles

/-- `CuckooParams` as the wire carries them. -/
structure RawParams where
  arity : Nat
  numBuckets : Nat
  bucketSize : Nat
  fingerprintBits : Nat
  valueBits : Nat
  plaintextBits : Nat
  deriving DecidableEq, Repr

def RawParams.of (p : CuckooParams) : RawParams :=
  ⟨p.arity, p.numBuckets, p.bucketSize, p.fingerprintBits, p.valueBits, p.plaintextBits⟩

/-- What `decode_setup` returns. -/
structure RawSetup where
  params : RawParams
  backendParams : List SimpleServerParams
  hints : List Hint
  block : Nat
  deriving DecidableEq, Repr

def RawSetup.of (bundle : SetupBundle) : RawSetup :=
  ⟨.of bundle.params, bundle.backendParams, bundle.hints, bundle.block⟩

/-- `sigma > 0.0 && sigma.is_finite()`, on the bits of the `f64`. -/
def sigmaAccepted (sigma : BitVec 64) : Bool := 0 < sigma.toNat ∧ sigma.toNat < 0x7ff0000000000000

/-- The preconditions of `SimpleParams::new`. -/
def Constructible (sp : SimpleServerParams) : Prop :=
  sp.lweDim ≠ 0 ∧ (1 ≤ sp.plaintextBits ∧ sp.plaintextBits ≤ 31) ∧ sigmaAccepted sp.sigma = true

instance (sp : SimpleServerParams) : Decidable (Constructible sp) :=
  inferInstanceAs (Decidable (_ ∧ _ ∧ _))

/-- One segment's parameters. -/
def readServerParams (segment : Nat) (bytes : List UInt8) :
    Except WireError (SimpleServerParams × List UInt8) := do
  let (lweDim, bytes) ← readLe 4 bytes
  let (plaintextBits, bytes) ← readLe 4 bytes
  let (sigma, bytes) ← readLe 8 bytes
  let (seed, bytes) ← readLe 16 bytes
  let (nRows, bytes) ← readLe 4 bytes
  let (rowWidth, bytes) ← readLe 4 bytes
  let (k, bytes) ← readLe 4 bytes
  let (reshapeRows, bytes) ← readLe 4 bytes
  let (reshapeRowWidth, bytes) ← readLe 4 bytes
  let sp : SimpleServerParams := ⟨lweDim, plaintextBits, BitVec.ofNat 64 sigma, BitVec.ofNat 128 seed,
    nRows, rowWidth, k, reshapeRows, reshapeRowWidth⟩
  if Constructible sp then return (sp, bytes) else .error (.invalidSimpleParams segment)

/-- The parameters of `n` segments, from segment `segment` on. -/
def readAllParams : (segment n : Nat) → List UInt8 →
    Except WireError (List SimpleServerParams × List UInt8)
  | _, 0, bytes => .ok ([], bytes)
  | segment, n + 1, bytes => do
      let (sp, bytes) ← readServerParams segment bytes
      let (sps, bytes) ← readAllParams (segment + 1) n bytes
      return (sp :: sps, bytes)

/-- `lwe_dim * reshape_row_width`: the exact length of a segment's hint. -/
def hintLength (sp : SimpleServerParams) : Nat := sp.lweDim * sp.reshapeRowWidth

/-- The scheme byte is the arity. -/
def checkScheme (scheme : Nat) : Except WireError Unit :=
  if 2 ≤ scheme ∧ scheme ≤ 4 then .ok () else .error (.badScheme scheme)

/-- `decode_setup` up to the hints. -/
def readSetupHead (bytes : List UInt8) : Except WireError
    (RawParams × Nat × List SimpleServerParams × List UInt8) := do
  let bytes ← expectMagic SETUP_MAGIC bytes
  let (scheme, bytes) ← readLe 1 bytes
  checkScheme scheme
  let (numBuckets, bytes) ← readLe 4 bytes
  let (bucketSize, bytes) ← readLe 4 bytes
  let (fingerprintBits, bytes) ← readLe 4 bytes
  let (valueBits, bytes) ← readLe 4 bytes
  let (plaintextBits, bytes) ← readLe 4 bytes
  let (block, bytes) ← readLe 8 bytes
  let (backendParams, bytes) ← readAllParams 0 scheme bytes
  return (⟨scheme, numBuckets, bucketSize, fingerprintBits, valueBits, plaintextBits⟩, block,
    backendParams, bytes)

/-- `decode_setup`. -/
def decodeSetup (bytes : List UInt8) : Except WireError RawSetup := do
  let (params, block, backendParams, bytes) ← readSetupHead bytes
  let (vectors, bytes) ← readVectors 0 (backendParams.map hintLength) bytes
  if bytes = [] then return ⟨params, backendParams, vectors.map Hint.mk, block⟩
  else .error .trailingBytes

/-- The vectors that reading `lens` allocates, in bytes: each is as long as what is read. -/
def vectorAllocations : List Nat → List UInt8 → List Nat
  | [], _ => []
  | expected :: lens, bytes =>
      match readU32s expected bytes with
      | .error _ => []
      | .ok (words, rest) =>
          4 * words.length :: if words.length ≠ expected then [] else vectorAllocations lens rest

/-- The hints that `decode_setup` allocates, in bytes. -/
def hintAllocations (bytes : List UInt8) : List Nat :=
  match readSetupHead bytes with
  | .error _ => []
  | .ok (_, _, backendParams, bytes) => vectorAllocations (backendParams.map hintLength) bytes

section Lengths

theorem readLe_length {n x : Nat} {bytes rest : List UInt8} (h : readLe n bytes = .ok (x, rest)) :
    x < 256 ^ n ∧ rest.length + n = bytes.length := by
  rw [readLe] at h
  by_cases short : bytes.length < n
  · rw [if_pos short] at h
    cases h
  · rw [if_neg short] at h
    cases h
    have bound := leNat_lt (bytes.take n)
    have length : (bytes.take n).length = n := List.length_take_of_le (by omega)
    rw [length] at bound
    refine ⟨bound, ?_⟩
    rw [List.length_drop]
    omega

theorem readWords_length {n : Nat} {bytes rest : List UInt8} {words : List (BitVec 32)}
    (h : readWords n bytes = .ok (words, rest)) :
    words.length = n ∧ rest.length + 4 * n = bytes.length := by
  induction n generalizing bytes words with
  | zero =>
      cases h
      exact ⟨rfl, by omega⟩
  | succ n ih =>
      rw [readWords] at h
      by_cases short : bytes.length < 4
      · rw [if_pos short] at h
        cases h
      · rw [if_neg short] at h
        cases tail : readWords n (bytes.drop 4) with
        | error e =>
            rw [tail] at h
            cases h
        | ok out =>
            rw [tail] at h
            obtain ⟨ws, rest'⟩ := out
            cases h
            obtain ⟨count, left⟩ := ih tail
            rw [List.length_drop] at left
            exact ⟨by rw [List.length_cons, count], by omega⟩

theorem readU32s_length {maxLen : Nat} {bytes rest : List UInt8} {words : List (BitVec 32)}
    (h : readU32s maxLen bytes = .ok (words, rest)) : rest.length + 4 * words.length ≤ bytes.length := by
  rw [readU32s] at h
  cases prefix_ok : readUvarint bytes with
  | error e =>
      rw [prefix_ok] at h
      cases h
  | ok out =>
      obtain ⟨len, tail⟩ := out
      rw [prefix_ok] at h
      dsimp only at h
      have shorter := readUvarint_length prefix_ok
      by_cases tooMany : maxLen < len
      · rw [if_pos tooMany] at h
        cases h
      · rw [if_neg tooMany] at h
        by_cases absent : tail.length / 4 < len
        · rw [if_pos absent] at h
          cases h
        · rw [if_neg absent] at h
          obtain ⟨count, left⟩ := readWords_length h
          omega

/-- No vector is longer than what it is read from. -/
theorem vectorAllocations_le {lens : List Nat} {bytes : List UInt8} :
    ∀ n ∈ vectorAllocations lens bytes, n ≤ bytes.length := by
  induction lens generalizing bytes with
  | nil =>
      intro n hn
      cases hn
  | cons expected lens ih =>
      intro n hn
      rw [vectorAllocations] at hn
      cases hread : readU32s expected bytes with
      | error e =>
          rw [hread] at hn
          cases hn
      | ok out =>
          obtain ⟨words, rest⟩ := out
          rw [hread] at hn
          have read := readU32s_length hread
          rcases List.mem_cons.mp hn with rfl | later
          · omega
          · by_cases hlen : words.length ≠ expected
            · rw [if_pos hlen] at later
              cases later
            · rw [if_neg hlen] at later
              have := ih n later
              omega

end Lengths

section Accepted

theorem readVectors_ok {segment : Nat} {lens : List Nat} {bytes rest : List UInt8}
    {vectors : List (List (BitVec 32))} (h : readVectors segment lens bytes = .ok (vectors, rest)) :
    vectors.map List.length = lens := by
  induction lens generalizing segment bytes vectors with
  | nil =>
      cases h
      rfl
  | cons expected lens ih =>
      rw [readVectors] at h
      cases hread : readU32s expected bytes with
      | error e =>
          rw [hread] at h
          cases h
      | ok out =>
          obtain ⟨words, rest'⟩ := out
          rw [hread] at h
          dsimp only at h
          by_cases hlen : words.length ≠ expected
          · rw [if_pos hlen] at h
            cases h
          · rw [if_neg hlen] at h
            cases hmore : readVectors (segment + 1) lens rest' with
            | error e =>
                rw [hmore] at h
                cases h
            | ok more =>
                rw [hmore] at h
                obtain ⟨vs, rest''⟩ := more
                cases h
                rw [List.map_cons, ih hmore, not_not.mp hlen]

theorem readServerParams_ok {segment : Nat} {bytes rest : List UInt8} {sp : SimpleServerParams}
    (h : readServerParams segment bytes = .ok (sp, rest)) : Constructible sp := by
  rw [readServerParams] at h
  iterate 9
    rw [bind_eq_ok] at h
    obtain ⟨_, -, h⟩ := h
  dsimp only at h
  split_ifs at h with accepted
  cases h
  exact accepted

/-- What holds of every segment's parameters that are read holds of all that are. -/
theorem readAllParams_all {Q : SimpleServerParams → Prop}
    (each : ∀ {segment bytes rest sp}, readServerParams segment bytes = .ok (sp, rest) → Q sp)
    {n segment : Nat} {bytes rest : List UInt8} {sps : List SimpleServerParams}
    (h : readAllParams segment n bytes = .ok (sps, rest)) : sps.length = n ∧ ∀ sp ∈ sps, Q sp := by
  induction n generalizing segment bytes sps with
  | zero =>
      cases h
      simp
  | succ n ih =>
      rw [readAllParams, bind_eq_ok] at h
      obtain ⟨⟨sp, bytes'⟩, hsp, h⟩ := h
      rw [bind_eq_ok] at h
      obtain ⟨⟨sps', rest'⟩, hsps, h⟩ := h
      cases h
      obtain ⟨length, all⟩ := ih hsps
      refine ⟨by rw [List.length_cons, length], ?_⟩
      intro sp' hmem
      rcases List.mem_cons.mp hmem with rfl | later
      · exact each hsp
      · exact all sp' later

/-- The setup's parameters are the ones that were read. -/
theorem decodeSetup_params {bytes : List UInt8} {setup : RawSetup}
    (h : decodeSetup bytes = .ok setup) :
    ∃ n bytes' rest, readAllParams 0 n bytes' = .ok (setup.backendParams, rest) := by
  rw [decodeSetup, bind_eq_ok] at h
  obtain ⟨⟨params, block, sps, rest⟩, head, h⟩ := h
  rw [bind_eq_ok] at h
  obtain ⟨_, -, h⟩ := h
  dsimp only at h
  split_ifs at h
  cases h
  rw [readSetupHead, bind_eq_ok] at head
  iterate 8
    obtain ⟨_, -, head⟩ := head
    rw [bind_eq_ok] at head
  obtain ⟨_, -, head⟩ := head
  rw [bind_eq_ok] at head
  obtain ⟨⟨sps', _⟩, hsps, head⟩ := head
  cases head
  exact ⟨_, _, _, hsps⟩

/-- What every accepted setup satisfies. -/
structure Accepted (setup : RawSetup) : Prop where
  scheme : 2 ≤ setup.params.arity ∧ setup.params.arity ≤ 4
  numBuckets : setup.params.numBuckets < 2 ^ 32
  segments : setup.backendParams.length = setup.params.arity
  constructible : ∀ sp ∈ setup.backendParams, Constructible sp
  hints : setup.hints.map (fun hint => hint.data.length) = setup.backendParams.map hintLength

private theorem readServerParams_length {segment : Nat} {bytes rest : List UInt8}
    {sp : SimpleServerParams} (h : readServerParams segment bytes = .ok (sp, rest)) :
    rest.length ≤ bytes.length := by
  rw [readServerParams, bind_eq_ok] at h
  obtain ⟨⟨_, b₁⟩, h₁, h⟩ := h
  rw [bind_eq_ok] at h
  obtain ⟨⟨_, b₂⟩, h₂, h⟩ := h
  rw [bind_eq_ok] at h
  obtain ⟨⟨_, b₃⟩, h₃, h⟩ := h
  rw [bind_eq_ok] at h
  obtain ⟨⟨_, b₄⟩, h₄, h⟩ := h
  rw [bind_eq_ok] at h
  obtain ⟨⟨_, b₅⟩, h₅, h⟩ := h
  rw [bind_eq_ok] at h
  obtain ⟨⟨_, b₆⟩, h₆, h⟩ := h
  rw [bind_eq_ok] at h
  obtain ⟨⟨_, b₇⟩, h₇, h⟩ := h
  rw [bind_eq_ok] at h
  obtain ⟨⟨_, b₈⟩, h₈, h⟩ := h
  rw [bind_eq_ok] at h
  obtain ⟨⟨_, b₉⟩, h₉, h⟩ := h
  dsimp only at h
  split_ifs at h
  cases h
  have s₁ := (readLe_length h₁).2
  have s₂ := (readLe_length h₂).2
  have s₃ := (readLe_length h₃).2
  have s₄ := (readLe_length h₄).2
  have s₅ := (readLe_length h₅).2
  have s₆ := (readLe_length h₆).2
  have s₇ := (readLe_length h₇).2
  have s₈ := (readLe_length h₈).2
  have s₉ := (readLe_length h₉).2
  omega

theorem readAllParams_length {n segment : Nat} {bytes rest : List UInt8}
    {sps : List SimpleServerParams} (h : readAllParams segment n bytes = .ok (sps, rest)) :
    rest.length ≤ bytes.length := by
  induction n generalizing segment bytes sps with
  | zero =>
      cases h
      exact le_rfl
  | succ n ih =>
      rw [readAllParams, bind_eq_ok] at h
      obtain ⟨⟨sp, bytes'⟩, hsp, h⟩ := h
      rw [bind_eq_ok] at h
      obtain ⟨⟨sps', rest'⟩, hsps, h⟩ := h
      cases h
      exact (ih hsps).trans (readServerParams_length hsp)

/-- What follows the parameters is part of the input. -/
theorem readSetupHead_length {bytes rest : List UInt8} {params : RawParams} {block : Nat}
    {sps : List SimpleServerParams} (h : readSetupHead bytes = .ok (params, block, sps, rest)) :
    rest.length ≤ bytes.length := by
  rw [readSetupHead, bind_eq_ok] at h
  obtain ⟨b₀, h₀, h⟩ := h
  rw [bind_eq_ok] at h
  obtain ⟨⟨_, b₁⟩, h₁, h⟩ := h
  rw [bind_eq_ok] at h
  obtain ⟨_, -, h⟩ := h
  rw [bind_eq_ok] at h
  obtain ⟨⟨_, b₂⟩, h₂, h⟩ := h
  rw [bind_eq_ok] at h
  obtain ⟨⟨_, b₃⟩, h₃, h⟩ := h
  rw [bind_eq_ok] at h
  obtain ⟨⟨_, b₄⟩, h₄, h⟩ := h
  rw [bind_eq_ok] at h
  obtain ⟨⟨_, b₅⟩, h₅, h⟩ := h
  rw [bind_eq_ok] at h
  obtain ⟨⟨_, b₆⟩, h₆, h⟩ := h
  rw [bind_eq_ok] at h
  obtain ⟨⟨_, b₇⟩, h₇, h⟩ := h
  rw [bind_eq_ok] at h
  obtain ⟨⟨sps', b₈⟩, h₈, h⟩ := h
  cases h
  have s₀ : b₀.length ≤ bytes.length := by
    rw [expectMagic] at h₀
    split_ifs at h₀
    cases h₀
    rw [List.length_drop]
    omega
  have s₁ := (readLe_length h₁).2
  have s₂ := (readLe_length h₂).2
  have s₃ := (readLe_length h₃).2
  have s₄ := (readLe_length h₄).2
  have s₅ := (readLe_length h₅).2
  have s₆ := (readLe_length h₆).2
  have s₇ := (readLe_length h₇).2
  have s₈ := readAllParams_length h₈
  omega

theorem decodeSetup_ok {bytes : List UInt8} {setup : RawSetup} (h : decodeSetup bytes = .ok setup) :
    Accepted setup := by
  rw [decodeSetup, bind_eq_ok] at h
  obtain ⟨⟨params, block, sps, rest⟩, head, h⟩ := h
  rw [bind_eq_ok] at h
  obtain ⟨⟨vectors, rest'⟩, hvectors, h⟩ := h
  dsimp only at h
  split_ifs at h
  cases h
  have lens := readVectors_ok hvectors
  rw [readSetupHead, bind_eq_ok] at head
  obtain ⟨_, -, head⟩ := head
  rw [bind_eq_ok] at head
  obtain ⟨⟨scheme, _⟩, -, head⟩ := head
  rw [bind_eq_ok] at head
  obtain ⟨_, checked, head⟩ := head
  rw [bind_eq_ok] at head
  obtain ⟨⟨numBuckets, _⟩, small, head⟩ := head
  iterate 5
    rw [bind_eq_ok] at head
    obtain ⟨_, -, head⟩ := head
  rw [bind_eq_ok] at head
  obtain ⟨⟨sps', _⟩, hsps, head⟩ := head
  cases head
  obtain ⟨length, all⟩ := readAllParams_all readServerParams_ok hsps
  dsimp only [checkScheme] at checked
  split_ifs at checked with range
  refine ⟨range, (readLe_length small).1, length, all, ?_⟩
  rw [List.map_map, ← lens]
  rfl

end Accepted

section RoundTrip

/-- The parameters fit their fields on the wire and pass the reader's check. -/
structure ParamsFit (sp : SimpleServerParams) : Prop where
  constructible : Constructible sp
  lweDim : sp.lweDim < 2 ^ 32
  nRows : sp.nRows < 2 ^ 32
  rowWidth : sp.rowWidth < 2 ^ 32
  k : sp.k < 2 ^ 32
  reshapeRows : sp.reshapeRows < 2 ^ 32
  reshapeRowWidth : sp.reshapeRowWidth < 2 ^ 32

theorem readServerParams_fit {segment : Nat} {bytes rest : List UInt8} {sp : SimpleServerParams}
    (h : readServerParams segment bytes = .ok (sp, rest)) : ParamsFit sp := by
  have constructible := readServerParams_ok h
  have wide : (256 : Nat) ^ 4 = 2 ^ 32 := by decide
  rw [readServerParams, bind_eq_ok] at h
  obtain ⟨⟨lweDim, _⟩, lweDim_read, h⟩ := h
  iterate 3
    rw [bind_eq_ok] at h
    obtain ⟨_, -, h⟩ := h
  rw [bind_eq_ok] at h
  obtain ⟨⟨nRows, _⟩, nRows_read, h⟩ := h
  rw [bind_eq_ok] at h
  obtain ⟨⟨rowWidth, _⟩, rowWidth_read, h⟩ := h
  rw [bind_eq_ok] at h
  obtain ⟨⟨k, _⟩, k_read, h⟩ := h
  rw [bind_eq_ok] at h
  obtain ⟨⟨reshapeRows, _⟩, reshapeRows_read, h⟩ := h
  rw [bind_eq_ok] at h
  obtain ⟨⟨reshapeRowWidth, _⟩, reshapeRowWidth_read, h⟩ := h
  dsimp only at h
  split_ifs at h
  cases h
  exact ⟨constructible, wide ▸ (readLe_length lweDim_read).1, wide ▸ (readLe_length nRows_read).1,
    wide ▸ (readLe_length rowWidth_read).1, wide ▸ (readLe_length k_read).1,
    wide ▸ (readLe_length reshapeRows_read).1, wide ▸ (readLe_length reshapeRowWidth_read).1⟩

/-- Every field of an accepted setup's parameters fits its 32 bits. -/
theorem decodeSetup_fits {bytes : List UInt8} {setup : RawSetup} (h : decodeSetup bytes = .ok setup) :
    ∀ sp ∈ setup.backendParams, ParamsFit sp := by
  obtain ⟨n, bytes', rest, read⟩ := decodeSetup_params h
  exact (readAllParams_all readServerParams_fit read).2

theorem readServerParams_encode {sp : SimpleServerParams} (fit : ParamsFit sp) (segment : Nat)
    (rest : List UInt8) :
    readServerParams segment (encodeServerParams sp ++ rest) = .ok (sp, rest) := by
  have bits : sp.plaintextBits < 2 ^ 32 := lt_of_le_of_lt fit.constructible.2.1.2 (by decide)
  have sigma : sp.sigma.toNat < 256 ^ 8 := sp.sigma.isLt
  have seed : sp.seed.toNat < 256 ^ 16 := sp.seed.isLt
  have wide : (256 : Nat) ^ 4 = 2 ^ 32 := by decide
  rw [readServerParams, encodeServerParams]
  simp only [List.append_assoc, bind, Except.bind, readLe_append, fit.lweDim, fit.nRows, fit.rowWidth,
    fit.k, fit.reshapeRows, fit.reshapeRowWidth, bits, sigma, seed, wide, BitVec.ofNat_toNat,
    BitVec.setWidth_eq, fit.constructible, if_true, pure, Except.pure]

theorem readAllParams_encode {sps : List SimpleServerParams} (fit : ∀ sp ∈ sps, ParamsFit sp)
    (segment : Nat) (rest : List UInt8) :
    readAllParams segment sps.length (sps.flatMap encodeServerParams ++ rest) = .ok (sps, rest) := by
  induction sps generalizing segment with
  | nil => rfl
  | cons sp sps ih =>
      rw [List.length_cons, readAllParams, List.flatMap_cons, List.append_assoc]
      simp only [bind, Except.bind]
      rw [readServerParams_encode (fit sp (by simp))]
      dsimp only
      rw [ih fun sp' h => fit sp' (List.mem_cons_of_mem sp h)]
      rfl

/-- A setup that the wire can carry. -/
structure SetupFits (setup : RawSetup) : Prop where
  scheme : 2 ≤ setup.params.arity ∧ setup.params.arity ≤ 4
  numBuckets : setup.params.numBuckets < 2 ^ 32
  bucketSize : setup.params.bucketSize < 2 ^ 32
  fingerprintBits : setup.params.fingerprintBits < 2 ^ 32
  valueBits : setup.params.valueBits < 2 ^ 32
  plaintextBits : setup.params.plaintextBits < 2 ^ 32
  block : setup.block < 2 ^ 64
  segments : setup.backendParams.length = setup.params.arity
  params : ∀ sp ∈ setup.backendParams, ParamsFit sp
  hints : setup.hints.map (fun hint => hint.data.length) = setup.backendParams.map hintLength

/-- `encode_setup` of a bundle whose geometry nobody has checked. -/
def encodeRawSetup (setup : RawSetup) : List UInt8 :=
  SETUP_MAGIC ++ [UInt8.ofNat setup.params.arity] ++ leBytes 4 setup.params.numBuckets ++
    leBytes 4 setup.params.bucketSize ++ leBytes 4 setup.params.fingerprintBits ++
    leBytes 4 setup.params.valueBits ++ leBytes 4 setup.params.plaintextBits ++
    leBytes 8 setup.block ++ setup.backendParams.flatMap encodeServerParams ++
    setup.hints.flatMap fun hint => encodeU32s hint.data

/-- A setup is read back as it was written. -/
theorem decodeSetup_encode {setup : RawSetup} (fits : SetupFits setup) :
    decodeSetup (encodeRawSetup setup) = .ok setup := by
  have vectors : (setup.hints.flatMap fun hint => encodeU32s hint.data) =
      (setup.hints.map Hint.data).flatMap encodeU32s ++ [] := by
    rw [List.flatMap_map, List.append_nil]
  have lens : setup.backendParams.map hintLength = (setup.hints.map Hint.data).map List.length := by
    rw [List.map_map, ← fits.hints]
    rfl
  have word : ∀ v ∈ setup.hints.map Hint.data, v.length < 2 ^ 64 := by
    intro v hv
    have mem : v.length ∈ setup.backendParams.map hintLength := lens ▸ List.mem_map_of_mem hv
    obtain ⟨sp, hsp, hlen⟩ := List.mem_map.mp mem
    have fit := fits.params sp hsp
    rw [← hlen]
    calc sp.lweDim * sp.reshapeRowWidth < 2 ^ 32 * 2 ^ 32 :=
          Nat.mul_lt_mul_of_lt_of_le fit.lweDim (Nat.le_of_lt fit.reshapeRowWidth) (by omega)
      _ = 2 ^ 64 := by decide
  have back : (setup.hints.map Hint.data).map Hint.mk = setup.hints := by
    rw [List.map_map]
    exact List.map_id setup.hints
  have wide : (256 : Nat) ^ 4 = 2 ^ 32 := by decide
  have block : setup.block < 256 ^ 8 := fits.block
  have head : readSetupHead (encodeRawSetup setup) = .ok (setup.params, setup.block,
      setup.backendParams, setup.hints.flatMap fun hint => encodeU32s hint.data) := by
    rw [readSetupHead, encodeRawSetup]
    simp only [List.append_assoc, bind, Except.bind]
    rw [expectMagic_append (by decide), List.singleton_append]
    dsimp only
    rw [readLe_byte (by have := fits.scheme.2; omega)]
    dsimp only
    rw [checkScheme, if_pos fits.scheme]
    simp only [readLe_append, fits.numBuckets, fits.bucketSize, fits.fingerprintBits, fits.valueBits,
      fits.plaintextBits, block, wide]
    rw [← fits.segments, readAllParams_encode fits.params]
    simp only [fits.segments, pure, Except.pure]
  rw [decodeSetup]
  simp only [bind, Except.bind, head]
  rw [lens, vectors, readVectors_append word]
  simp [pure, Except.pure, back]

end RoundTrip

end RisePir.Http.Setup
