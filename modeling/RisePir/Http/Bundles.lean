import RisePir.Http.Node

set_option autoImplicit false
set_option relaxedAutoImplicit false

/-! The query and response bundles on the wire, and the readers they are decoded with. What
is left of the input stands for the position in it. -/

namespace RisePir.Http.Bundles

open RisePir.Lib.Digits
open RisePir.Proto.Varint
open RisePir.Upstream.Cuckoo
open RisePir.Upstream.Pir
open RisePir.Server.Core
open RisePir.Http.Node
open RisePir.Http.Wire

inductive WireError
  | badMagic
  | unexpectedEof
  | badScheme (byte : Nat)
  | arityMismatch (expected found : Nat)
  | segmentLengthMismatch (segment expected found : Nat)
  | invalidSimpleParams (segment : Nat)
  | trailingBytes
  | codec (err : CodecError)
  deriving DecidableEq, Repr

/-- The `Display` of a `WireError`. -/
def WireError.display : WireError → String
  | .badMagic => "bad magic: not a recognised RisePIR HTTP wire message"
  | .unexpectedEof => "unexpected end of input"
  | .badScheme b => s!"bad scheme byte: {b} (expected 2, 3, or 4)"
  | .arityMismatch expected found => s!"arity mismatch: expected {expected} segments, found {found}"
  | .segmentLengthMismatch segment expected found =>
      s!"segment {segment}: expected exactly {expected} u32 cells, found {found}"
  | .invalidSimpleParams segment =>
      s!"segment {segment}: lwe_dim/plaintext_bits/sigma out of range for SimplePIR"
  | .trailingBytes => "trailing bytes after a complete message"
  | .codec e => e.display

/-- `metric_class`: the variant's name. -/
def WireError.metricClass : WireError → String
  | .badMagic => "BadMagic"
  | .unexpectedEof => "UnexpectedEof"
  | .badScheme _ => "BadScheme"
  | .arityMismatch _ _ => "ArityMismatch"
  | .segmentLengthMismatch _ _ _ => "SegmentLengthMismatch"
  | .invalidSimpleParams _ => "InvalidSimpleParams"
  | .trailingBytes => "TrailingBytes"
  | .codec _ => "Codec"

/-- `expect_magic`. -/
def expectMagic (magic bytes : List UInt8) : Except WireError (List UInt8) :=
  if bytes.take 4 = magic then .ok (bytes.drop 4) else .error .badMagic

/-- `read_u8`, `read_u32`, `read_u64`, `read_f64` and `read_seed`: `n` bytes, little-endian. -/
def readLe (n : Nat) (bytes : List UInt8) : Except WireError (Nat × List UInt8) :=
  if bytes.length < n then .error .unexpectedEof else .ok (leNat (bytes.take n), bytes.drop n)

def readWords : Nat → List UInt8 → Except CodecError (List (BitVec 32) × List UInt8)
  | 0, bytes => .ok ([], bytes)
  | n + 1, bytes =>
      if bytes.length < 4 then .error .unexpectedEof
      else do
        let (words, rest) ← readWords n (bytes.drop 4)
        return (BitVec.ofNat 32 (leNat (bytes.take 4)) :: words, rest)

/-- `read_u32s`: the declared length is capped by `maxLen` and by the bytes that remain. -/
def readU32s (maxLen : Nat) (bytes : List UInt8) : Except CodecError (List (BitVec 32) × List UInt8) :=
  match readUvarint bytes with
  | .error e => .error e
  | .ok (len, rest) =>
      if maxLen < len then .error .countExceedsInput
      else if rest.length / 4 < len then .error .countExceedsInput
      else readWords len rest

/-- One vector per expected length, each of exactly that length. -/
def readVectors : Nat → List Nat → List UInt8 →
    Except WireError (List (List (BitVec 32)) × List UInt8)
  | _, [], bytes => .ok ([], bytes)
  | segment, expected :: lens, bytes =>
      match readU32s expected bytes with
      | .error e => .error (.codec e)
      | .ok (words, rest) =>
          if words.length ≠ expected then
            .error (.segmentLengthMismatch segment expected words.length)
          else
            match readVectors (segment + 1) lens rest with
            | .error e => .error e
            | .ok (vectors, rest) => .ok (words :: vectors, rest)

/-- `b"RPQ1"`. -/
def QUERY_MAGIC : List UInt8 := [0x52, 0x50, 0x51, 0x31]

/-- `b"RPR1"`. -/
def RESPONSE_MAGIC : List UInt8 := [0x52, 0x50, 0x52, 0x31]

/-- `encode_query_bundle`. -/
def encodeQueryBundle (queries : List Query) : List UInt8 :=
  QUERY_MAGIC ++ [UInt8.ofNat queries.length] ++ queries.flatMap fun q => encodeU32s q.b

/-- The segment count of a bundle, against the expected one. -/
def checkArity (arity found lens : Nat) : Except WireError Unit :=
  if found ≠ arity then .error (.arityMismatch arity found)
  else if lens ≠ arity then .error (.arityMismatch arity lens)
  else .ok ()

/-- `decode_query_bundle`. -/
def decodeQueryBundle (bytes : List UInt8) (arity : Nat) (lens : List Nat) :
    Except WireError (List Query) := do
  let bytes ← expectMagic QUERY_MAGIC bytes
  let (found, bytes) ← readLe 1 bytes
  checkArity arity found lens.length
  let (vectors, bytes) ← readVectors 0 lens bytes
  if bytes = [] then return vectors.map Query.mk else .error .trailingBytes

/-- `encode_response_bundle`. -/
def encodeResponseBundle (responses : List Response) (head : Nat) : List UInt8 :=
  RESPONSE_MAGIC ++ [UInt8.ofNat responses.length] ++ leBytes 8 head ++
    responses.flatMap fun r => encodeU32s r.a

/-- `decode_response_bundle`. -/
def decodeResponseBundle (bytes : List UInt8) (lens : List Nat) (arity : Nat) :
    Except WireError (List Response × Nat) := do
  let bytes ← expectMagic RESPONSE_MAGIC bytes
  let (found, bytes) ← readLe 1 bytes
  checkArity arity found lens.length
  let (head, bytes) ← readLe 8 bytes
  let (vectors, bytes) ← readVectors 0 lens bytes
  if bytes = [] then return (vectors.map Response.mk, head) else .error .trailingBytes

/-- `POST /answer`: the body decoded against the deployment's lengths, answered, encoded. -/
def answerBody {p : CuckooParams} {C : SegmentedCuckoo p} {B : PirBackend} (node : NodeState C B)
    (presented : Option String) (body : List UInt8) : Except Refusal (List UInt8) :=
  match node.epochGate presented with
  | some refusal => .error refusal
  | none =>
      match decodeQueryBundle body p.arity
          (node.server.segments.map fun seg => seg.params.reshapeRows) with
      | .error e => .error (.classed 400 e.display e.metricClass)
      | .ok queries =>
          match node.answer presented queries with
          | .error refusal => .error refusal
          | .ok (responses, head) => .ok (encodeResponseBundle responses head)

section RoundTrip

theorem expectMagic_append {magic rest : List UInt8} (h : magic.length = 4) :
    expectMagic magic (magic ++ rest) = .ok rest := by
  rw [expectMagic, if_pos (List.take_left' h), List.drop_left' h]

theorem readLe_append {n x : Nat} (h : x < 256 ^ n) (rest : List UInt8) :
    readLe n (leBytes n x ++ rest) = .ok (x, rest) := by
  have length : (leBytes n x).length = n := leBytes_length n x
  rw [readLe, if_neg (by rw [List.length_append]; omega), List.take_left' length,
    List.drop_left' length, leNat_leBytes_of_lt h]

theorem readLe_byte {x : Nat} (h : x < 256) (rest : List UInt8) :
    readLe 1 (UInt8.ofNat x :: rest) = .ok (x, rest) := by
  have one : leBytes 1 x = [UInt8.ofNat x] := by simp [leBytes, digits, Nat.mod_eq_of_lt h]
  have read := readLe_append (n := 1) (x := x) (by omega) rest
  rwa [one, List.singleton_append] at read

theorem readWords_append (words : List (BitVec 32)) (rest : List UInt8) :
    readWords words.length ((words.flatMap fun v => leBytes 4 v.toNat) ++ rest) = .ok (words, rest) := by
  induction words with
  | nil => rfl
  | cons v words ih =>
      have length : (leBytes 4 v.toNat).length = 4 := leBytes_length 4 _
      have small : v.toNat < 256 ^ 4 := v.isLt
      rw [List.length_cons, readWords, List.flatMap_cons, List.append_assoc,
        if_neg (by rw [List.length_append]; omega), List.drop_left' length, List.take_left' length, ih,
        leNat_leBytes_of_lt small]
      simp [pure, Except.pure, bind, Except.bind]

theorem words_length (words : List (BitVec 32)) :
    (words.flatMap fun v => leBytes 4 v.toNat).length = 4 * words.length := by
  induction words with
  | nil => rfl
  | cons v words ih =>
      rw [List.flatMap_cons, List.length_append, ih, leBytes_length, List.length_cons]
      omega

theorem readU32s_append {words : List (BitVec 32)} (word : words.length < 2 ^ 64) {maxLen : Nat}
    (le : words.length ≤ maxLen) (rest : List UInt8) :
    readU32s maxLen (encodeU32s words ++ rest) = .ok (words, rest) := by
  rw [readU32s, encodeU32s, List.append_assoc, readUvarint_writeUvarint word]
  dsimp only
  rw [if_neg (by omega), if_neg (by rw [List.length_append, words_length]; omega), readWords_append]

theorem readVectors_append {vectors : List (List (BitVec 32))}
    (word : ∀ v ∈ vectors, v.length < 2 ^ 64) (segment : Nat) (rest : List UInt8) :
    readVectors segment (vectors.map List.length) (vectors.flatMap encodeU32s ++ rest) =
      .ok (vectors, rest) := by
  induction vectors generalizing segment with
  | nil => rfl
  | cons v vectors ih =>
      rw [List.map_cons, readVectors, List.flatMap_cons, List.append_assoc,
        readU32s_append (word v (by simp)) (Nat.le_refl _)]
      dsimp only
      rw [if_neg (by simp), ih fun w hw => word w (List.mem_cons_of_mem v hw)]

/-- Vectors of the expected lengths are read back, and nothing is left. -/
private theorem readVectors_lengths (vectors : List (List (BitVec 32)))
    (word : ∀ v ∈ vectors, v.length < 2 ^ 64) :
    readVectors 0 (vectors.map List.length) (vectors.flatMap encodeU32s) = .ok (vectors, []) := by
  have read := readVectors_append word 0 []
  rwa [List.append_nil] at read

/-- A query bundle of the expected lengths is read back as it was written. -/
theorem decodeQueryBundle_encode {queries : List Query} {arity : Nat} (few : arity < 256)
    (count : queries.length = arity) (lengths : ∀ q ∈ queries, q.b.length < 2 ^ 64) :
    decodeQueryBundle (encodeQueryBundle queries) arity (queries.map fun q => q.b.length) =
      .ok queries := by
  have vectors : queries.flatMap (fun q => encodeU32s q.b) =
      (queries.map Query.b).flatMap encodeU32s := by rw [List.flatMap_map]
  have lens : queries.map (fun q => q.b.length) = (queries.map Query.b).map List.length := by
    rw [List.map_map]
    rfl
  have back : (queries.map Query.b).map Query.mk = queries := by
    rw [List.map_map]
    exact List.map_id queries
  have read := readVectors_lengths (queries.map Query.b) fun v hv => by
    obtain ⟨q, hq, rfl⟩ := List.mem_map.mp hv
    exact lengths q hq
  rw [decodeQueryBundle, encodeQueryBundle, List.append_assoc, expectMagic_append rfl,
    List.singleton_append]
  simp only [bind, Except.bind]
  rw [readLe_byte (by omega)]
  dsimp only
  rw [checkArity, if_neg (by simp [count]), if_neg (by simp [count])]
  dsimp only
  rw [vectors, lens, read]
  simp [pure, Except.pure, back]

/-- A response bundle of the expected lengths is read back as it was written. -/
theorem decodeResponseBundle_encode {responses : List Response} {head arity : Nat}
    (few : arity < 256) (count : responses.length = arity) (word : head < 2 ^ 64)
    (lengths : ∀ r ∈ responses, r.a.length < 2 ^ 64) :
    decodeResponseBundle (encodeResponseBundle responses head)
      (responses.map fun r => r.a.length) arity = .ok (responses, head) := by
  have vectors : responses.flatMap (fun r => encodeU32s r.a) =
      (responses.map Response.a).flatMap encodeU32s := by rw [List.flatMap_map]
  have lens : responses.map (fun r => r.a.length) = (responses.map Response.a).map List.length := by
    rw [List.map_map]
    rfl
  have back : (responses.map Response.a).map Response.mk = responses := by
    rw [List.map_map]
    exact List.map_id responses
  have read := readVectors_lengths (responses.map Response.a) fun v hv => by
    obtain ⟨r, hr, rfl⟩ := List.mem_map.mp hv
    exact lengths r hr
  rw [decodeResponseBundle, encodeResponseBundle, List.append_assoc, List.append_assoc,
    expectMagic_append rfl, List.singleton_append]
  simp only [bind, Except.bind]
  rw [readLe_byte (by omega)]
  dsimp only
  rw [checkArity, if_neg (by simp [count]), if_neg (by simp [count])]
  dsimp only
  rw [readLe_append word, vectors, lens]
  dsimp only
  rw [read]
  simp [pure, Except.pure, back]

/-- Whatever lengths the reader expects, the block it reads is the one that was written. -/
theorem decodeResponseBundle_block {responses out : List Response} {head block arity : Nat}
    {lens : List Nat} (word : head < 2 ^ 64)
    (decoded : decodeResponseBundle (encodeResponseBundle responses head) lens arity =
      .ok (out, block)) : block = head := by
  rw [decodeResponseBundle, encodeResponseBundle, List.append_assoc, List.append_assoc,
    expectMagic_append rfl, List.singleton_append] at decoded
  have byte : UInt8.ofNat responses.length = UInt8.ofNat (responses.length % 256) := by
    apply UInt8.toNat_inj.mp
    simp
  rw [byte] at decoded
  simp only [bind, Except.bind] at decoded
  rw [readLe_byte (Nat.mod_lt _ (by omega))] at decoded
  dsimp only at decoded
  cases harity : checkArity arity (responses.length % 256) lens.length with
  | error e =>
      rw [harity] at decoded
      cases decoded
  | ok u =>
      rw [harity, readLe_append word] at decoded
      dsimp only at decoded
      cases hread : readVectors 0 lens (responses.flatMap fun r => encodeU32s r.a) with
      | error e =>
          rw [hread] at decoded
          cases decoded
      | ok read =>
          rw [hread] at decoded
          obtain ⟨vectors, rest⟩ := read
          dsimp only at decoded
          by_cases hrest : rest = []
          · rw [if_pos hrest] at decoded
            cases decoded
            rfl
          · rw [if_neg hrest] at decoded
            cases decoded

end RoundTrip

/-- A node answers only under its own epoch, and at its own block. -/
theorem answerBody_ok {p : CuckooParams} {C : SegmentedCuckoo p} {B : PirBackend}
    {node : NodeState C B} {presented : String} {body out : List UInt8}
    (h : answerBody node (some presented) body = .ok out) : presented = node.epoch ∧
      ∃ queries responses, decodeQueryBundle body p.arity
          (node.server.segments.map fun seg => seg.params.reshapeRows) = .ok queries ∧
        node.server.answer queries = .ok (responses, node.server.block) ∧
        out = encodeResponseBundle responses node.server.block := by
  unfold answerBody NodeState.epochGate at h
  by_cases hepoch : presented = node.epoch
  · refine ⟨hepoch, ?_⟩
    dsimp only at h
    rw [if_pos hepoch] at h
    dsimp only at h
    cases hq : decodeQueryBundle body p.arity
        (node.server.segments.map fun seg => seg.params.reshapeRows) with
    | error e =>
        rw [hq] at h
        cases h
    | ok queries =>
        rw [hq] at h
        unfold NodeState.answer NodeState.epochGate at h
        dsimp only at h
        rw [if_pos hepoch] at h
        dsimp only at h
        cases ha : node.server.answer queries with
        | error e =>
            rw [ha] at h
            cases h
        | ok answered =>
            obtain ⟨responses, block⟩ := answered
            rw [ha] at h
            cases h
            have head : block = node.server.block := by
              rw [RisePirServer.answer] at ha
              by_cases hcount : queries.length ≠ p.arity
              · rw [if_pos hcount] at ha
                cases ha
              · rw [if_neg hcount] at ha
                cases ha
                rfl
            rw [head] at ha ⊢
            exact ⟨queries, responses, rfl, ha, rfl⟩
  · dsimp only at h
    rw [if_neg hepoch] at h
    cases h

end RisePir.Http.Bundles
