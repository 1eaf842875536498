import RisePir.Http.Setup
import RisePir.Proto.Decoding

set_option autoImplicit false
set_option relaxedAutoImplicit false

/-! The three bundles on the wire: what is written is read back, and what is read was written so,
but for the length prefixes, which need not be the shortest. -/

namespace RisePir.Http.Formats

open RisePir.Lib.Digits
open RisePir.Proto.Codec
open RisePir.Proto.Decoding
open RisePir.Proto.Varint
open RisePir.Upstream.Pir
open RisePir.Server.Core
open RisePir.Http.Wire
open RisePir.Http.Bundles
open RisePir.Http.Setup

/-- The loop of the encoder's own `uvarint_len`. A `u64` takes at most nine steps. -/
def uvarintSteps : Nat → Nat → Nat → Nat
  | 0, _, n => n
  | steps + 1, value, n => if 0x80 ≤ value then uvarintSteps steps (value >>> 7) (n + 1) else n

def prefixLen (value : Nat) : Nat := uvarintSteps 9 value 1

/-- The sum in `setup_encoded_len`. -/
def setupTotal (setup : RawSetup) : Nat :=
  setup.hints.foldl (fun total hint => total + (prefixLen hint.data.length + hint.data.length * 4))
    (33 + 52 * setup.backendParams.length)

/-- `setup_encoded_len`; `none` where the length leaves 64 bits. -/
def setupEncodedLen (setup : RawSetup) : Option Nat :=
  if setupTotal setup < 2 ^ 64 then some (setupTotal setup) else none

/-- What `encode_setup` writes before the hints. -/
def setupHead (setup : RawSetup) : List UInt8 :=
  SETUP_MAGIC ++ [UInt8.ofNat setup.params.arity] ++ leBytes 4 setup.params.numBuckets ++
    leBytes 4 setup.params.bucketSize ++ leBytes 4 setup.params.fingerprintBits ++
    leBytes 4 setup.params.valueBits ++ leBytes 4 setup.params.plaintextBits ++
    leBytes 8 setup.block ++ setup.backendParams.flatMap encodeServerParams

/-- The vectors one behind the other, each behind some varint of its length. -/
inductive Prefixed : List (List (BitVec 32)) → List UInt8 → Prop
  | nil : Prefixed [] []
  | cons {v : List (BitVec 32)} {vs : List (List (BitVec 32))} {lead bytes : List UInt8}
      (declares : readUvarint lead = .ok (v.length, [])) (rest : Prefixed vs bytes) :
      Prefixed (v :: vs) (lead ++ (v.flatMap fun w => leBytes 4 w.toNat) ++ bytes)

section Length

theorem uvarintSteps_eq (steps value n : Nat) :
    uvarintSteps steps value n + 1 = n + uvarintGroups (steps + 1) value := by
  induction steps generalizing value n with
  | zero =>
      rw [uvarintSteps, uvarintGroups, uvarintGroups]
      split <;> omega
  | succ steps ih =>
      rw [uvarintSteps, uvarintGroups]
      by_cases more : 0x80 ≤ value
      · have step := ih (value >>> 7) (n + 1)
        rw [if_pos more, if_neg (by omega)]
        omega
      · rw [if_neg more, if_pos (by omega)]

/-- Both copies of `uvarint_len` agree. -/
theorem prefixLen_eq (value : Nat) : prefixLen value = uvarintLen value := by
  have steps : uvarintSteps 9 value 1 + 1 = 1 + uvarintGroups 10 value := uvarintSteps_eq 9 value 1
  rw [prefixLen, uvarintLen]
  omega

theorem encodeU32s_length (words : List (BitVec 32)) :
    (encodeU32s words).length = prefixLen words.length + words.length * 4 := by
  rw [encodeU32s, List.length_append, writeUvarint_length, words_length, prefixLen_eq]
  omega

theorem serverParams_length (sps : List SimpleServerParams) :
    (sps.flatMap encodeServerParams).length = 52 * sps.length := by
  induction sps with
  | nil => rfl
  | cons sp sps ih =>
      rw [List.flatMap_cons, List.length_append, ih, encodeServerParams]
      simp only [List.length_append, leBytes_length, List.length_cons]
      omega

theorem encodeRawSetup_eq (setup : RawSetup) : encodeRawSetup setup =
    setupHead setup ++ setup.hints.flatMap fun hint => encodeU32s hint.data := rfl

/-- The length computed before a setup is encoded is the length it takes. -/
theorem setupTotal_eq (setup : RawSetup) : setupTotal setup = (encodeRawSetup setup).length := by
  have hints : ∀ (hints : List Hint) (total : Nat), hints.foldl (fun total hint =>
      total + (prefixLen hint.data.length + hint.data.length * 4)) total =
        total + (hints.flatMap fun hint => encodeU32s hint.data).length := by
    intro hints
    induction hints with
    | nil => exact fun total => rfl
    | cons hint hints ih =>
        intro total
        rw [List.foldl_cons, ih, List.flatMap_cons, List.length_append, encodeU32s_length]
        omega
  have head : (setupHead setup).length = 33 + 52 * setup.backendParams.length := by
    simp only [setupHead, List.length_append, leBytes_length, serverParams_length, List.length_singleton]
    rw [show SETUP_MAGIC.length = 4 from rfl]
  rw [setupTotal, hints, encodeRawSetup_eq, List.length_append, head]

end Length

section Reading

theorem expectMagic_ok {magic bytes rest : List UInt8} (h : expectMagic magic bytes = .ok rest) : bytes = magic ++ rest := by
  rw [expectMagic] at h
  split_ifs at h with begins
  cases h
  rw [← begins, List.take_append_drop]

theorem readLe_ok {n x : Nat} {bytes rest : List UInt8} (h : readLe n bytes = .ok (x, rest)) :
    bytes = leBytes n x ++ rest ∧ x < 256 ^ n := by
  have bound := (readLe_length h).1
  rw [readLe] at h
  split_ifs at h with short
  cases h
  have length : (bytes.take n).length = n := List.length_take_of_le (by omega)
  have round := leBytes_leNat (bytes.take n)
  rw [length] at round
  exact ⟨by rw [round, List.take_append_drop], bound⟩

private theorem readGroups_lead {bytes rest : List UInt8} {result shift value : Nat}
    (h : readGroups result shift bytes = .ok (value, rest)) :
    ∃ lead, bytes = lead ++ rest ∧ readGroups result shift lead = .ok (value, []) := by
  induction bytes generalizing result shift with
  | nil =>
      rw [readGroups] at h
      split_ifs at h
  | cons byte bytes ih =>
      rw [readGroups] at h
      dsimp only at h
      split_ifs at h with wide fell ends
      · cases h
        refine ⟨[byte], rfl, ?_⟩
        rw [readGroups, if_neg wide]
        dsimp only
        rw [if_neg fell, if_pos ends]
      · obtain ⟨lead, rfl, read⟩ := ih h
        refine ⟨byte :: lead, rfl, ?_⟩
        rw [readGroups, if_neg wide]
        dsimp only
        rw [if_neg fell, if_neg ends]
        exact read

/-- A varint is read from the bytes it takes alone. -/
theorem readUvarint_lead {bytes rest : List UInt8} {value : Nat}
    (h : readUvarint bytes = .ok (value, rest)) :
    ∃ lead, bytes = lead ++ rest ∧ readUvarint lead = .ok (value, []) := readGroups_lead h

theorem readWords_ok {n : Nat} {bytes rest : List UInt8} {words : List (BitVec 32)}
    (h : readWords n bytes = .ok (words, rest)) :
    bytes = (words.flatMap fun w => leBytes 4 w.toNat) ++ rest := by
  induction n generalizing bytes words with
  | zero =>
      cases h
      rfl
  | succ n ih =>
      rw [readWords] at h
      split_ifs at h with short
      rw [bind_eq_ok] at h
      obtain ⟨⟨words', rest'⟩, tail, h⟩ := h
      cases h
      have length : (bytes.take 4).length = 4 := List.length_take_of_le (by omega)
      have round := leBytes_leNat (bytes.take 4)
      have small := leNat_lt (bytes.take 4)
      rw [length] at round small
      have word : (BitVec.ofNat 32 (leNat (bytes.take 4))).toNat = leNat (bytes.take 4) := by
        rw [BitVec.toNat_ofNat]
        exact Nat.mod_eq_of_lt small
      rw [List.flatMap_cons, word, round, List.append_assoc, ← ih tail, List.take_append_drop]

theorem readU32s_ok {maxLen : Nat} {bytes rest : List UInt8} {words : List (BitVec 32)}
    (h : readU32s maxLen bytes = .ok (words, rest)) :
    ∃ lead, readUvarint lead = .ok (words.length, []) ∧
      bytes = lead ++ (words.flatMap fun w => leBytes 4 w.toNat) ++ rest := by
  rw [readU32s] at h
  cases hlead : readUvarint bytes with
  | error e =>
      rw [hlead] at h
      cases h
  | ok out =>
      obtain ⟨len, tail⟩ := out
      rw [hlead] at h
      dsimp only at h
      split_ifs at h with tooMany absent
      obtain ⟨lead, rfl, declares⟩ := readUvarint_lead hlead
      refine ⟨lead, ?_, ?_⟩
      · rw [declares, (readWords_length h).1]
      · rw [readWords_ok h, List.append_assoc]

theorem readVectors_front {segment : Nat} {lens : List Nat} {bytes rest : List UInt8}
    {vectors : List (List (BitVec 32))} (h : readVectors segment lens bytes = .ok (vectors, rest)) :
    ∃ body, bytes = body ++ rest ∧ Prefixed vectors body := by
  induction lens generalizing segment bytes vectors with
  | nil =>
      cases h
      exact ⟨[], rfl, .nil⟩
  | cons expected lens ih =>
      rw [readVectors] at h
      cases hread : readU32s expected bytes with
      | error e =>
          rw [hread] at h
          cases h
      | ok out =>
          obtain ⟨words, rest'⟩ := out
          rw [hread] at h
          dsimp only at h
          split_ifs at h with hlen
          cases hmore : readVectors (segment + 1) lens rest' with
          | error e =>
              rw [hmore] at h
              cases h
          | ok more =>
              obtain ⟨vs, rest''⟩ := more
              rw [hmore] at h
              cases h
              obtain ⟨lead, declares, rfl⟩ := readU32s_ok hread
              obtain ⟨body, rfl, prefixed⟩ := ih hmore
              exact ⟨_, by simp only [List.append_assoc], .cons declares prefixed⟩

theorem readServerParams_front {segment : Nat} {bytes rest : List UInt8} {sp : SimpleServerParams}
    (h : readServerParams segment bytes = .ok (sp, rest)) : bytes = encodeServerParams sp ++ rest := by
  rw [readServerParams, bind_eq_ok] at h
  obtain ⟨⟨lweDim, b₁⟩, h₁, h⟩ := h
  rw [bind_eq_ok] at h
  obtain ⟨⟨plaintextBits, b₂⟩, h₂, h⟩ := h
  rw [bind_eq_ok] at h
  obtain ⟨⟨sigma, b₃⟩, h₃, h⟩ := h
  rw [bind_eq_ok] at h
  obtain ⟨⟨seed, b₄⟩, h₄, h⟩ := h
  rw [bind_eq_ok] at h
  obtain ⟨⟨nRows, b₅⟩, h₅, h⟩ := h
  rw [bind_eq_ok] at h
  obtain ⟨⟨rowWidth, b₆⟩, h₆, h⟩ := h
  rw [bind_eq_ok] at h
  obtain ⟨⟨k, b₇⟩, h₇, h⟩ := h
  rw [bind_eq_ok] at h
  obtain ⟨⟨reshapeRows, b₈⟩, h₈, h⟩ := h
  rw [bind_eq_ok] at h
  obtain ⟨⟨reshapeRowWidth, b₉⟩, h₉, h⟩ := h
  dsimp only at h
  split_ifs at h
  cases h
  obtain ⟨rfl, -⟩ := readLe_ok h₁
  obtain ⟨rfl, -⟩ := readLe_ok h₂
  obtain ⟨rfl, sigmaWord⟩ := readLe_ok h₃
  obtain ⟨rfl, seedWord⟩ := readLe_ok h₄
  obtain ⟨rfl, -⟩ := readLe_ok h₅
  obtain ⟨rfl, -⟩ := readLe_ok h₆
  obtain ⟨rfl, -⟩ := readLe_ok h₇
  obtain ⟨rfl, -⟩ := readLe_ok h₈
  obtain ⟨rfl, -⟩ := readLe_ok h₉
  have sigmaBits : (BitVec.ofNat 64 sigma).toNat = sigma := by
    rw [BitVec.toNat_ofNat]
    exact Nat.mod_eq_of_lt sigmaWord
  have seedBits : (BitVec.ofNat 128 seed).toNat = seed := by
    rw [BitVec.toNat_ofNat]
    exact Nat.mod_eq_of_lt seedWord
  simp only [encodeServerParams, sigmaBits, seedBits, List.append_assoc]

theorem readAllParams_front {n segment : Nat} {bytes rest : List UInt8}
    {sps : List SimpleServerParams} (h : readAllParams segment n bytes = .ok (sps, rest)) :
    bytes = sps.flatMap encodeServerParams ++ rest := by
  induction n generalizing segment bytes sps with
  | zero =>
      cases h
      rfl
  | succ n ih =>
      rw [readAllParams, bind_eq_ok] at h
      obtain ⟨⟨sp, bytes'⟩, hsp, h⟩ := h
      rw [bind_eq_ok] at h
      obtain ⟨⟨sps', rest'⟩, hsps, h⟩ := h
      cases h
      rw [readServerParams_front hsp, ih hsps, List.flatMap_cons, List.append_assoc]

/-- The one byte of a segment count. -/
theorem readLe_one {x : Nat} {bytes rest : List UInt8} (h : readLe 1 bytes = .ok (x, rest)) :
    bytes = UInt8.ofNat x :: rest ∧ x < 256 := by
  obtain ⟨front, small⟩ := readLe_ok h
  have one : leBytes 1 x = [UInt8.ofNat x] := by
    simp [leBytes, digits, Nat.mod_eq_of_lt (show x < 256 by simpa using small)]
  rw [one, List.singleton_append] at front
  exact ⟨front, by simpa using small⟩

end Reading

section Accepting

/-- An accepted setup is its head and its hints, each behind some varint of its length. -/
theorem decodeSetup_front {bytes : List UInt8} {setup : RawSetup}
    (h : decodeSetup bytes = .ok setup) :
    ∃ body, bytes = setupHead setup ++ body ∧ Prefixed (setup.hints.map Hint.data) body := by
  rw [decodeSetup, bind_eq_ok] at h
  obtain ⟨⟨params, block, sps, rest⟩, head, h⟩ := h
  rw [bind_eq_ok] at h
  obtain ⟨⟨vectors, rest'⟩, hvectors, h⟩ := h
  dsimp only at h
  split_ifs at h with done
  cases h
  obtain ⟨body, rfl, prefixed⟩ := readVectors_front hvectors
  have back : (vectors.map Hint.mk).map Hint.data = vectors := by
    rw [List.map_map]
    exact List.map_id vectors
  refine ⟨body, ?_, by rw [back]; exact prefixed⟩
  rw [done, List.append_nil] at head
  rw [readSetupHead, bind_eq_ok] at head
  obtain ⟨b₀, h₀, head⟩ := head
  rw [bind_eq_ok] at head
  obtain ⟨⟨scheme, b₁⟩, h₁, head⟩ := head
  rw [bind_eq_ok] at head
  obtain ⟨u, -, head⟩ := head
  rw [bind_eq_ok] at head
  obtain ⟨⟨numBuckets, b₂⟩, h₂, head⟩ := head
  rw [bind_eq_ok] at head
  obtain ⟨⟨bucketSize, b₃⟩, h₃, head⟩ := head
  rw [bind_eq_ok] at head
  obtain ⟨⟨fingerprintBits, b₄⟩, h₄, head⟩ := head
  rw [bind_eq_ok] at head
  obtain ⟨⟨valueBits, b₅⟩, h₅, head⟩ := head
  rw [bind_eq_ok] at head
  obtain ⟨⟨plaintextBits, b₆⟩, h₆, head⟩ := head
  rw [bind_eq_ok] at head
  obtain ⟨⟨number, b₇⟩, h₇, head⟩ := head
  rw [bind_eq_ok] at head
  obtain ⟨⟨sps', b₈⟩, h₈, head⟩ := head
  cases head
  rw [expectMagic_ok h₀, (readLe_one h₁).1, (readLe_ok h₂).1, (readLe_ok h₃).1, (readLe_ok h₄).1,
    (readLe_ok h₅).1, (readLe_ok h₆).1, (readLe_ok h₇).1, readAllParams_front h₈]
  simp only [setupHead, List.append_assoc, List.cons_append, List.nil_append]

theorem checkArity_ok {arity found lens : Nat} (h : checkArity arity found lens = .ok ()) :
    found = arity ∧ lens = arity := by
  rw [checkArity] at h
  split_ifs at h with differs count
  exact ⟨not_not.mp differs, not_not.mp count⟩

theorem decodeQueryBundle_front {bytes : List UInt8} {arity : Nat} {lens : List Nat}
    {queries : List Query} (h : decodeQueryBundle bytes arity lens = .ok queries) :
    queries.map (fun q => q.b.length) = lens ∧ queries.length = arity ∧
      ∃ body, bytes = QUERY_MAGIC ++ [UInt8.ofNat queries.length] ++ body ∧
        Prefixed (queries.map Query.b) body := by
  rw [decodeQueryBundle, bind_eq_ok] at h
  obtain ⟨b₀, h₀, h⟩ := h
  rw [bind_eq_ok] at h
  obtain ⟨⟨found, b₁⟩, h₁, h⟩ := h
  rw [bind_eq_ok] at h
  obtain ⟨u, h₂, h⟩ := h
  rw [bind_eq_ok] at h
  obtain ⟨⟨vectors, rest⟩, hvectors, h⟩ := h
  dsimp only at h
  split_ifs at h with done
  cases h
  obtain ⟨rfl, count⟩ := checkArity_ok h₂
  obtain ⟨body, rfl, prefixed⟩ := readVectors_front hvectors
  have lengths := readVectors_ok hvectors
  have number : vectors.length = found := by
    rw [← count, ← lengths, List.length_map]
  have back : (vectors.map Query.mk).map Query.b = vectors := by
    rw [List.map_map]
    exact List.map_id vectors
  refine ⟨by rw [List.map_map]; exact lengths, by rw [List.length_map, number], body, ?_,
    by rw [back]; exact prefixed⟩
  rw [expectMagic_ok h₀, (readLe_one h₁).1, done, List.append_nil, List.length_map, number]
  simp only [List.append_assoc, List.cons_append, List.nil_append]

theorem decodeResponseBundle_front {bytes : List UInt8} {arity head : Nat} {lens : List Nat}
    {responses : List Response} (h : decodeResponseBundle bytes lens arity = .ok (responses, head)) :
    responses.map (fun r => r.a.length) = lens ∧ responses.length = arity ∧
      ∃ body, bytes = RESPONSE_MAGIC ++ [UInt8.ofNat responses.length] ++ leBytes 8 head ++ body ∧
        Prefixed (responses.map Response.a) body := by
  rw [decodeResponseBundle, bind_eq_ok] at h
  obtain ⟨b₀, h₀, h⟩ := h
  rw [bind_eq_ok] at h
  obtain ⟨⟨found, b₁⟩, h₁, h⟩ := h
  rw [bind_eq_ok] at h
  obtain ⟨u, h₂, h⟩ := h
  rw [bind_eq_ok] at h
  obtain ⟨⟨block, b₃⟩, h₃, h⟩ := h
  rw [bind_eq_ok] at h
  obtain ⟨⟨vectors, rest⟩, hvectors, h⟩ := h
  dsimp only at h
  split_ifs at h with done
  cases h
  obtain ⟨rfl, count⟩ := checkArity_ok h₂
  obtain ⟨body, rfl, prefixed⟩ := readVectors_front hvectors
  have lengths := readVectors_ok hvectors
  have number : vectors.length = found := by
    rw [← count, ← lengths, List.length_map]
  have back : (vectors.map Response.mk).map Response.a = vectors := by
    rw [List.map_map]
    exact List.map_id vectors
  refine ⟨by rw [List.map_map]; exact lengths, by rw [List.length_map, number], body, ?_,
    by rw [back]; exact prefixed⟩
  rw [expectMagic_ok h₀, (readLe_one h₁).1, (readLe_ok h₃).1, done, List.append_nil,
    List.length_map, number]
  simp only [List.append_assoc, List.cons_append, List.nil_append]

end Accepting

/-- The bundles' formats. What fits the wire is read back as it was written, and a setup takes the
length computed for it; what is accepted has every vector of the length its geometry demands, and
is what would be written again but for the varints of those lengths. -/
theorem wire_formats :
    (∀ setup, SetupFits setup → decodeSetup (encodeRawSetup setup) = .ok setup) ∧
    (∀ setup, setupEncodedLen setup = if (encodeRawSetup setup).length < 2 ^ 64 then
      some (encodeRawSetup setup).length else none) ∧
    (∀ queries lens, queries.map (fun q => q.b.length) = lens → lens.length < 256 →
      (∀ len ∈ lens, len < 2 ^ 32) →
      decodeQueryBundle (encodeQueryBundle queries) lens.length lens = .ok queries) ∧
    (∀ responses lens head, responses.map (fun r => r.a.length) = lens → lens.length < 256 →
      (∀ len ∈ lens, len < 2 ^ 32) → head < 2 ^ 64 →
      decodeResponseBundle (encodeResponseBundle responses head) lens lens.length =
        .ok (responses, head)) ∧
    ∀ bytes,
      (∀ setup, decodeSetup bytes = .ok setup → Accepted setup ∧ ∃ body,
        bytes = setupHead setup ++ body ∧ Prefixed (setup.hints.map Hint.data) body ∧
        encodeRawSetup setup = setupHead setup ++ (setup.hints.map Hint.data).flatMap encodeU32s) ∧
      (∀ arity lens queries, decodeQueryBundle bytes arity lens = .ok queries →
        queries.map (fun q => q.b.length) = lens ∧ queries.length = arity ∧ ∃ body,
          bytes = QUERY_MAGIC ++ [UInt8.ofNat queries.length] ++ body ∧
          Prefixed (queries.map Query.b) body ∧
          encodeQueryBundle queries = QUERY_MAGIC ++ [UInt8.ofNat queries.length] ++
            (queries.map Query.b).flatMap encodeU32s) ∧
      ∀ arity lens responses head, decodeResponseBundle bytes lens arity = .ok (responses, head) →
        responses.map (fun r => r.a.length) = lens ∧ responses.length = arity ∧ ∃ body,
          bytes = RESPONSE_MAGIC ++ [UInt8.ofNat responses.length] ++ leBytes 8 head ++ body ∧
          Prefixed (responses.map Response.a) body ∧
          encodeResponseBundle responses head = RESPONSE_MAGIC ++ [UInt8.ofNat responses.length] ++
            leBytes 8 head ++ (responses.map Response.a).flatMap encodeU32s := by
  refine ⟨fun setup fits => decodeSetup_encode fits, fun setup => ?_, ?_, ?_, fun bytes =>
    ⟨?_, ?_, ?_⟩⟩
  · rw [setupEncodedLen, setupTotal_eq]
  · rintro queries lens rfl few small
    rw [List.length_map] at few ⊢
    refine decodeQueryBundle_encode few rfl fun q hq => ?_
    exact lt_trans (small _ (List.mem_map_of_mem hq)) (by decide)
  · rintro responses lens head rfl few small word
    rw [List.length_map] at few ⊢
    refine decodeResponseBundle_encode few rfl word fun r hr => ?_
    exact lt_trans (small _ (List.mem_map_of_mem hr)) (by decide)
  · intro setup h
    obtain ⟨body, front, prefixed⟩ := decodeSetup_front h
    exact ⟨decodeSetup_ok h, body, front, prefixed, by rw [encodeRawSetup_eq, List.flatMap_map]⟩
  · intro arity lens queries h
    obtain ⟨lengths, count, body, front, prefixed⟩ := decodeQueryBundle_front h
    exact ⟨lengths, count, body, front, prefixed, by rw [encodeQueryBundle, List.flatMap_map]⟩
  · intro arity lens responses head h
    obtain ⟨lengths, count, body, front, prefixed⟩ := decodeResponseBundle_front h
    exact ⟨lengths, count, body, front, prefixed, by rw [encodeResponseBundle, List.flatMap_map]⟩

/-- One LWE row over two rows of one column, with standard deviation one. -/
private def narrowParams : SimpleServerParams := ⟨1, 9, 0x3ff0000000000000, 7, 2, 1, 1, 2, 1⟩

private def narrowSetup : RawSetup :=
  ⟨⟨2, 4, 1, 8, 8, 9⟩, [narrowParams, narrowParams], [⟨[5]⟩, ⟨[6]⟩], 3⟩

/-- A setup of two segments is read back, and so is a query whose length prefixes take two bytes. -/
theorem wire_formats_narrow : decodeSetup (encodeRawSetup narrowSetup) = .ok narrowSetup ∧
    [Query.mk [1], Query.mk [2]].map (fun q => q.b.length) = [1, 1] := by
  have fits : ParamsFit narrowParams := by
    constructor <;> decide
  have setup : SetupFits narrowSetup := by
    constructor
    case params =>
      intro sp hsp
      have same : sp = narrowParams := by simpa [narrowSetup] using hsp
      rw [same]
      exact fits
    all_goals decide
  have read : decodeQueryBundle (QUERY_MAGIC ++ [2, 0x81, 0, 1, 0, 0, 0, 0x81, 0, 2, 0, 0, 0]) 2
      [1, 1] = .ok [⟨[1]⟩, ⟨[2]⟩] := by decide
  exact ⟨wire_formats.1 narrowSetup setup, ((wire_formats.2.2.2.2 _).2.1 2 [1, 1] _ read).1⟩

end RisePir.Http.Formats
