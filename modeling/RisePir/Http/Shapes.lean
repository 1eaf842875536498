import RisePir.Http.Exchange

set_option autoImplicit false
set_option relaxedAutoImplicit false

/-! What of a bundle the readers look at: its vector lengths decide whether it is accepted and
with which error, whatever its words are. -/

namespace RisePir.Http.Shapes

open RisePir.Lib.Digits
open RisePir.Proto.Varint
open RisePir.Upstream.Cuckoo
open RisePir.Upstream.Pir
open RisePir.Client.EndToEnd
open RisePir.Server.CellDelta
open RisePir.Server.Core
open RisePir.Server.Telescope
open RisePir.Http.Bundles
open RisePir.Http.Exchange
open RisePir.Http.Node
open RisePir.Http.Wire

/-- The verdict of `readVectors` on vectors of these lengths. -/
def fitVectors : Nat → List Nat → List Nat → Except WireError Unit
  | _, [], _ => .ok ()
  | _, _ :: _, [] => .error (.codec .unexpectedEof)
  | segment, expected :: lens, found :: rest =>
      if expected < found then .error (.codec .countExceedsInput)
      else if found ≠ expected then .error (.segmentLengthMismatch segment expected found)
      else fitVectors (segment + 1) lens rest

/-- The verdict on a bundle of vectors of these lengths. -/
def fitBundle (arity : Nat) (lens found : List Nat) : Except WireError Unit := do
  checkArity arity (found.length % 256) lens.length
  fitVectors 0 lens found
  if found.length ≤ lens.length then return () else .error .trailingBytes

theorem readU32s_encoded {words : List (BitVec 32)} (word : words.length < 2 ^ 64) (maxLen : Nat)
    (rest : List UInt8) : readU32s maxLen (encodeU32s words ++ rest) =
      if maxLen < words.length then .error .countExceedsInput else .ok (words, rest) := by
  by_cases le : words.length ≤ maxLen
  · rw [readU32s_append word le, if_neg (by omega)]
  · rw [readU32s, encodeU32s, List.append_assoc, readUvarint_writeUvarint word]
    dsimp only
    rw [if_pos (by omega), if_pos (by omega)]

private theorem encodeU32s_ne_nil (words : List (BitVec 32)) : encodeU32s words ≠ [] := by
  intro h
  have pos := writeUvarint_length_pos words.length
  rw [encodeU32s, List.append_eq_nil_iff] at h
  rw [h.1] at pos
  exact absurd pos (by simp)

theorem readVectors_encoded {vectors : List (List (BitVec 32))}
    (word : ∀ v ∈ vectors, v.length < 2 ^ 64) (segment : Nat) (lens : List Nat) :
    readVectors segment lens (vectors.flatMap encodeU32s) =
      (fitVectors segment lens (vectors.map List.length)).map fun _ =>
        (vectors.take lens.length, (vectors.drop lens.length).flatMap encodeU32s) := by
  induction lens generalizing segment vectors with
  | nil => rfl
  | cons expected lens ih =>
      cases vectors with
      | nil => rfl
      | cons v vectors =>
          rw [readVectors, List.flatMap_cons, readU32s_encoded (word v (by simp)), List.map_cons,
            fitVectors]
          by_cases over' : expected < v.length
          · rw [if_pos over', if_pos over']
            rfl
          · rw [if_neg over', if_neg over']
            dsimp only
            by_cases short : v.length ≠ expected
            · rw [if_pos short, if_pos short]
              rfl
            · rw [if_neg short, if_neg short, ih fun w hw => word w (List.mem_cons_of_mem v hw)]
              cases fitVectors (segment + 1) lens (vectors.map List.length) with
              | error e => rfl
              | ok u => rfl

private theorem rest_eq_nil_iff (vectors : List (List (BitVec 32))) (n : Nat) :
    (vectors.drop n).flatMap encodeU32s = [] ↔ vectors.length ≤ n := by
  rw [← List.drop_eq_nil_iff]
  cases vectors.drop n with
  | nil => simp
  | cons v rest => simp [encodeU32s_ne_nil]

/-- Both bundle readers, from the vectors on. -/
private theorem vectors_verdict {vectors : List (List (BitVec 32))}
    (word : ∀ v ∈ vectors, v.length < 2 ^ 64) (lens : List Nat) {α : Type}
    (out : List (List (BitVec 32)) → α) :
    (do
      let (read, rest) ← readVectors 0 lens (vectors.flatMap encodeU32s)
      if rest = [] then return out read else Except.error WireError.trailingBytes) =
      (do
        fitVectors 0 lens (vectors.map List.length)
        if vectors.length ≤ lens.length then return () else .error .trailingBytes).map
          fun _ => out vectors := by
  rw [readVectors_encoded word]
  cases fitVectors 0 lens (vectors.map List.length) with
  | error e => rfl
  | ok u =>
      simp only [Except.map, bind, Except.bind, rest_eq_nil_iff]
      by_cases fits : vectors.length ≤ lens.length
      · rw [if_pos fits, if_pos fits, List.take_of_length_le fits]
        rfl
      · rw [if_neg fits, if_neg fits]

private theorem byte_mod (n : Nat) : UInt8.ofNat n = UInt8.ofNat (n % 256) := by
  apply UInt8.toNat_inj.mp
  simp

/-- A query bundle is read back or refused by its lengths alone. -/
theorem decodeQueryBundle_encoded {queries : List Query}
    (word : ∀ q ∈ queries, q.b.length < 2 ^ 64) (arity : Nat) (lens : List Nat) :
    decodeQueryBundle (encodeQueryBundle queries) arity lens =
      (fitBundle arity lens (queries.map fun q => q.b.length)).map fun _ => queries := by
  have vectors : queries.flatMap (fun q => encodeU32s q.b) =
      (queries.map Query.b).flatMap encodeU32s := by rw [List.flatMap_map]
  have lengths : queries.map (fun q => q.b.length) = (queries.map Query.b).map List.length := by
    rw [List.map_map]
    rfl
  have back : (queries.map Query.b).map Query.mk = queries := by
    rw [List.map_map]
    exact List.map_id queries
  have words : ∀ v ∈ queries.map Query.b, v.length < 2 ^ 64 := fun v hv => by
    obtain ⟨q, hq, rfl⟩ := List.mem_map.mp hv
    exact word q hq
  have verdict := vectors_verdict words lens (List.map Query.mk)
  rw [decodeQueryBundle, encodeQueryBundle, List.append_assoc, expectMagic_append rfl,
    List.singleton_append, byte_mod]
  simp only [bind, Except.bind, fitBundle, List.length_map]
  rw [readLe_byte (Nat.mod_lt _ (by omega))]
  dsimp only
  cases checkArity arity (queries.length % 256) lens.length with
  | error e => rfl
  | ok u =>
      dsimp only
      rw [lengths, vectors]
      simp only [bind, Except.bind, List.length_map, back] at verdict
      exact verdict

/-- A response bundle is read back or refused by its lengths alone, and its block is the one
written, as a word. -/
theorem decodeResponseBundle_encoded {responses : List Response}
    (word : ∀ r ∈ responses, r.a.length < 2 ^ 64) (head arity : Nat) (lens : List Nat) :
    decodeResponseBundle (encodeResponseBundle responses head) lens arity =
      (fitBundle arity lens (responses.map fun r => r.a.length)).map fun _ =>
        (responses, head % 2 ^ 64) := by
  have vectors : responses.flatMap (fun r => encodeU32s r.a) =
      (responses.map Response.a).flatMap encodeU32s := by rw [List.flatMap_map]
  have lengths : responses.map (fun r => r.a.length) = (responses.map Response.a).map List.length := by
    rw [List.map_map]
    rfl
  have back : (responses.map Response.a).map Response.mk = responses := by
    rw [List.map_map]
    exact List.map_id responses
  have words : ∀ v ∈ responses.map Response.a, v.length < 2 ^ 64 := fun v hv => by
    obtain ⟨r, hr, rfl⟩ := List.mem_map.mp hv
    exact word r hr
  have header : (leBytes 8 head).length = 8 := leBytes_length 8 head
  have verdict := vectors_verdict words lens fun read => (read.map Response.mk, head % 2 ^ 64)
  rw [decodeResponseBundle, encodeResponseBundle, List.append_assoc, List.append_assoc,
    expectMagic_append rfl, List.singleton_append, byte_mod]
  simp only [bind, Except.bind, fitBundle, List.length_map]
  rw [readLe_byte (Nat.mod_lt _ (by omega))]
  dsimp only
  cases checkArity arity (responses.length % 256) lens.length with
  | error e => rfl
  | ok u =>
      dsimp only
      rw [readLe, if_neg (by rw [List.length_append]; omega), List.take_left' header,
        List.drop_left' header, leNat_leBytes, lengths, vectors]
      simp only [bind, Except.bind, List.length_map, back] at verdict
      exact verdict

theorem encodeU32s_length {words words' : List (BitVec 32)} (same : words.length = words'.length) :
    (encodeU32s words).length = (encodeU32s words').length := by
  rw [encodeU32s, encodeU32s, List.length_append, List.length_append, words_length, words_length, same]

private theorem flatMap_length {vectors vectors' : List (List (BitVec 32))}
    (same : vectors.map List.length = vectors'.map List.length) :
    (vectors.flatMap encodeU32s).length = (vectors'.flatMap encodeU32s).length := by
  induction vectors generalizing vectors' with
  | nil =>
      cases vectors' with
      | nil => rfl
      | cons v' vectors' => cases same
  | cons v vectors ih =>
      cases vectors' with
      | nil => cases same
      | cons v' vectors' =>
          rw [List.map_cons, List.map_cons, List.cons.injEq] at same
          rw [List.flatMap_cons, List.flatMap_cons, List.length_append, List.length_append,
            encodeU32s_length same.1, ih same.2]

/-- Query bundles of the same vector lengths have bodies of one length. -/
theorem encodeQueryBundle_length {queries queries' : List Query}
    (same : queries.map (fun q => q.b.length) = queries'.map fun q => q.b.length) :
    (encodeQueryBundle queries).length = (encodeQueryBundle queries').length := by
  have vectors := @flatMap_length (queries.map Query.b) (queries'.map Query.b) (by
    rw [List.map_map, List.map_map]
    exact same)
  rw [List.flatMap_map, List.flatMap_map] at vectors
  simp only [encodeQueryBundle, List.length_append, vectors, List.length_singleton]

section Answers

variable {p : CuckooParams} {C : SegmentedCuckoo p} {B : PirBackend}

/-- The node serves a well-formed server whose rows fit the widths of the wire. -/
structure Sound (node : NodeState C B) : Prop where
  wellFormed : WellFormed node.server
  widths : ∀ seg ∈ node.server.segments, seg.params.reshapeRowWidth < 2 ^ 32

/-- Two query bundles that agree in their lengths are refused alike, or answered at the node's
block by response bundles that agree in theirs. -/
theorem answerBody_alike (laws : B.ServerLaws) {node : NodeState C B} (sound : Sound node)
    {queries queries' : List Query}
    (same : queries.map (fun q => q.b.length) = queries'.map fun q => q.b.length)
    (word : ∀ q ∈ queries, q.b.length < 2 ^ 64) (presented : Option String) :
    (∃ refusal, answerBody node presented (encodeQueryBundle queries) = .error refusal ∧
        answerBody node presented (encodeQueryBundle queries') = .error refusal) ∨
      ∃ responses responses',
        answerBody node presented (encodeQueryBundle queries) =
            .ok (encodeResponseBundle responses node.server.block) ∧
          answerBody node presented (encodeQueryBundle queries') =
            .ok (encodeResponseBundle responses' node.server.block) ∧
          responses.map (fun r => r.a.length) = responses'.map (fun r => r.a.length) ∧
          ∀ r ∈ responses, r.a.length < 2 ^ 64 := by
  have word' : ∀ q ∈ queries', q.b.length < 2 ^ 64 := fun q hq => by
    have mem : q.b.length ∈ queries.map fun q => q.b.length := by
      rw [same]
      exact List.mem_map_of_mem hq
    obtain ⟨q₀, hq₀, heq⟩ := List.mem_map.mp mem
    rw [← heq]
    exact word q₀ hq₀
  have count : queries.length = queries'.length := by simpa using congrArg List.length same
  unfold answerBody
  cases gate : node.epochGate presented with
  | some refusal => exact .inl ⟨refusal, rfl, rfl⟩
  | none =>
      dsimp only
      rw [decodeQueryBundle_encoded word, decodeQueryBundle_encoded word', ← same]
      cases fitBundle p.arity (node.server.segments.map fun seg => seg.params.reshapeRows)
          (queries.map fun q => q.b.length) with
      | error e => exact .inl ⟨_, rfl, rfl⟩
      | ok u =>
          simp only [Except.map, NodeState.answer, gate]
          by_cases arity : queries.length = p.arity
          · have lengths := response_lengths laws sound.wellFormed arity
            have lengths' := response_lengths laws sound.wellFormed (count ▸ arity)
            rw [answer_eq arity, answer_eq (count ▸ arity)]
            refine .inr ⟨_, _, rfl, rfl, by rw [lengths, lengths'], fun r hr => ?_⟩
            have mem := List.mem_map_of_mem (f := fun r : Response => r.a.length) hr
            rw [lengths] at mem
            obtain ⟨seg, hseg, heq⟩ := List.mem_map.mp mem
            have width := sound.widths seg hseg
            omega
          · rw [RisePirServer.answer, if_pos arity, RisePirServer.answer, if_pos (count ▸ arity), count]
            exact .inl ⟨_, rfl, rfl⟩

end Answers

end RisePir.Http.Shapes
