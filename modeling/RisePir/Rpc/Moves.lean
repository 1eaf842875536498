import Mathlib.Logic.Relation
import RisePir.Rpc.NativeSession

set_option autoImplicit false
set_option relaxedAutoImplicit false

/-! What the operations of a session do to it: whatever the replies and wherever an operation
ends, it has made a sequence of a few kinds of moves. -/

namespace RisePir.Rpc.Moves

open Relation
open RisePir.Proto.Types
open RisePir.Proto.Codec
open RisePir.Proto.Value
open RisePir.Upstream.Cuckoo
open RisePir.Upstream.Pir
open RisePir.Client.Core
open RisePir.Client.Delta
open RisePir.Client.Rewind
open RisePir.Server.Core
open RisePir.Http.Bundles
open RisePir.Http.Node
open RisePir.Http.Wire
open RisePir.Rpc.NativeSession

variable {T : Tables} {B : PirBackend}

/-- A delta that a client decoded from some node's body for a range. -/
def Fetched (world : AnyNode T B → Prop) (epoch : String) (plaintextBits arity fromBlock toBlock : Nat)
    (delta : BlockDelta) : Prop :=
  ∃ n, world n ∧ epoch = n.node.epoch ∧ ∃ summed, n.node.ring.range fromBlock toBlock = some summed ∧
    decodeBlockDelta (encodeBlockDelta summed) plaintextBits arity = .ok delta

/-- One change of a session, with the reply behind it. -/
inductive Move (world : AnyNode T B → Prop) (keccak256 : List UInt8 → List UInt8)
    (codec : ValueCodec) : AnySession T B → AnySession T B → Prop
  | ingested {p : CuckooParams} {s : Session (T p) B} {target : Nat} {delta : BlockDelta}
      {client : RisePirClient (T p) B} (ahead : s.pendingHead < target)
      (fetched : Fetched world s.epoch s.plaintextBits s.arity s.pendingHead target delta)
      (step : s.client.ingestDelta delta = (client, .ok ())) :
      Move world keccak256 codec ⟨p, s⟩ ⟨p, { s with client, pendingHead := delta.block }⟩
  | refused {p : CuckooParams} {s : Session (T p) B} {target : Nat} {delta : BlockDelta}
      {client : RisePirClient (T p) B} {e : ClientError} (ahead : s.pendingHead < target)
      (fetched : Fetched world s.epoch s.plaintextBits s.arity s.pendingHead target delta)
      (step : s.client.ingestDelta delta = (client, .error e)) :
      Move world keccak256 codec ⟨p, s⟩ ⟨p, { s with client }⟩
  | asked {p : CuckooParams} (s : Session (T p) B) (coins : Nat → B.Coins) (key : AddressHash) :
      Move world keccak256 codec ⟨p, s⟩
        ⟨p, { s with client := (s.client.buildQuery coins key).1 }⟩
  | replaced (s : AnySession T B) {n : AnyNode T B} (reached : world n) :
      Move world keccak256 codec s
        (.fromBundle T B keccak256 n.node.setupBytes.2 codec n.node.complete)

/-- Replies of nodes of the world, which send the mode header. -/
def From (world : AnyNode T B → Prop) (replies : List (Reply T B)) : Prop :=
  ∀ reply ∈ replies, ∀ n modeHeader, reply = .served n modeHeader → world n ∧ modeHeader = true

variable {world : AnyNode T B → Prop} {keccak256 : List UInt8 → List UInt8} {codec : ValueCodec}

theorem From.suffix {replies rest : List (Reply T B)} (h : From world replies)
    (suffix : rest <:+ replies) : From world rest :=
  fun reply hreply => h reply (suffix.subset hreply)

theorem From.next {replies : List (Reply T B)} (h : From world replies) {n : AnyNode T B}
    {modeHeader : Bool} (served : next replies = .served n modeHeader) :
    world n ∧ modeHeader = true := by
  cases replies with
  | nil => cases served
  | cons reply rest => exact h reply (by simp) n modeHeader served

theorem sync_some {replies : List (Reply T B)} (h : From world replies)
    {fromBlock toBlock plaintextBits arity : Nat} {epoch : String} {delta : BlockDelta}
    (step : (next replies).sync fromBlock toBlock epoch plaintextBits arity = .ok (some delta)) :
    Fetched world epoch plaintextBits arity fromBlock toBlock delta := by
  cases hreply : next replies with
  | cancelled =>
      rw [hreply] at step
      cases step
  | failed e =>
      rw [hreply] at step
      cases e with
      | network msg => cases step
      | wire msg => cases step
      | status code body =>
          by_cases hcode : code = 409
          · subst hcode
            cases step
          · simp [Reply.sync, hcode] at step
  | served n modeHeader =>
      rw [hreply] at step
      unfold Reply.sync NodeState.sync NodeState.epochGate at step
      dsimp only at step
      by_cases hepoch : epoch = n.node.epoch
      · rw [if_pos hepoch] at step
        dsimp only at step
        cases hrange : n.node.ring.range fromBlock toBlock with
        | none =>
            rw [hrange] at step
            cases step
        | some summed =>
            rw [hrange] at step
            dsimp only at step
            cases hdec : decodeBlockDelta (encodeBlockDelta summed) plaintextBits arity with
            | error e =>
                rw [hdec] at step
                cases step
            | ok decoded =>
                rw [hdec] at step
                cases step
                exact ⟨n, (h.next hreply).1, hepoch, summed, hrange, hdec⟩
      · rw [if_neg hepoch] at step
        cases step

section Session

variable {p : CuckooParams} {s : Session (T p) B} {replies : List (Reply T B)}

variable (s) in
/-- A fetch that went through, or nothing to fetch, or a failure on the session as it was or
as a refused delta left it. -/
theorem syncTo_cases (h : From world replies) (target : Nat) :
    (syncTo s target replies).2.1 <:+ replies ∧
      ((target ≤ s.pendingHead ∧ syncTo s target replies = (s, replies, .ok ())) ∨
        (∃ halt, syncTo s target replies = (s, replies.tail, .error halt)) ∨
        (s.pendingHead < target ∧ ∃ delta client,
          Fetched world s.epoch s.plaintextBits s.arity s.pendingHead target delta ∧
          ((s.client.ingestDelta delta = (client, .ok ()) ∧ syncTo s target replies =
              ({ s with client, pendingHead := delta.block }, replies.tail, .ok ())) ∨
            ∃ e, s.client.ingestDelta delta = (client, .error e) ∧ syncTo s target replies =
              ({ s with client }, replies.tail, .error (.failed (.client e)))))) := by
  unfold syncTo
  by_cases near : target ≤ s.pendingHead
  · rw [if_pos near]
    exact ⟨List.suffix_refl _, .inl ⟨near, rfl⟩⟩
  · rw [if_neg near]
    cases hsync : (next replies).sync s.pendingHead target s.epoch s.plaintextBits s.arity with
    | error halt => exact ⟨List.tail_suffix _, .inr (.inl ⟨halt, rfl⟩)⟩
    | ok out =>
        cases out with
        | none => exact ⟨List.tail_suffix _, .inr (.inl ⟨_, rfl⟩)⟩
        | some delta =>
            have fetched := sync_some h hsync
            dsimp only
            cases hingest : s.client.ingestDelta delta with
            | mk client result =>
                cases result with
                | ok u =>
                    exact ⟨List.tail_suffix _,
                      .inr (.inr ⟨Nat.lt_of_not_le near, delta, client, fetched, .inl ⟨hingest, rfl⟩⟩)⟩
                | error e =>
                    exact ⟨List.tail_suffix _, .inr (.inr ⟨Nat.lt_of_not_le near, delta, client, fetched,
                      .inr ⟨e, hingest, rfl⟩⟩)⟩

variable (keccak256 codec s) in
theorem syncTo_moves (h : From world replies) (target : Nat) :
    ReflTransGen (Move world keccak256 codec) ⟨p, s⟩ ⟨p, (syncTo s target replies).1⟩ := by
  obtain ⟨-, ⟨-, eq⟩ | ⟨halt, eq⟩ | ⟨ahead, delta, client, fetched, ⟨step, eq⟩ | ⟨e, step, eq⟩⟩⟩ :=
    syncTo_cases s h target
  · rw [eq]
  · rw [eq]
  · rw [eq]
    exact .single (.ingested ahead fetched step)
  · rw [eq]
    exact .single (.refused ahead fetched step)

/-- How a session came to return a number: it built its query, the node `n` answered it under
the session's epoch, it followed to the block of the answer, and read the lookup there. -/
inductive Numbered (world : AnyNode T B → Prop) (keccak256 : List UInt8 → List UInt8)
    (codec : ValueCodec) (coins : Nat → B.Coins) (key : AddressHash) (s s' : Session (T p) B)
    (n : AnyNode T B) (b : Balance) : Prop
  | mk {asking : Session (T p) B} {body : List UInt8} {responses : List Response} {atBlock : Nat}
      {rest rest' : List (Reply T B)}
      (before : ReflTransGen (Move world keccak256 codec) ⟨p, s⟩ ⟨p, asking⟩) (reached : world n)
      (answered : answerBody n.node (some asking.epoch)
        (encodeQueryBundle (asking.client.buildQuery coins key).2.1) = .ok body)
      (decoded : decodeResponseBundle body asking.reshapeRowWidthPerSeg asking.arity =
        .ok (responses, atBlock))
      (replies : From world rest)
      (synced : syncTo { asking with client := (asking.client.buildQuery coins key).1 } atBlock rest =
        (s', rest', .ok ()))
      (finished : finishLookup s' key (asking.client.buildQuery coins key).2.2 responses atBlock =
        .ok b) : Numbered world keccak256 codec coins key s s' n b

theorem awaitAnswer_ok {asking : Session (T p) B} {queries : List Query}
    {out : List Response × Nat} (step : awaitAnswer asking queries replies = .ok out)
    (h : From world replies) : ∃ n modeHeader body, next replies = .served n modeHeader ∧ world n ∧
      answerBody n.node (some asking.epoch) (encodeQueryBundle queries) = .ok body ∧
      decodeResponseBundle body asking.reshapeRowWidthPerSeg asking.arity = .ok out := by
  have answered : (next replies).answer queries asking.epoch asking.reshapeRowWidthPerSeg
      asking.arity = .ok out := by
    unfold awaitAnswer at step
    cases hanswer : (next replies).answer queries asking.epoch asking.reshapeRowWidthPerSeg
        asking.arity with
    | ok out' =>
        rw [hanswer] at step
        exact step
    | error halt =>
        rw [hanswer] at step
        rcases halt with _ | _ | ⟨⟨⟨_⟩ | ⟨code, _⟩ | ⟨_⟩⟩ | _ | _ | _ | _⟩
        case failed.pir.status =>
          by_cases hcode : code = 409
          · subst hcode
            cases step
          · simp [hcode] at step
        all_goals cases step
  cases hreply : next replies with
  | cancelled =>
      rw [hreply] at answered
      cases answered
  | failed e =>
      rw [hreply] at answered
      cases answered
  | served n modeHeader =>
      rw [hreply] at answered
      unfold Reply.answer at answered
      dsimp only at answered
      cases hbody : answerBody n.node (some asking.epoch) (encodeQueryBundle queries) with
      | error refusal =>
          rw [hbody] at answered
          cases answered
      | ok body =>
          rw [hbody] at answered
          dsimp only at answered
          cases hdec : decodeResponseBundle body asking.reshapeRowWidthPerSeg asking.arity with
          | error e =>
              rw [hdec] at answered
              cases answered
          | ok out' =>
              rw [hdec] at answered
              cases answered
              exact ⟨n, modeHeader, body, rfl, (h.next hreply).1, hbody, hdec⟩

/-- The node of a reply. -/
def Reply.node : Reply T B → Option (AnyNode T B)
  | .served n _ => some n
  | _ => none

/-- The node that an attempt's query goes to. -/
def answering (s : Session (T p) B) (replies : List (Reply T B)) : Option (AnyNode T B) :=
  match (next replies).head with
  | .error _ => none
  | .ok serverHead =>
      match syncTo s serverHead replies.tail with
      | (_, rest, .ok ()) => Reply.node (next rest)
      | _ => none

variable (keccak256 codec s) in
/-- One attempt, wherever it ends. -/
theorem tryGetBalance_moves (h : From world replies) (coins : Nat → B.Coins) (key : AddressHash) :
    ReflTransGen (Move world keccak256 codec) ⟨p, s⟩ ⟨p, (tryGetBalance coins key s replies).1⟩ ∧
      (tryGetBalance coins key s replies).2.1 <:+ replies ∧
      ∀ b, (tryGetBalance coins key s replies).2.2 = .ok b → ∃ n, answering s replies = some n ∧
        Numbered world keccak256 codec coins key s (tryGetBalance coins key s replies).1 n b := by
  unfold tryGetBalance answering
  cases hhead : (next replies).head with
  | error halt => exact ⟨.refl, List.tail_suffix _, fun b hb => by cases hb⟩
  | ok serverHead =>
      have later := h.suffix (List.tail_suffix replies)
      have caughtUp := syncTo_moves keccak256 codec s later serverHead
      have suffix := (syncTo_cases s later serverHead).1.trans (List.tail_suffix replies)
      dsimp only
      cases hsync : syncTo s serverHead replies.tail with
      | mk asking rest₁ =>
          obtain ⟨rest₁, result⟩ := rest₁
          rw [hsync] at caughtUp suffix
          cases result with
          | error halt => exact ⟨caughtUp, suffix, fun b hb => by cases hb⟩
          | ok u =>
              have asked : ReflTransGen (Move world keccak256 codec) ⟨p, s⟩
                  ⟨p, { asking with client := (asking.client.buildQuery coins key).1 }⟩ :=
                caughtUp.tail (.asked asking coins key)
              have replies₁ := h.suffix suffix
              dsimp only
              cases hanswer : awaitAnswer { asking with client := (asking.client.buildQuery coins key).1 }
                  (asking.client.buildQuery coins key).2.1 rest₁ with
              | error halt =>
                  exact ⟨asked, (List.tail_suffix _).trans suffix, fun b hb => by cases hb⟩
              | ok out =>
                  obtain ⟨responses, atBlock⟩ := out
                  obtain ⟨n, modeHeader, body, served, reached, answered, decoded⟩ :=
                    awaitAnswer_ok hanswer replies₁
                  have replies₂ := replies₁.suffix (List.tail_suffix rest₁)
                  have followed := syncTo_moves keccak256 codec
                    { asking with client := (asking.client.buildQuery coins key).1 } replies₂ atBlock
                  have suffix₂ := ((syncTo_cases
                    { asking with client := (asking.client.buildQuery coins key).1 } replies₂ atBlock).1.trans (List.tail_suffix _)).trans suffix
                  dsimp only
                  cases hsync₂ : syncTo { asking with client := (asking.client.buildQuery coins key).1 }
                      atBlock rest₁.tail with
                  | mk s' rest₂ =>
                      obtain ⟨rest₂, result₂⟩ := rest₂
                      rw [hsync₂] at followed suffix₂
                      cases result₂ with
                      | error halt => exact ⟨asked.trans followed, suffix₂, fun b hb => by cases hb⟩
                      | ok u =>
                          refine ⟨asked.trans followed, suffix₂, fun b hb => ⟨n, ?_,
                            .mk caughtUp reached answered decoded replies₂ hsync₂ hb⟩⟩
                          rw [served]
                          rfl

end Session

section Calls

variable {eth : PrivateEth T B} {replies : List (Reply T B)}

/-- The session that an attempt of `get_balance` begins with, the node that answers it, and the
number it ends with. -/
def Returns (world : AnyNode T B → Prop) (keccak256 : List UInt8 → List UInt8) (codec : ValueCodec)
    (key : AddressHash) (before after : AnySession T B) (n : AnyNode T B) (b : Balance) : Prop :=
  ∃ (p : CuckooParams) (coins : Nat → B.Coins) (s s' : Session (T p) B),
    ReflTransGen (Move world keccak256 codec) before ⟨p, s⟩ ∧
      Numbered world keccak256 codec coins key s s' n b ∧ after = ⟨p, s'⟩

/-- The node that the query of the last attempt of `get_balance` goes to. -/
def lastAnswering (keccak256 : List UInt8 → List UInt8) (coins : Nat → B.Coins) (now : Nat)
    (key : AddressHash) (eth : PrivateEth T B) (replies : List (Reply T B)) : Option (AnyNode T B) :=
  match eth.attempt coins key replies with
  | (eth₁, rest, .error (.failed .stalled)) =>
      match eth₁.takeRebootstrapSlot now with
      | (_, false) => none
      | (eth₂, true) =>
          match eth₂.rebootstrap keccak256 rest with
          | (eth₃, rest, .ok ()) => answering eth₃.session.session rest
          | _ => none
  | _ => answering eth.session.session replies

variable (keccak256 codec eth) in
theorem attempt_moves (h : From world replies) (coins : Nat → B.Coins) (key : AddressHash) :
    ReflTransGen (Move world keccak256 codec) eth.session (eth.attempt coins key replies).1.session ∧
      (eth.attempt coins key replies).1.valueCodec = eth.valueCodec ∧
      (eth.attempt coins key replies).2.1 <:+ replies ∧
      ∀ b, (eth.attempt coins key replies).2.2 = .ok b → ∃ n,
        answering eth.session.session replies = some n ∧
        Returns world keccak256 codec key eth.session (eth.attempt coins key replies).1.session n b := by
  obtain ⟨moves, suffix, number⟩ := tryGetBalance_moves keccak256 codec eth.session.session h
    coins key
  refine ⟨moves, rfl, suffix, fun b hb => ?_⟩
  obtain ⟨n, answers, numbered⟩ := number b hb
  exact ⟨n, answers, _, coins, _, _, .refl, numbered, rfl⟩

variable (keccak256 eth) in
theorem rebootstrap_moves (h : From world replies) :
    ReflTransGen (Move world keccak256 eth.valueCodec) eth.session
        (eth.rebootstrap keccak256 replies).1.session ∧
      (eth.rebootstrap keccak256 replies).1.valueCodec = eth.valueCodec ∧
      (eth.rebootstrap keccak256 replies).2.1 <:+ replies := by
  unfold PrivateEth.rebootstrap
  cases hreply : next replies with
  | cancelled => exact ⟨.refl, rfl, List.tail_suffix _⟩
  | failed e => exact ⟨.refl, rfl, List.tail_suffix _⟩
  | served n modeHeader =>
      obtain ⟨reached, rfl⟩ := h.next hreply
      exact ⟨.single (.replaced eth.session reached), rfl, List.tail_suffix _⟩

variable (keccak256 eth) in
/-- Every exit of `get_balance`. -/
theorem getBalance_moves (h : From world replies) (coins coins' : Nat → B.Coins) (now : Nat)
    (key : AddressHash) :
    ReflTransGen (Move world keccak256 eth.valueCodec) eth.session
        (eth.getBalance keccak256 coins coins' now key replies).1.session ∧
      (eth.getBalance keccak256 coins coins' now key replies).1.valueCodec = eth.valueCodec ∧
      ∀ b, (eth.getBalance keccak256 coins coins' now key replies).2.2 = .ok b → ∃ n,
        lastAnswering keccak256 coins now key eth replies = some n ∧
        Returns world keccak256 eth.valueCodec key eth.session
          (eth.getBalance keccak256 coins coins' now key replies).1.session n b := by
  obtain ⟨moves, codec_eq, suffix, number⟩ := attempt_moves keccak256 eth.valueCodec eth h
    coins key
  unfold PrivateEth.getBalance lastAnswering
  cases hfirst : eth.attempt coins key replies with
  | mk eth₁ rest =>
      obtain ⟨rest₁, result⟩ := rest
      rw [hfirst] at moves codec_eq suffix number
      dsimp only at moves codec_eq suffix number
      by_cases stalled : result = .error (.failed .stalled)
      · subst stalled
        dsimp only
        have slot : (eth₁.takeRebootstrapSlot now).1.session = eth₁.session ∧
            (eth₁.takeRebootstrapSlot now).1.valueCodec = eth₁.valueCodec := by
          unfold PrivateEth.takeRebootstrapSlot
          split
          · split <;> exact ⟨rfl, rfl⟩
          · exact ⟨rfl, rfl⟩
        cases hslot : eth₁.takeRebootstrapSlot now with
        | mk eth₂ taken =>
            rw [hslot] at slot
            obtain ⟨same, codec_eq₂⟩ := slot
            dsimp only at same codec_eq₂
            have toSecond : ReflTransGen (Move world keccak256 eth.valueCodec) eth.session eth₂.session := by
              rw [same]
              exact moves
            cases taken with
            | false =>
                exact ⟨toSecond, codec_eq₂.trans codec_eq, fun b hb => by cases hb⟩
            | true =>
                have again := rebootstrap_moves keccak256 eth₂ (h.suffix suffix)
                rw [codec_eq₂, codec_eq] at again
                dsimp only
                cases hboot : eth₂.rebootstrap keccak256 rest₁ with
                | mk eth₃ rest₃ =>
                    obtain ⟨rest₃, result₃⟩ := rest₃
                    rw [hboot] at again
                    obtain ⟨moves₃, codec_eq₃, suffix₃⟩ := again
                    cases result₃ with
                    | error halt =>
                        exact ⟨toSecond.trans moves₃, codec_eq₃, fun b hb => by cases hb⟩
                    | ok u =>
                        obtain ⟨moves₄, codec_eq₄, -, number₄⟩ := attempt_moves keccak256 eth.valueCodec eth₃
                          ((h.suffix suffix).suffix suffix₃) coins' key
                        refine ⟨(toSecond.trans moves₃).trans moves₄, codec_eq₄.trans codec_eq₃,
                          fun b hb => ?_⟩
                        obtain ⟨n, answers, p, coins'', s, s', before, numbered, after⟩ := number₄ b hb
                        exact ⟨n, answers, p, coins'', s, s', (toSecond.trans moves₃).trans before,
                          numbered, after⟩
      · rcases result with ⟨_ | _ | ⟨_ | _ | _ | _ | _⟩⟩ | b'
        case error.failed.stalled => exact absurd rfl stalled
        all_goals exact ⟨moves, codec_eq, number⟩

variable (keccak256 eth) in
/-- The node of a lookup that came to a number is one of those that reply. -/
theorem lastAnswering_served (h : From world replies) {coins coins' : Nat → B.Coins} {now : Nat}
    {key : AddressHash} {b : Balance}
    (got : (eth.getBalance keccak256 coins coins' now key replies).2.2 = .ok b) :
    ∃ n, lastAnswering keccak256 coins now key eth replies = some n ∧ .served n true ∈ replies := by
  have own : From (fun n => .served n true ∈ replies) replies := by
    rintro reply mem n modeHeader rfl
    obtain ⟨-, rfl⟩ := h _ mem n modeHeader rfl
    exact ⟨mem, rfl⟩
  obtain ⟨-, -, numbers⟩ := getBalance_moves keccak256 eth own coins coins' now key
  obtain ⟨n, answers, p, asked, s, s', -, numbered, -⟩ := numbers b got
  cases numbered with
  | mk _ served => exact ⟨n, answers, served⟩

theorem followOnce_moves (h : From world replies) :
    ReflTransGen (Move world keccak256 codec) eth.session (eth.followOnce replies).1.session ∧
      (eth.followOnce replies).1.valueCodec = eth.valueCodec := by
  unfold PrivateEth.followOnce
  cases (next replies).head with
  | error halt => exact ⟨.refl, rfl⟩
  | ok head =>
      dsimp only
      by_cases near : head ≤ eth.session.session.pendingHead
      · rw [if_pos near]
        exact ⟨.refl, rfl⟩
      · rw [if_neg near]
        exact ⟨syncTo_moves _ _ _ (h.suffix (List.tail_suffix _)) head, rfl⟩

/-- A call on the shared session, with what the world does to it. -/
inductive Call (T : Tables) (B : PirBackend)
  | getBalance (key : AddressHash) (coins coins' : Nat → B.Coins) (now : Nat)
      (replies : List (Reply T B))
  | followOnce (replies : List (Reply T B))

def Call.awaits : Call T B → List (Reply T B)
  | .getBalance _ _ _ _ replies => replies
  | .followOnce replies => replies

/-- The session lock serialises the calls. -/
def Call.perform (keccak256 : List UInt8 → List UInt8) (eth : PrivateEth T B) :
    Call T B → PrivateEth T B
  | .getBalance key coins coins' now replies =>
      (eth.getBalance keccak256 coins coins' now key replies).1
  | .followOnce replies => (eth.followOnce replies).1

variable (keccak256 eth) in
theorem perform_moves (call : Call T B) (h : From world call.awaits) :
    ReflTransGen (Move world keccak256 eth.valueCodec) eth.session
        (call.perform keccak256 eth).session ∧
      (call.perform keccak256 eth).valueCodec = eth.valueCodec := by
  cases call with
  | getBalance key coins coins' now replies =>
      obtain ⟨moves, codec_eq, -⟩ := getBalance_moves keccak256 eth h coins
        coins' now key
      exact ⟨moves, codec_eq⟩
  | followOnce replies => exact followOnce_moves h

variable (keccak256 eth) in
theorem run_moves {calls : List (Call T B)} (h : ∀ call ∈ calls, From world call.awaits) :
    ReflTransGen (Move world keccak256 eth.valueCodec) eth.session
        (calls.foldl (Call.perform keccak256) eth).session ∧
      (calls.foldl (Call.perform keccak256) eth).valueCodec = eth.valueCodec := by
  induction calls generalizing eth with
  | nil => exact ⟨.refl, rfl⟩
  | cons call calls ih =>
      obtain ⟨first, codec_eq⟩ := perform_moves keccak256 eth call (h call (by simp))
      have rest := ih (call.perform keccak256 eth) fun c hc => h c (List.mem_cons_of_mem _ hc)
      rw [codec_eq] at rest
      exact ⟨first.trans rest.1, rest.2⟩

end Calls

end RisePir.Rpc.Moves
