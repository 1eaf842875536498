import RisePir.Http.Shapes
import RisePir.Http.Serving
import RisePir.Rpc.Moves

set_option autoImplicit false
set_option relaxedAutoImplicit false

/-! What a session puts on the wire, and what of it anyone but the key holder can tell apart:
every request line and the length of every body are the same for every account. -/

namespace RisePir.Rpc.Traffic

open RisePir.Proto.Types
open RisePir.Proto.Value
open RisePir.Upstream.Cuckoo
open RisePir.Upstream.Pir
open RisePir.Upstream.ReferencePir
open RisePir.Upstream.ReferenceTable
open RisePir.Client.Core
open RisePir.Client.Delta
open RisePir.Client.EndToEnd
open RisePir.Client.Rewind
open RisePir.Server.Core
open RisePir.Server.Small
open RisePir.Server.Telescope
open RisePir.Http.Bundles
open RisePir.Http.Node
open RisePir.Http.Serving
open RisePir.Http.Shapes
open RisePir.Http.Wire
open RisePir.Rpc.Moves
open RisePir.Rpc.NativeSession

inductive Method
  | get
  | post
  deriving DecidableEq, Repr

/-- A request as it leaves the client, below the node's base URL. -/
structure Sent where
  method : Method
  target : String
  body : List UInt8
  deriving DecidableEq, Repr

/-- A request but for the contents of its body. -/
def Sent.visible (sent : Sent) : Method × String × Nat := (sent.method, sent.target, sent.body.length)

def headRequest : Sent := ⟨.get, "/head", []⟩

def setupRequest : Sent := ⟨.get, "/setup", []⟩

def modeRequest : Sent := ⟨.get, "/mode", []⟩

def syncRequest (fromBlock toBlock : Nat) (epoch : String) : Sent :=
  ⟨.get, s!"/sync?from={fromBlock}&to={toBlock}&epoch={epoch}", []⟩

def answerRequest (epoch : String) (queries : List Query) : Sent :=
  ⟨.post, s!"/answer?epoch={epoch}", encodeQueryBundle queries⟩

variable {T : Tables} {B : PirBackend}

section Requests

variable {p : CuckooParams} {C : SegmentedCuckoo p}

/-- The requests of `sync_to`. -/
def syncToSent (s : Session C B) (target : Nat) : List Sent :=
  if target ≤ s.pendingHead then [] else [syncRequest s.pendingHead target s.epoch]

/-- The requests of `try_get_balance`. -/
def tryGetBalanceSent (coins : Nat → B.Coins) (key : AddressHash) (s : Session C B)
    (replies : List (Reply T B)) : List Sent :=
  headRequest ::
    match (next replies).head with
    | .error _ => []
    | .ok serverHead => syncToSent s serverHead ++
        match syncTo s serverHead replies.tail with
        | (_, _, .error _) => []
        | (s, replies, .ok ()) =>
            let (client, queries, _) := s.client.buildQuery coins key
            answerRequest s.epoch queries ::
              match awaitAnswer { s with client } queries replies with
              | .error _ => []
              | .ok (_, atBlock) => syncToSent { s with client } atBlock

end Requests

/-- The requests of `rebootstrap`: the mode is asked for where the setup response lacks it. -/
def rebootstrapSent (replies : List (Reply T B)) : List Sent :=
  setupRequest ::
    match (next replies).setupWithMode with
    | .ok (_, none) => [modeRequest]
    | _ => []

/-- The requests of `get_balance`. -/
def getBalanceSent (keccak256 : List UInt8 → List UInt8) (coins coins' : Nat → B.Coins) (now : Nat)
    (key : AddressHash) (eth : PrivateEth T B) (replies : List (Reply T B)) : List Sent :=
  tryGetBalanceSent coins key eth.session.session replies ++
    match eth.attempt coins key replies with
    | (eth, replies, .error (.failed .stalled)) =>
        match eth.takeRebootstrapSlot now with
        | (_, false) => []
        | (eth, true) => rebootstrapSent replies ++
            match eth.rebootstrap keccak256 replies with
            | (_, _, .error _) => []
            | (eth, replies, .ok ()) => tryGetBalanceSent coins' key eth.session.session replies
    | _ => []

/-- The requests of `follow_once`. -/
def followOnceSent (eth : PrivateEth T B) (replies : List (Reply T B)) : List Sent :=
  headRequest ::
    match (next replies).head with
    | .error _ => []
    | .ok head => syncToSent eth.session.session head

/-- The requests of a call. -/
def callSent (keccak256 : List UInt8 → List UInt8) (eth : PrivateEth T B) : Call T B → List Sent
  | .getBalance key coins coins' now replies =>
      getBalanceSent keccak256 coins coins' now key eth replies
  | .followOnce replies => followOnceSent eth replies

/-- Everything a session sends over its calls. -/
def traffic (keccak256 : List UInt8 → List UInt8) : PrivateEth T B → List (Call T B) → List Sent
  | _, [] => []
  | eth, call :: calls =>
      callSent keccak256 eth call ++ traffic keccak256 (call.perform keccak256 eth) calls

section Replies

variable {p : CuckooParams} {C : SegmentedCuckoo p}

theorem syncTo_replies (s : Session C B) (target : Nat) (replies : List (Reply T B)) :
    (syncTo s target replies).2.1 = replies.drop (syncToSent s target).length := by
  unfold syncTo syncToSent
  by_cases near : target ≤ s.pendingHead
  · rw [if_pos near, if_pos near]
    rfl
  · rw [if_neg near, if_neg near]
    rw [List.length_singleton, List.drop_one]
    cases (next replies).sync s.pendingHead target s.epoch s.plaintextBits s.arity with
    | error halt => rfl
    | ok out =>
        cases out with
        | none => rfl
        | some delta =>
            dsimp only
            rcases s.client.ingestDelta delta with ⟨client, e | u⟩
            · rfl
            · rfl

private theorem drop_tail (replies : List (Reply T B)) (n : Nat) :
    replies.tail.drop n = replies.drop (n + 1) := by
  rw [← List.drop_one, List.drop_drop, Nat.add_comm]

/-- An attempt reads one reply for each request it sends. -/
theorem tryGetBalance_replies (coins : Nat → B.Coins) (key : AddressHash) (s : Session C B)
    (replies : List (Reply T B)) : (tryGetBalance coins key s replies).2.1 =
      replies.drop (tryGetBalanceSent coins key s replies).length := by
  unfold tryGetBalance tryGetBalanceSent
  rw [List.length_cons]
  cases (next replies).head with
  | error halt => exact List.drop_one.symm
  | ok serverHead =>
      dsimp only
      have first := syncTo_replies s serverHead replies.tail
      rw [drop_tail] at first
      rw [List.length_append]
      rcases hsync : syncTo s serverHead replies.tail with ⟨s₁, rest, halt | u⟩
      · rw [hsync] at first
        exact first
      · rw [hsync] at first
        dsimp only at first ⊢
        subst first
        rw [List.length_cons]
        cases awaitAnswer { s₁ with client := (s₁.client.buildQuery coins key).1 }
            (s₁.client.buildQuery coins key).2.1
            (replies.drop ((syncToSent s serverHead).length + 1)) with
        | error halt =>
            dsimp only
            rw [← List.drop_one, List.drop_drop, List.length_nil]
        | ok out =>
            dsimp only
            have second := syncTo_replies { s₁ with client := (s₁.client.buildQuery coins key).1 } out.2
              (replies.drop ((syncToSent s serverHead).length + 1)).tail
            rw [drop_tail, List.drop_drop] at second
            have count : (syncToSent s serverHead).length + 1 +
                ((syncToSent { s₁ with client := (s₁.client.buildQuery coins key).1 } out.2).length + 1) =
                (syncToSent s serverHead).length +
                  ((syncToSent { s₁ with client := (s₁.client.buildQuery coins key).1 } out.2).length + 1) +
                  1 := by omega
            rw [count] at second
            rcases hsync' : syncTo { s₁ with client := (s₁.client.buildQuery coins key).1 } out.2
                (replies.drop ((syncToSent s serverHead).length + 1)).tail with ⟨s₂, rest, halt | u⟩
            · rw [hsync'] at second
              exact second
            · rw [hsync'] at second
              exact second

theorem attempt_replies (coins : Nat → B.Coins) (key : AddressHash) (eth : PrivateEth T B)
    (replies : List (Reply T B)) : (eth.attempt coins key replies).2.1 =
      replies.drop (tryGetBalanceSent coins key eth.session.session replies).length :=
  tryGetBalance_replies coins key eth.session.session replies

theorem rebootstrap_replies (keccak256 : List UInt8 → List UInt8) (eth : PrivateEth T B)
    (replies : List (Reply T B)) : (eth.rebootstrap keccak256 replies).2.1 =
      replies.drop (rebootstrapSent replies).length := by
  unfold PrivateEth.rebootstrap rebootstrapSent
  rcases (next replies).setupWithMode with halt | ⟨bundle, headerMode⟩
  · exact List.drop_one.symm
  · cases headerMode with
    | some complete => exact List.drop_one.symm
    | none =>
        dsimp only [PrivateEth.modeOf]
        rcases (next replies.tail).mode with halt | complete
        · exact List.drop_one.symm.trans (drop_tail replies 1)
        · exact List.drop_one.symm.trans (drop_tail replies 1)

end Replies

section Alike

variable {p : CuckooParams} {C : SegmentedCuckoo p}

/-- Two clients that differ at most in their queries' secrets. -/
structure ClientAlike (client client' : RisePirClient C B) : Prop where
  params : client.states.map B.stateParams = client'.states.map B.stateParams
  pinned : client.pinnedBlock = client'.pinnedBlock
  delta : client.delta = client'.delta
  codec : client.valueCodec = client'.valueCodec
  rows : ∀ st ∈ client.states, (B.stateParams st).reshapeRows < 2 ^ 64

/-- Two sessions that differ at most in their clients' secrets. -/
inductive Alike : Session C B → Session C B → Prop
  | mk (s : Session C B) {client' : RisePirClient C B} (clients : ClientAlike s.client client') :
      Alike s { s with client := client' }

/-- A delta is accepted by both clients or refused by both with one error. -/
theorem ClientAlike.ingestDelta {client client' : RisePirClient C B}
    (alike : ClientAlike client client') (d : BlockDelta) :
    ClientAlike (client.ingestDelta d).1 (client'.ingestDelta d).1 ∧
      (client.ingestDelta d).2 = (client'.ingestDelta d).2 := by
  unfold RisePirClient.ingestDelta
  rw [← alike.delta]
  exact ⟨{ alike with delta := rfl }, rfl⟩

theorem syncToSent_alike {s s' : Session C B} (alike : Alike s s') (target : Nat) :
    syncToSent s target = syncToSent s' target := by
  cases alike with
  | mk clients => rfl

theorem next_mem {replies : List (Reply T B)} {n : AnyNode T B} {modeHeader : Bool}
    (served : next replies = .served n modeHeader) : .served n modeHeader ∈ replies := by
  cases replies with
  | nil => cases served
  | cons reply rest => exact served ▸ List.mem_cons_self

/-- A sync moves both sessions alike. -/
theorem syncTo_alike {s s' : Session C B} (alike : Alike s s') (target : Nat)
    (replies : List (Reply T B)) :
    Alike (syncTo s target replies).1 (syncTo s' target replies).1 ∧
      (syncTo s target replies).2 = (syncTo s' target replies).2 := by
  cases alike with
  | @mk client' clients =>
      unfold syncTo
      dsimp only
      by_cases near : target ≤ s.pendingHead
      · rw [if_pos near, if_pos near]
        exact ⟨.mk s clients, rfl⟩
      · rw [if_neg near, if_neg near]
        cases (next replies).sync s.pendingHead target s.epoch s.plaintextBits s.arity with
        | error halt => exact ⟨.mk s clients, rfl⟩
        | ok out =>
            cases out with
            | none => exact ⟨.mk s clients, rfl⟩
            | some delta =>
                obtain ⟨after, same⟩ := clients.ingestDelta delta
                dsimp only
                rcases hl : s.client.ingestDelta delta with ⟨c, result⟩
                rcases hr : client'.ingestDelta delta with ⟨c', result'⟩
                rw [hl, hr] at after same
                dsimp only at after same
                subst same
                cases result with
                | error e => exact ⟨.mk { s with client := c } after, rfl⟩
                | ok u => exact ⟨.mk { s with client := c, pendingHead := delta.block } after, rfl⟩

private theorem zip_map_fst {α β γ : Type} (f : α → γ) {l l' : List α} {r r' : List β}
    (same : l.map f = l'.map f) (length : r.length = r'.length) :
    ((l.zip r).map fun e => f e.1) = (l'.zip r').map fun e => f e.1 := by
  have fst : ∀ (l : List α) (r : List β),
      ((l.zip r).map fun e => f e.1) = (l.map f).take r.length := by
    intro l r
    induction l generalizing r with
    | nil => simp
    | cons a l ih =>
        cases r with
        | nil => simp
        | cons b r => simp [ih r]
  rw [fst, fst, same, length]

private theorem map_mapIdx {α β γ : Type} {f : Nat → α → β} {g : β → γ} {h : α → γ}
    (each : ∀ i a, g (f i a) = h a) (l : List α) : (l.mapIdx f).map g = l.map h := by
  apply List.ext_getElem?
  intro i
  rw [List.getElem?_map, List.getElem?_mapIdx, List.getElem?_map, Option.map_map]
  congr 1
  funext a
  exact each i a

variable {coins coins' : Nat → B.Coins} {key key' : AddressHash}

theorem buildQuery_params (laws : B.ClientLaws) (client : RisePirClient C B) :
    (client.buildQuery coins key).1.states.map B.stateParams =
      (client.states.zip (candidateRows C key)).map fun e => B.stateParams e.1 := by
  rw [RisePirClient.buildQuery, List.map_map]
  apply map_mapIdx
  intro j entry
  exact laws.query_params _ _ _

theorem buildQuery_lengths (laws : B.ClientLaws) (client : RisePirClient C B) :
    (client.buildQuery coins key).2.1.map (fun q => q.b.length) =
      ((client.buildQuery coins key).1.states.map B.stateParams).map fun sp => sp.reshapeRows := by
  rw [buildQuery_params laws, List.map_map]
  rw [RisePirClient.buildQuery, List.map_map]
  apply map_mapIdx
  intro j entry
  exact laws.query_length _ _ _

variable (coins coins' key key') in
/-- Queries for any two keys leave both clients alike. -/
theorem buildQuery_alike (placement : C.PlacementLaws) (laws : B.ClientLaws)
    {client client' : RisePirClient C B} (alike : ClientAlike client client') :
    ClientAlike (client.buildQuery coins key).1 (client'.buildQuery coins' key').1 := by
  refine ⟨?_, alike.pinned, alike.delta, alike.codec, fun st hst => ?_⟩
  · rw [buildQuery_params laws, buildQuery_params laws]
    exact zip_map_fst B.stateParams alike.params
      (by rw [candidateRows_length _ placement, candidateRows_length _ placement])
  · have mem : B.stateParams st ∈ (client.buildQuery coins key).1.states.map B.stateParams :=
      List.mem_map_of_mem hst
    rw [buildQuery_params laws] at mem
    obtain ⟨e, he, heq⟩ := List.mem_map.mp mem
    rw [← heq]
    exact alike.rows e.1 (List.of_mem_zip he).1

/-- One answer request, for two query bundles of the same lengths: both fail alike, or both
bring the same block and as many responses. -/
theorem awaitAnswer_alike (laws : B.ServerLaws) {s s' : Session C B} (alike : Alike s s')
    {queries queries' : List Query}
    (same : queries.map (fun q => q.b.length) = queries'.map fun q => q.b.length)
    (word : ∀ q ∈ queries, q.b.length < 2 ^ 64) {replies : List (Reply T B)}
    (sound : ∀ n modeHeader, next replies = .served n modeHeader → Sound n.node) :
    (∃ halt, awaitAnswer s queries replies = .error halt ∧
        awaitAnswer s' queries' replies = .error halt) ∨
      ∃ responses responses' atBlock, awaitAnswer s queries replies = .ok (responses, atBlock) ∧
        awaitAnswer s' queries' replies = .ok (responses', atBlock) ∧
        responses.length = responses'.length := by
  have answered : (∃ halt, (next replies).answer queries s.epoch s.reshapeRowWidthPerSeg s.arity =
          .error halt ∧ (next replies).answer queries' s.epoch s.reshapeRowWidthPerSeg s.arity =
          .error halt) ∨
      ∃ responses responses' atBlock,
        (next replies).answer queries s.epoch s.reshapeRowWidthPerSeg s.arity =
            .ok (responses, atBlock) ∧
          (next replies).answer queries' s.epoch s.reshapeRowWidthPerSeg s.arity =
            .ok (responses', atBlock) ∧
          responses.length = responses'.length := by
    cases hreply : next replies with
    | cancelled => exact .inl ⟨_, rfl, rfl⟩
    | failed e => exact .inl ⟨_, rfl, rfl⟩
    | served n modeHeader =>
        unfold Reply.answer
        dsimp only
        rcases answerBody_alike laws (sound n modeHeader hreply) same word (some s.epoch) with
          ⟨refusal, left, right⟩ | ⟨responses, responses', left, right, lengths, words⟩
        · rw [left, right]
          exact .inl ⟨_, rfl, rfl⟩
        · have words' : ∀ r ∈ responses', r.a.length < 2 ^ 64 := fun r hr => by
            have mem : r.a.length ∈ responses.map fun r => r.a.length := by
              rw [lengths]
              exact List.mem_map_of_mem hr
            obtain ⟨r₀, hr₀, heq⟩ := List.mem_map.mp mem
            rw [← heq]
            exact words r₀ hr₀
          rw [left, right]
          dsimp only
          rw [decodeResponseBundle_encoded words, decodeResponseBundle_encoded words', ← lengths]
          cases fitBundle s.arity s.reshapeRowWidthPerSeg (responses.map fun r => r.a.length) with
          | error e => exact .inl ⟨_, rfl, rfl⟩
          | ok u =>
              exact .inr ⟨responses, responses', _, rfl, rfl,
                by simpa using congrArg List.length lengths⟩
  cases alike with
  | mk clients =>
      unfold awaitAnswer
      dsimp only
      rcases answered with ⟨halt, left, right⟩ | ⟨responses, responses', atBlock, left, right, count⟩
      · rw [left, right]
        rcases halt with _ | _ | ⟨⟨⟨_⟩ | ⟨code, msg⟩ | ⟨_⟩⟩ | _ | _ | _ | _⟩
        any_goals exact .inl ⟨_, rfl, rfl⟩
        by_cases gate : code = 409
        · subst gate
          exact .inl ⟨_, rfl, rfl⟩
        · exact .inl ⟨.failed (.pir (.status code msg)), by simp [gate], by simp [gate]⟩
      · rw [left, right]
        exact .inr ⟨responses, responses', atBlock, rfl, rfl, count⟩

theorem correctCells_error {segment row : Nat} {deltas : List (Nat × Int)} {cells : List (BitVec 32)}
    {e : ClientError} (h : correctCells p segment row cells deltas = .error e) :
    ∃ offset, e = .cellOutOfRange segment row offset := by
  induction deltas generalizing cells with
  | nil => cases h
  | cons d deltas ih =>
      unfold correctCells at h
      cases hcell : cells[d.1]? with
      | none =>
          rw [hcell] at h
          cases h
          exact ⟨d.1, rfl⟩
      | some cell =>
          rw [hcell] at h
          dsimp only at h
          by_cases out : (cell.toNat : Int) + d.2 < 0 ∨ 2 ^ p.plaintextBits ≤ (cell.toNat : Int) + d.2
          · rw [if_pos out] at h
            cases h
            exact ⟨d.1, rfl⟩
          · rw [if_neg out] at h
            exact ih h

theorem finishSegments_error {kind : ResponseRewind} {client : RisePirClient C B}
    {looks : List (SegmentLookup B)} {sel : Select} {e : ClientError}
    (h : finishSegments kind client key looks sel = some (.error e)) :
    ∃ segment row offset, e = .cellOutOfRange segment row offset := by
  induction looks generalizing sel with
  | nil => cases h
  | cons look looks ih =>
      rw [finishSegments] at h
      cases hseg : finishSegment kind client key look sel with
      | none =>
          rw [hseg] at h
          cases h
      | some out =>
          rw [hseg] at h
          cases out with
          | ok sel' => exact ih h
          | error e' =>
              cases h
              unfold finishSegment at hseg
              cases hrewind : kind.rewindResponse (B.stateParams look.state) look.query look.response
                  (client.delta.segment look.segment) with
              | none =>
                  rw [hrewind] at hseg
                  cases hseg
              | some rewound =>
                  rw [hrewind] at hseg
                  dsimp only at hseg
                  cases hcells : correctCells p look.segment look.row
                      (B.clientDecode look.state rewound)
                      (client.delta.row look.segment look.row) with
                  | error e'' =>
                      rw [hcells] at hseg
                      cases hseg
                      obtain ⟨offset, rfl⟩ := correctCells_error hcells
                      exact ⟨_, _, offset, rfl⟩
                  | ok cells =>
                      rw [hcells] at hseg
                      dsimp only at hseg
                      cases hscan : scanRow C client.valueCodec key cells sel with
                      | none =>
                          rw [hscan] at hseg
                          cases hseg
                      | some sel' =>
                          rw [hscan] at hseg
                          cases hseg

/-- A finished lookup calls for a new session only where the response is of another block. -/
theorem finishLookup_stalled_iff (s : Session C B) (key : AddressHash) {ctx : QueryCtx}
    {responses : List Response} {atBlock : Nat} :
    finishLookup s key ctx responses atBlock = .error (.failed .stalled) ↔
      ¬(responses.length ≠ p.arity ∨ ctx.queries.length ≠ p.arity ∨ ctx.rows.length ≠ p.arity) ∧
        atBlock ≠ s.client.delta.head := by
  unfold finishLookup RisePirClient.finish
  by_cases counts : responses.length ≠ p.arity ∨ ctx.queries.length ≠ p.arity ∨
      ctx.rows.length ≠ p.arity
  · rw [if_pos counts]
    exact ⟨nofun, fun h => absurd counts h.1⟩
  · rw [if_neg counts]
    by_cases block : atBlock = s.client.delta.head
    · rw [if_neg (by simp [block])]
      refine ⟨fun h => ?_, fun h => absurd block h.2⟩
      exfalso
      by_cases context : ctx.rows = candidateRows C key
      · rw [if_neg (by simp [context])] at h
        cases hsegs : finishSegments .simple s.client key (s.client.lookups ctx responses)
            ⟨List.replicate p.valueSizeInBytes 0, false⟩ with
        | none =>
            rw [hsegs] at h
            cases h
        | some out =>
            rw [hsegs] at h
            cases out with
            | error e =>
                obtain ⟨segment, row, offset, rfl⟩ := finishSegments_error hsegs
                cases h
            | ok sel =>
                dsimp only at h
                by_cases found : sel.foundMask = true
                · rw [if_pos found] at h
                  cases hdec : s.client.valueCodec.decode key sel.acc with
                  | found b =>
                      rw [hdec] at h
                      cases h
                  | decodeFailed =>
                      rw [hdec] at h
                      cases h
                  | notFound =>
                      rw [hdec] at h
                      cases hstrict : s.strictNotFound <;> simp [balanceOf, hstrict] at h
                · rw [if_neg found] at h
                  cases hstrict : s.strictNotFound <;> simp [balanceOf, hstrict] at h
      · rw [if_pos context] at h
        cases h
    · rw [if_pos block]
      exact ⟨fun _ => ⟨counts, block⟩, fun _ => rfl⟩

/-- Two attempts that leave sessions alike, the same replies, and agree on having stalled. -/
structure Indistinct (out out' : Ran T C B Balance) : Prop where
  alike : Alike out.1 out'.1
  replies : out.2.1 = out'.2.1
  stalled : out.2.2 = .error (.failed .stalled) ↔ out'.2.2 = .error (.failed .stalled)

theorem answerRequest_visible (epoch : String) {queries queries' : List Query}
    (same : queries.map (fun q => q.b.length) = queries'.map fun q => q.b.length) :
    (answerRequest epoch queries).visible = (answerRequest epoch queries').visible := by
  simp only [answerRequest, Sent.visible, encodeQueryBundle_length same]

variable (coins coins' key key') in
/-- Attempts for two keys look the same from outside and leave the sessions alike. -/
theorem tryGetBalance_alike (placement : C.PlacementLaws) (server : B.ServerLaws)
    (client : B.ClientLaws) {s s' : Session C B} (alike : Alike s s') {replies : List (Reply T B)}
    (sound : ∀ reply ∈ replies, ∀ n modeHeader, reply = .served n modeHeader → Sound n.node) :
    Indistinct (tryGetBalance coins key s replies) (tryGetBalance coins' key' s' replies) ∧
      (tryGetBalanceSent coins key s replies).map Sent.visible =
        (tryGetBalanceSent coins' key' s' replies).map Sent.visible := by
  unfold tryGetBalance tryGetBalanceSent
  cases (next replies).head with
  | error halt => exact ⟨⟨alike, rfl, Iff.rfl⟩, rfl⟩
  | ok serverHead =>
      dsimp only
      have rest := syncTo_replies s serverHead replies.tail
      obtain ⟨after, same⟩ := syncTo_alike alike serverHead replies.tail
      rw [← syncToSent_alike alike]
      rcases hl : syncTo s serverHead replies.tail with ⟨s₁, replies₁, result⟩
      rcases hr : syncTo s' serverHead replies.tail with ⟨s₁', replies₁', result'⟩
      rw [hl, hr] at after same
      rw [hl] at rest
      dsimp only at after same rest
      cases same
      cases result with
      | error halt => exact ⟨⟨after, rfl, Iff.rfl⟩, rfl⟩
      | ok u =>
          cases after with
          | @mk client' clients =>
              have built := buildQuery_alike coins coins' key key' placement client clients
              have lengths : (s₁.client.buildQuery coins key).2.1.map (fun q => q.b.length) =
                  (client'.buildQuery coins' key').2.1.map fun q => q.b.length := by
                rw [buildQuery_lengths client, buildQuery_lengths client, built.params]
              have asking : Alike { s₁ with client := (s₁.client.buildQuery coins key).1 }
                  { s₁ with client := (client'.buildQuery coins' key').1 } :=
                .mk { s₁ with client := _ } built
              have word : ∀ q ∈ (s₁.client.buildQuery coins key).2.1, q.b.length < 2 ^ 64 := by
                intro q hq
                have mem := List.mem_map_of_mem (f := fun q : Query => q.b.length) hq
                rw [buildQuery_lengths client, List.map_map] at mem
                obtain ⟨st, hst, heq⟩ := List.mem_map.mp mem
                exact heq ▸ built.rows st hst
              have sound₁ : ∀ n modeHeader, next replies₁ = .served n modeHeader → Sound n.node := by
                intro n modeHeader served
                have mem := next_mem served
                rw [rest] at mem
                exact sound _ (List.mem_of_mem_tail (List.mem_of_mem_drop mem)) n modeHeader rfl
              have posted := answerRequest_visible s₁.epoch lengths
              dsimp only
              rcases awaitAnswer_alike server asking lengths word sound₁ with
                ⟨halt, left, right⟩ | ⟨responses, responses', atBlock, left, right, count⟩
              · rw [left, right]
                refine ⟨⟨asking, rfl, Iff.rfl⟩, ?_⟩
                simp only [List.map_cons, List.map_append, posted]
              · rw [left, right]
                dsimp only
                rw [← syncToSent_alike asking]
                refine ⟨?_, by simp only [List.map_cons, List.map_append, posted]⟩
                obtain ⟨after, same⟩ := syncTo_alike asking atBlock replies₁.tail
                rcases hl' : syncTo { s₁ with client := (s₁.client.buildQuery coins key).1 } atBlock
                    replies₁.tail with ⟨s₂, replies₂, result⟩
                rcases hr' : syncTo { s₁ with client := (client'.buildQuery coins' key').1 } atBlock
                    replies₁.tail with ⟨s₂', replies₂', result'⟩
                rw [hl', hr'] at after same
                dsimp only at after same
                cases same
                cases result with
                | error halt => exact ⟨after, rfl, Iff.rfl⟩
                | ok u =>
                    refine ⟨after, rfl, ?_⟩
                    dsimp only
                    have asked : (s₁.client.buildQuery coins key).2.2.queries.length =
                        (client'.buildQuery coins' key').2.2.queries.length := by
                      have h := congrArg List.length lengths
                      rw [List.length_map, List.length_map] at h
                      exact h
                    have rows : (s₁.client.buildQuery coins key).2.2.rows.length =
                        (client'.buildQuery coins' key').2.2.rows.length :=
                      (candidateRows_length key placement).trans
                        (candidateRows_length key' placement).symm
                    have head : s₂.client.delta.head = s₂'.client.delta.head := by
                      cases after with
                      | mk after => exact congrArg PendingDelta.head after.delta
                    rw [finishLookup_stalled_iff, finishLookup_stalled_iff, count, asked, rows, head]

end Alike

/-- Two sessions of one geometry that differ at most in their clients' secrets. -/
inductive SessionsAlike : AnySession T B → AnySession T B → Prop
  | mk {p : CuckooParams} {s s' : Session (T p) B} (alike : Alike s s') :
      SessionsAlike ⟨p, s⟩ ⟨p, s'⟩

structure EthAlike (eth eth' : PrivateEth T B) : Prop where
  sessions : SessionsAlike eth.session eth'.session
  slot : eth.lastRebootstrap = eth'.lastRebootstrap
  codec : eth.valueCodec = eth'.valueCodec

/-- A node as an honest operator runs it. -/
structure Honest (n : AnyNode T B) : Prop where
  sound : Sound n.node
  rows : ∀ sp ∈ n.node.setupBytes.2.backendParams, sp.reshapeRows < 2 ^ 64

/-- Every reply that a node serves comes from an honest one. -/
def HonestReplies (replies : List (Reply T B)) : Prop :=
  ∀ reply ∈ replies, ∀ n modeHeader, reply = .served n modeHeader → Honest n

section Calls

variable {keccak256 : List UInt8 → List UInt8} {replies : List (Reply T B)}
  {coins₁ coins₂ coins₁' coins₂' : Nat → B.Coins} {key key' : AddressHash}

theorem HonestReplies.drop (honest : HonestReplies replies) (n : Nat) :
    HonestReplies (replies.drop n) :=
  fun reply mem => honest reply (List.mem_of_mem_drop mem)

/-- A fresh session is alike to itself. -/
theorem fromBundle_alike (client : B.ClientLaws) (keccak256 : List UInt8 → List UInt8)
    (bundle : SetupBundle) (codec : ValueCodec) (complete : Bool)
    (rows : ∀ sp ∈ bundle.backendParams, sp.reshapeRows < 2 ^ 64) :
    SessionsAlike (.fromBundle T B keccak256 bundle codec complete)
      (.fromBundle T B keccak256 bundle codec complete) := by
  refine .mk (.mk _ ⟨rfl, rfl, rfl, rfl, fun st hst => ?_⟩)
  change st ∈ List.zipWith B.clientSetup bundle.backendParams bundle.hints at hst
  obtain ⟨j, hj, rfl⟩ := List.getElem_of_mem hst
  rw [List.getElem_zipWith, client.setup_params]
  exact rows _ (List.getElem_mem _)

variable (coins₁ coins₂ key key') in
theorem attempt_alike (placement : ∀ p, (T p).PlacementLaws) (server : B.ServerLaws)
    (client : B.ClientLaws) {eth eth' : PrivateEth T B} (alike : EthAlike eth eth')
    (honest : HonestReplies replies) :
    EthAlike (eth.attempt coins₁ key replies).1 (eth'.attempt coins₂ key' replies).1 ∧
      (eth.attempt coins₁ key replies).2.1 = (eth'.attempt coins₂ key' replies).2.1 ∧
      ((eth.attempt coins₁ key replies).2.2 = .error (.failed .stalled) ↔
        (eth'.attempt coins₂ key' replies).2.2 = .error (.failed .stalled)) ∧
      (tryGetBalanceSent coins₁ key eth.session.session replies).map Sent.visible =
        (tryGetBalanceSent coins₂ key' eth'.session.session replies).map Sent.visible := by
  obtain ⟨session, slot, codec⟩ := eth
  obtain ⟨session', slot', codec'⟩ := eth'
  obtain ⟨sessions, rfl, rfl⟩ := alike
  cases sessions with
  | @mk p s s' alike =>
      obtain ⟨indistinct, sent⟩ := tryGetBalance_alike coins₁ coins₂ key key' (placement p) server client
        alike fun reply mem n modeHeader served => (honest reply mem n modeHeader served).sound
      exact ⟨⟨.mk indistinct.alike, rfl, rfl⟩, indistinct.replies, indistinct.stalled, sent⟩

theorem takeRebootstrapSlot_alike {eth eth' : PrivateEth T B} (alike : EthAlike eth eth') (now : Nat) :
    EthAlike (eth.takeRebootstrapSlot now).1 (eth'.takeRebootstrapSlot now).1 ∧
      (eth.takeRebootstrapSlot now).2 = (eth'.takeRebootstrapSlot now).2 := by
  obtain ⟨session, slot, codec⟩ := eth
  obtain ⟨session', slot', codec'⟩ := eth'
  obtain ⟨sessions, rfl, rfl⟩ := alike
  cases slot with
  | none => exact ⟨⟨sessions, rfl, rfl⟩, rfl⟩
  | some prev =>
      unfold PrivateEth.takeRebootstrapSlot
      dsimp only
      by_cases recent : now - prev < REBOOTSTRAP_COOLDOWN
      · rw [if_pos recent, if_pos recent]
        exact ⟨⟨sessions, rfl, rfl⟩, rfl⟩
      · rw [if_neg recent, if_neg recent]
        exact ⟨⟨sessions, rfl, rfl⟩, rfl⟩

variable (keccak256) in
theorem rebootstrap_alike (client : B.ClientLaws) {eth eth' : PrivateEth T B}
    (alike : EthAlike eth eth') (honest : HonestReplies replies) :
    EthAlike (eth.rebootstrap keccak256 replies).1 (eth'.rebootstrap keccak256 replies).1 ∧
      (eth.rebootstrap keccak256 replies).2 = (eth'.rebootstrap keccak256 replies).2 := by
  obtain ⟨session, slot, codec⟩ := eth
  obtain ⟨session', slot', codec'⟩ := eth'
  obtain ⟨sessions, rfl, rfl⟩ := alike
  unfold PrivateEth.rebootstrap
  cases hreply : next replies with
  | cancelled => exact ⟨⟨sessions, rfl, rfl⟩, rfl⟩
  | failed e => exact ⟨⟨sessions, rfl, rfl⟩, rfl⟩
  | served n modeHeader =>
      have rows := (honest _ (next_mem hreply) n modeHeader rfl).rows
      dsimp only [Reply.setupWithMode]
      rcases PrivateEth.modeOf (if modeHeader = true then some n.node.complete else none)
          replies.tail with ⟨rest, halt | complete⟩
      · exact ⟨⟨sessions, rfl, rfl⟩, rfl⟩
      · exact ⟨⟨fromBundle_alike client keccak256 _ codec complete rows, rfl, rfl⟩, rfl⟩

variable (keccak256 coins₁') in
/-- Without a stall the first attempt is the whole call. -/
private theorem getBalance_done {eth : PrivateEth T B} (now : Nat)
    (done : (eth.attempt coins₁ key replies).2.2 ≠ .error (.failed .stalled)) :
    eth.getBalance keccak256 coins₁ coins₁' now key replies = eth.attempt coins₁ key replies ∧
      getBalanceSent keccak256 coins₁ coins₁' now key eth replies =
        tryGetBalanceSent coins₁ key eth.session.session replies := by
  unfold PrivateEth.getBalance getBalanceSent
  rcases hattempt : eth.attempt coins₁ key replies with ⟨eth₁, rest, (_ | _ | err) | b⟩
  · exact ⟨rfl, List.append_nil _⟩
  · exact ⟨rfl, List.append_nil _⟩
  · cases err with
    | stalled =>
        rw [hattempt] at done
        exact absurd rfl done
    | pir e => exact ⟨rfl, List.append_nil _⟩
    | client e => exact ⟨rfl, List.append_nil _⟩
    | decodeFailed => exact ⟨rfl, List.append_nil _⟩
    | notInTrackedSet => exact ⟨rfl, List.append_nil _⟩
  · exact ⟨rfl, List.append_nil _⟩

theorem getBalance_alike (placement : ∀ p, (T p).PlacementLaws) (server : B.ServerLaws)
    (client : B.ClientLaws) {eth eth' : PrivateEth T B} (alike : EthAlike eth eth')
    (honest : HonestReplies replies) (now : Nat) :
    EthAlike (eth.getBalance keccak256 coins₁ coins₁' now key replies).1
        (eth'.getBalance keccak256 coins₂ coins₂' now key' replies).1 ∧
      (getBalanceSent keccak256 coins₁ coins₁' now key eth replies).map Sent.visible =
        (getBalanceSent keccak256 coins₂ coins₂' now key' eth' replies).map Sent.visible := by
  obtain ⟨after, same, stalled, sent⟩ := attempt_alike coins₁ coins₂ key key' placement server
    client alike honest
  by_cases again : (eth.attempt coins₁ key replies).2.2 = .error (.failed .stalled)
  · have first := attempt_replies coins₁ key eth replies
    have again' := stalled.mp again
    unfold PrivateEth.getBalance getBalanceSent
    rw [List.map_append, List.map_append, sent]
    rcases hl : eth.attempt coins₁ key replies with ⟨eth₁, rest, result⟩
    rcases hr : eth'.attempt coins₂ key' replies with ⟨eth₁', rest', result'⟩
    rw [hl, hr] at after same
    rw [hl] at first again
    rw [hr] at again'
    dsimp only at after same first again again'
    subst same again again'
    dsimp only
    obtain ⟨slots, taken⟩ := takeRebootstrapSlot_alike after now
    rcases hl' : eth₁.takeRebootstrapSlot now with ⟨eth₂, slot⟩
    rcases hr' : eth₁'.takeRebootstrapSlot now with ⟨eth₂', slot'⟩
    rw [hl', hr'] at slots taken
    dsimp only at slots taken
    subst taken
    cases slot with
    | false => exact ⟨slots, rfl⟩
    | true =>
        dsimp only
        have fresh := rebootstrap_replies keccak256 eth₂ rest
        have honest₁ : HonestReplies rest := first ▸ honest.drop _
        obtain ⟨booted, same⟩ := rebootstrap_alike keccak256 client slots honest₁
        rcases hl'' : eth₂.rebootstrap keccak256 rest with ⟨eth₃, rest₃, result⟩
        rcases hr'' : eth₂'.rebootstrap keccak256 rest with ⟨eth₃', rest₃', result'⟩
        rw [hl'', hr''] at booted same
        rw [hl''] at fresh
        dsimp only at booted same fresh
        cases same
        cases result with
        | error halt => exact ⟨booted, rfl⟩
        | ok u =>
            obtain ⟨done, -, -, resent⟩ := attempt_alike coins₁' coins₂' key key' placement
              server client booted (fresh ▸ honest₁.drop _)
            refine ⟨done, ?_⟩
            dsimp only
            rw [List.map_append, List.map_append, resent]
  · obtain ⟨whole, all⟩ := getBalance_done keccak256 coins₁' now again
    obtain ⟨whole', all'⟩ := getBalance_done keccak256 coins₂' now (mt stalled.mpr again)
    rw [whole, whole', all, all']
    exact ⟨after, sent⟩

variable (replies) in
theorem followOnce_alike {eth eth' : PrivateEth T B} (alike : EthAlike eth eth') :
    EthAlike (eth.followOnce replies).1 (eth'.followOnce replies).1 ∧
      followOnceSent eth replies = followOnceSent eth' replies := by
  obtain ⟨session, slot, codec⟩ := eth
  obtain ⟨session', slot', codec'⟩ := eth'
  obtain ⟨sessions, rfl, rfl⟩ := alike
  cases sessions with
  | @mk p s s' alike =>
      unfold PrivateEth.followOnce followOnceSent
      cases (next replies).head with
      | error halt => exact ⟨⟨.mk alike, rfl, rfl⟩, rfl⟩
      | ok head =>
          dsimp only
          have synced := (syncTo_alike alike head replies.tail).1
          have pending : s.pendingHead = s'.pendingHead := by
            cases alike with
            | mk clients => rfl
          rw [syncToSent_alike alike, ← pending]
          by_cases near : head ≤ s.pendingHead
          · rw [if_pos near, if_pos near]
            exact ⟨⟨.mk alike, rfl, rfl⟩, rfl⟩
          · rw [if_neg near, if_neg near]
            exact ⟨⟨.mk synced, rfl, rfl⟩, rfl⟩

end Calls

/-- Two calls for possibly different accounts and with different secrets, in the same world. -/
inductive SameButKey : Call T B → Call T B → Prop
  | getBalance (key key' : AddressHash) (coins₁ coins₁' coins₂ coins₂' : Nat → B.Coins) (now : Nat)
      (replies : List (Reply T B)) :
      SameButKey (.getBalance key coins₁ coins₁' now replies)
        (.getBalance key' coins₂ coins₂' now replies)
  | followOnce (replies : List (Reply T B)) : SameButKey (.followOnce replies) (.followOnce replies)

section Run

variable {keccak256 : List UInt8 → List UInt8} {eth eth' : PrivateEth T B}

variable (keccak256) in
/-- A call for one key looks like a call for any other, and leaves the sessions alike. -/
theorem call_alike (placement : ∀ p, (T p).PlacementLaws) (server : B.ServerLaws)
    (client : B.ClientLaws) (alike : EthAlike eth eth') {call call' : Call T B}
    (same : SameButKey call call') (honest : HonestReplies call.awaits) :
    EthAlike (call.perform keccak256 eth) (call'.perform keccak256 eth') ∧
      (callSent keccak256 eth call).map Sent.visible =
        (callSent keccak256 eth' call').map Sent.visible := by
  cases same with
  | getBalance key key' coins₁ coins₁' coins₂ coins₂' now replies =>
      exact getBalance_alike placement server client alike honest now
  | followOnce replies =>
      obtain ⟨after, sent⟩ := followOnce_alike replies alike
      exact ⟨after, congrArg (List.map Sent.visible) sent⟩

theorem traffic_alike (placement : ∀ p, (T p).PlacementLaws) (server : B.ServerLaws)
    (client : B.ClientLaws) (alike : EthAlike eth eth') {calls calls' : List (Call T B)}
    (same : List.Forall₂ SameButKey calls calls')
    (honest : ∀ call ∈ calls, HonestReplies call.awaits) :
    (traffic keccak256 eth calls).map Sent.visible =
      (traffic keccak256 eth' calls').map Sent.visible := by
  induction same generalizing eth eth' with
  | nil => rfl
  | cons first rest ih =>
      obtain ⟨after, sent⟩ := call_alike keccak256 placement server client alike first
        (honest _ (by simp))
      rw [traffic, traffic, List.map_append, List.map_append, sent,
        ih after fun call mem => honest call (List.mem_cons_of_mem _ mem)]

end Run

/-- From one bootstrap on, calls that differ in the accounts they ask for, and in the secrets
they draw, send the same requests with bodies of the same lengths, however the world answers:
through every sync, failure, stall, re-bootstrap and second attempt. -/
theorem traffic_hides_key (placement : ∀ p, (T p).PlacementLaws) (server : B.ServerLaws)
    (client : B.ClientLaws) {keccak256 : List UInt8 → List UInt8} {first : AnyNode T B}
    (honest : Honest first) (complete : Bool) (codec : ValueCodec) {calls calls' : List (Call T B)}
    (same : List.Forall₂ SameButKey calls calls')
    (replies : ∀ call ∈ calls, HonestReplies call.awaits) :
    (traffic keccak256 (.fromSetup T B keccak256 first.node.setupBytes.2 complete codec) calls).map
        Sent.visible =
      (traffic keccak256 (.fromSetup T B keccak256 first.node.setupBytes.2 complete codec) calls').map
        Sent.visible :=
  traffic_alike placement server client
    ⟨fromBundle_alike client keccak256 _ codec complete honest.rows, rfl, rfl⟩ same replies

private def askedNode : AnyNode referenceTable referencePir := ⟨smallParams, smallNode⟩

private theorem askedNode_honest : Honest askedNode where
  sound := ⟨(smallServer_hintsMatch 0).1, by decide⟩
  rows := by decide

private def secretOf (x : BitVec 32) (_ : Nat) : referencePir.Coins := Coins.mk 0 [x]

private def served (n : Nat) : List (Reply referenceTable referencePir) :=
  List.replicate n (.served askedNode true)

private def askingFor (key : AddressHash) (x : BitVec 32) : List (Call referenceTable referencePir) :=
  [.getBalance key (secretOf x) (secretOf x) 0 (served 2), .followOnce (served 1)]

private def asked : PrivateEth referenceTable referencePir :=
  .fromSetup referenceTable referencePir smallDigest askedNode.node.setupBytes.2 true smallCodec

/-- Two accounts in different rows: other bytes, the same sizes. -/
theorem traffic_hides_key_rows :
    traffic smallDigest asked (askingFor (smallKey 3 1 0 0) 5) ≠
        traffic smallDigest asked (askingFor (smallKey 4 2 1 1) 9) ∧
      (traffic smallDigest asked (askingFor (smallKey 3 1 0 0) 5)).length = 3 ∧
      (traffic smallDigest asked (askingFor (smallKey 3 1 0 0) 5)).map Sent.visible =
        (traffic smallDigest asked (askingFor (smallKey 4 2 1 1) 9)).map Sent.visible := by
  have same : List.Forall₂ SameButKey (askingFor (smallKey 3 1 0 0) 5)
      (askingFor (smallKey 4 2 1 1) 9) :=
    .cons (.getBalance _ _ _ _ _ _ _ _) (.cons (.followOnce _) .nil)
  have replies : ∀ call ∈ askingFor (smallKey 3 1 0 0) 5, HonestReplies call.awaits := by
    intro call hcall reply hreply n modeHeader hserved
    have from_node : ∀ k, reply ∈ served k → Honest n := by
      intro k mem
      rw [List.eq_of_mem_replicate mem] at hserved
      cases hserved
      exact askedNode_honest
    simp only [askingFor, List.mem_cons, List.not_mem_nil, or_false] at hcall
    rcases hcall with rfl | rfl
    · exact from_node 2 hreply
    · exact from_node 1 hreply
  exact ⟨by decide +kernel, by decide +kernel, traffic_hides_key placementLaws serverLaws clientLaws
    askedNode_honest true smallCodec same replies⟩

end RisePir.Rpc.Traffic
