import RisePir.Web.Conversation

set_option autoImplicit false
set_option relaxedAutoImplicit false

/-! Whole runs of a browser session: a session stays usable exactly as long as every query that
it builds is answered from where the session can follow. -/

namespace RisePir.Web.Usability

open RisePir.Lib.Digits
open RisePir.Proto.Codec
open RisePir.Proto.Types
open RisePir.Proto.Value
open RisePir.Upstream.Cuckoo
open RisePir.Upstream.Pir
open RisePir.Upstream.ReferencePir
open RisePir.Upstream.ReferenceTable
open RisePir.Client.Core
open RisePir.Client.EndToEnd
open RisePir.Client.Lookup
open RisePir.Server.Core
open RisePir.Server.Small
open RisePir.Http.Bundles
open RisePir.Http.Node
open RisePir.Http.Wire
open RisePir.Rpc.Epochs
open RisePir.Rpc.Following
open RisePir.Rpc.Front hiding parseAddress Outcome
open RisePir.Rpc.NativeSession (AnyNode AnySession Tables)
open RisePir.Wasm.BrowserSession
open RisePir.Web.Conversation
open RisePir.Web.PirSession

variable {T : Tables} {B : PirBackend} {keccak256 : List UInt8 → List UInt8} {codec : ValueCodec}
  {L : Lineage T B keccak256 codec} {complete : Bool}

/-- A later call can build its query, and gets the account's outcome if the nodes respond. -/
def Usable (L : Lineage T B keccak256 codec) (complete : Bool) (s : Session (T L.params) B) : Prop :=
  (∀ coins addr, addr.length = 20 → ∃ s' query, s.buildQuery keccak256 coins addr = (s', .ok query)) ∧
    ∀ call reached, FairCall L complete call → (parseAddress call.address).isSome = true →
      Asks s call reached → Answers s call reached →
        ∃ result, (getBalance keccak256 s call).2 = .ok result ∧
          ReadsAccount complete keccak256 call result

theorem accountOutcome (placementLaws : ∀ p, (T p).PlacementLaws) (complete : Bool) (n : AnyNode T B)
    (key : AddressHash) :
    AccountOutcome complete (n.node.server.balanceOf key)
      (Session.outcomeOf complete (lookedUp n key)) := by
  obtain ⟨found, absent, corrupt⟩ := scanResult_balanceOf (placementLaws _) n.node.server key
  refine ⟨fun b held => ?_, fun held => ?_, fun held => ?_⟩
  · rw [lookedUp, found b held]
    rfl
  · rw [lookedUp, absent held]
    rfl
  · rw [lookedUp, corrupt held]
    rfl

/-- A session made of a bundle that a node of the lineage hands out follows the lineage. -/
theorem follows_start (logLaws : ∀ p, (T p).LogLaws) (pir : B.Lawful) {node : NodeState (T L.params) B}
    {k : Nat} (holds : L.Holds node k) :
    ∃ i j, Follows L node.complete (following (.fromBundle (T L.params) B keccak256 codec
      node.setupBytes.2 node.complete)) i j := by
  obtain ⟨s, i, j, made, follows⟩ := follows_fromBundle logLaws pir
    (n := ⟨L.params, node⟩) ⟨node, k, rfl, holds, rfl⟩
  obtain ⟨m, -, bundle⟩ := holds_bundle holds
  dsimp only at made
  rw [bundle] at made ⊢
  obtain rfl : _ = s := by
    injection made
  exact ⟨i, j, follows⟩

theorem asks_unique {s : Session (T L.params) B} {call : BalanceCall T B} {reached reached' : Nat}
    (h : Asks s call reached) (h' : Asks s call reached') : reached = reached' := by
  obtain ⟨-, n, served, rfl, -⟩ := h
  obtain ⟨-, n', served', rfl, -⟩ := h'
  cases served.symm.trans served'
  rfl

theorem idle_of_usable {s : Session (T L.params) B} (usable : Usable L complete s)
    (coins : Nat → B.Coins) : s.inFlight = none := by
  by_contra hslot
  have busy : s.inFlight.isSome = true := Option.isSome_iff_ne_none.mpr hslot
  obtain ⟨s', query, built⟩ := usable.1 coins (List.replicate 20 0) (by simp)
  rw [buildQuery_busy busy] at built
  cases built

/-- Before the lineage a free slot is all that a later call needs. -/
theorem usable_of_idle (logLaws : ∀ p, (T p).LogLaws) (placementLaws : ∀ p, (T p).PlacementLaws)
    (pir : B.Lawful) {s : Session (T L.params) B} {i j : Nat} (h : Follows L complete (following s) i j)
    (idle : s.inFlight = none) : Usable L complete s := by
  refine ⟨fun coins addr length => ⟨_, _, buildQuery_idle idle coins length⟩, ?_⟩
  intro call reached fair parsed asks answers
  obtain ⟨s', r, -, -, step, -, went⟩ :=
    getBalance_spec logLaws placementLaws pir h fair
  rw [step]
  cases went with
  | unasked slot unbuilt =>
      rcases unbuilt with busy | unbuilt
      · rw [idle] at busy
        cases busy
      · exact absurd asks (unbuilt reached parsed)
  | left idle parsed asks' unanswered kept =>
      rw [asks_unique asks asks'] at answers
      exact absurd answers unanswered
  | @finished reached' addr n idle haddr asks' answers' released served =>
      exact ⟨_, rfl, addr, n, haddr, served, rfl, accountOutcome placementLaws complete n _⟩

/-- Along a run every result is the account's outcome, a slot once left stays, and a free slot
is free at the end exactly when every call was settled. -/
theorem run_spec (logLaws : ∀ p, (T p).LogLaws) (placementLaws : ∀ p, (T p).PlacementLaws)
    (pir : B.Lawful) {calls : List (BalanceCall T B)} (fair : ∀ call ∈ calls, FairCall L complete call)
    {s : Session (T L.params) B} (h : ∃ i j, Follows L complete (following s) i j) :
    AtEach keccak256 (fun s call => ∀ result, (getBalance keccak256 s call).2 = .ok result →
        ReadsAccount complete keccak256 call result) s calls ∧
      ∃ s', run keccak256 (some s) calls = some s' ∧ (∃ i j, Follows L complete (following s') i j) ∧
        (s.inFlight.isSome = true → s'.inFlight.isSome = true) ∧
        (s.inFlight = none → (s'.inFlight = none ↔ AtEach keccak256 Settled s calls)) := by
  induction calls generalizing s with
  | nil => exact ⟨trivial, s, rfl, h, id, fun idle => iff_of_true idle trivial⟩
  | cons call rest ih =>
      obtain ⟨i, j, follows⟩ := h
      obtain ⟨s₁, r, i₁, j₁, step, follows₁, went⟩ :=
        getBalance_spec logLaws placementLaws pir follows (fair call (by simp))
      obtain ⟨reads, s', ran, follows', busy, settled⟩ :=
        ih (fun c hc => fair c (by simp [hc])) ⟨i₁, j₁, follows₁⟩
      have next : ∀ P, AtEach keccak256 P s (call :: rest) ↔ P s call ∧ AtEach keccak256 P s₁ rest := by
        intro P
        rw [AtEach, step]
        simp
      have runs : run keccak256 (some s) (call :: rest) = some s' := by
        rw [run, List.foldl_cons, Option.bind_some, step]
        exact ran
      refine ⟨(next _).mpr ⟨fun result ok => ?_, reads⟩, s', runs, follows', ?_⟩
      · rw [step] at ok
        dsimp only at ok
        cases went with
        | unasked slot unbuilt => cases ok
        | left idle parsed asks unanswered kept => cases ok
        | @finished reached addr n idle haddr asks answers released served =>
            cases ok
            exact ⟨addr, n, haddr, served, rfl, accountOutcome placementLaws complete n _⟩
      · cases went with
        | unasked slot unbuilt =>
            rw [slot] at busy settled
            refine ⟨busy, fun idle => ?_⟩
            rw [next, settled idle, and_iff_right]
            intro reached parsed asks
            rcases unbuilt with filled | unbuilt
            · rw [idle] at filled
              cases filled
            · exact absurd asks (unbuilt reached parsed)
        | left idle parsed asks unanswered kept =>
            refine ⟨fun _ => busy kept, fun _ => ?_⟩
            rw [next]
            refine iff_of_false ?_ fun all => unanswered (all.1 _ parsed asks)
            exact Option.isSome_iff_ne_none.mp (busy kept)
        | finished idle haddr asks answers released served =>
            refine ⟨fun filled => ?_, fun _ => ?_⟩
            · rw [idle] at filled
              cases filled
            · rw [next, settled released, and_iff_right]
              intro reached' parsed asks'
              rw [asks_unique asks' asks]
              exact answers

/-- On whatever session, a result comes of the reply to the call's own query, finished at the
block that the reply names. In a run before one lineage, from any bundle of it, every result is
the account's outcome at the node that answered; and the session is usable after the run exactly
when each call that got as far as its query had it answered from a block that the session stood
at or was then synced to. -/
theorem usable_iff_settled (logLaws : ∀ p, (T p).LogLaws) (placementLaws : ∀ p, (T p).PlacementLaws)
    (pir : B.Lawful) {node : NodeState (T L.params) B} {k : Nat} (holds : L.Holds node k)
    {calls : List (BalanceCall T B)} (fair : ∀ call ∈ calls, FairCall L node.complete call) :
    (∀ (p : CuckooParams) (C : SegmentedCuckoo p) (s : Session C B) (call : BalanceCall T B) result,
        (getBalance keccak256 s call).2 = .ok result → Paired keccak256 s call result) ∧
      let start : Session (T L.params) B :=
        .fromBundle (T L.params) B keccak256 codec node.setupBytes.2 node.complete
      AtEach keccak256 (fun s call => ∀ result, (getBalance keccak256 s call).2 = .ok result →
          ReadsAccount node.complete keccak256 call result) start calls ∧
        ∃ s, run keccak256 (some start) calls = some s ∧
          (Usable L node.complete s ↔ AtEach keccak256 Settled start calls) := by
  refine ⟨fun p C s call result => getBalance_paired, ?_⟩
  intro start
  obtain ⟨reads, s, ran, ⟨i, j, follows⟩, -, settled⟩ :=
    run_spec logLaws placementLaws pir fair (follows_start logLaws pir holds)
  refine ⟨reads, s, ran, fun usable => ?_, fun all => ?_⟩
  · cases calls with
    | nil => trivial
    | cons call rest => exact (settled rfl).mp (idle_of_usable usable call.coins)
  · exact usable_of_idle logLaws placementLaws pir follows ((settled rfl).mpr all)

/-- The browser's session at block 1 of the small deployment. -/
private def page : Session (referenceTable smallParams) referencePir :=
  .fromBundle _ _ frontDigest smallCodec nodeAtOne.setupBytes.2 nodeAtOne.complete

private def atOne : Reply referenceTable referencePir := .served ⟨smallParams, nodeAtOne⟩

private def answeredCall : BalanceCall referenceTable referencePir :=
  ⟨account, callerCoins, atOne, .silent, atOne, .silent⟩

/-- The same call, but `POST /answer` never comes back. -/
private def lostCall : BalanceCall referenceTable referencePir :=
  ⟨account, callerCoins, atOne, .silent, .silent, .silent⟩

private def busyPage : Session (referenceTable smallParams) referencePir :=
  { page with
    client := (page.client.buildQuery callerCoins accountKey).1
    inFlight := some ⟨accountKey, (page.client.buildQuery callerCoins accountKey).2.2, none⟩ }

/-- A lookup whose answer times out is not a stale setup, yet no later call on that session
builds a query: the next one fails where a fresh session returns the balance. -/
theorem timed_out_answer_wedges : (getBalance frontDigest page answeredCall).2 = .ok ⟨.found, some 5, 1⟩ ∧
    getBalance frontDigest page lostCall = (some busyPage,
      .error (.timeout s!"POST /answer?epoch={page.epoch}: no response for 45s")) ∧
    (∀ coins addr, (busyPage.buildQuery frontDigest coins addr).2 = .error .queryAlreadyInFlight) ∧
    (getBalance frontDigest busyPage answeredCall).2 = .error (.pirError
      ("a query is already in flight; finish it before building another " ++
        "(one in-flight query per segment)")) := by
  refine ⟨rfl, rfl, fun coins addr => ?_, rfl⟩
  rw [buildQuery_busy rfl]

private theorem nodeAtOne_holds : frontLineage.Holds nodeAtOne 1 :=
  ⟨by decide, rfl, rfl, by decide, fun _ h => by cases h⟩

private theorem pageCalls_fair : ∀ call ∈ [answeredCall, lostCall, answeredCall],
    FairCall frontLineage nodeAtOne.complete call := by
  have answered : FairCall frontLineage nodeAtOne.complete answeredCall :=
    ⟨nodeAtOne_onLineage, trivial, nodeAtOne_onLineage, trivial⟩
  have lost : FairCall frontLineage nodeAtOne.complete lostCall :=
    ⟨nodeAtOne_onLineage, trivial, trivial, trivial⟩
  simp [answered, lost]

/-- An answered call, a lost one, and one more. -/
theorem usable_iff_settled_page :
    AtEach frontDigest (fun s call => ∀ result, (getBalance frontDigest s call).2 = .ok result →
        ReadsAccount true frontDigest call result) page [answeredCall, lostCall, answeredCall] ∧
      ∃ s, run frontDigest (some page) [answeredCall, lostCall, answeredCall] = some s ∧
        (Usable frontLineage true s ↔
          AtEach frontDigest Settled page [answeredCall, lostCall, answeredCall]) :=
  (usable_iff_settled logLaws placementLaws lawful nodeAtOne_holds pageCalls_fair).2

end RisePir.Web.Usability
