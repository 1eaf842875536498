import Mathlib.Data.List.DropRight
import RisePir.Rpc.Mainnet

set_option autoImplicit false
set_option relaxedAutoImplicit false

/-! What the node records of each checkpoint, and when and with which cause a streak of dark and
deferred ones escalates. The cause is read off two counters that are reset by different rules. -/

namespace RisePir.Rpc.Escalation

open RisePir.Rpc.Mainnet

def DARK_ESCALATION_THRESHOLD : Nat := 20

structure ReconcileHealth where
  configured : Bool
  lastCheckpointBlock : Nat
  lastCheckpointUnix : Nat
  lastSuccessBlock : Nat
  lastSuccessUnix : Nat
  comparisonsTotal : Nat
  checkpointsTotal : Nat
  consecutiveDark : Nat
  halted : Bool
  deferredTotal : Nat
  consecutiveDeferred : Nat
  reservoirChecksTotal : Nat
  reservoirLen : Nat
  deriving DecidableEq, Repr

namespace ReconcileHealth

/-- `Default`. -/
def init : ReconcileHealth := ⟨false, 0, 0, 0, 0, 0, 0, 0, false, 0, 0, 0, 0⟩

/-- `record_reconcile_checkpoint`. -/
def recordReconcileCheckpoint (now : Nat) (h : ReconcileHealth) (block checked : Nat)
    (dark deferred : Bool) : ReconcileHealth :=
  let h := { h with
    lastCheckpointBlock := block
    lastCheckpointUnix := now
    checkpointsTotal := h.checkpointsTotal + 1
    comparisonsTotal := h.comparisonsTotal + checked }
  let h := if deferred then { h with deferredTotal := h.deferredTotal + 1 } else h
  if 0 < checked then
    { h with
      lastSuccessBlock := block
      lastSuccessUnix := now
      consecutiveDark := 0
      consecutiveDeferred := 0 }
  else if dark ∨ deferred then
    { h with
      consecutiveDark := h.consecutiveDark + 1
      consecutiveDeferred := if deferred then h.consecutiveDeferred + 1 else 0 }
  else h

end ReconcileHealth

def shouldEscalate (consecutiveDark : Nat) : Bool :=
  0 < consecutiveDark ∧ DARK_ESCALATION_THRESHOLD ∣ consecutiveDark

/-- What an escalation blames. -/
inductive Cause
  | deferred
  | mixed
  | failed
  deriving DecidableEq, Repr

def Cause.text : Cause → String
  | .deferred => "every checkpoint in that streak was DEFERRED, not failed: this deployment is further " ++
      "behind the finalized head than the keyless reference provider serves, so no request has been " ++
      "sent to it at all. This is the expected shape of a deep catch-up (a re-bootstrap, or a long " ++
      "outage) and it clears by itself once the replay reaches the provider's window — no operator " ++
      "action, and no reason to suspect the provider"
  | .mixed => "that streak mixes deferred checkpoints (too far behind the reference provider to ask) " ++
      "with attempted-and-failed ones, so both catch-up lag and a provider problem are in play"
  | .failed => "every checkpoint in that streak attempted at least one comparison and every attempt " ++
      "failed — the independent reconcile provider appears unavailable"

/-- An escalation, as the `CRITICAL` line reports it. -/
structure Critical where
  checkpoints : Nat
  blocksDark : Nat
  lastSuccessBlock : Nat
  cause : Cause
  deriving DecidableEq, Repr

def Critical.line (e : Critical) : String :=
  s!"the reconcile integrity backstop has been dark for {e.checkpoints} checkpoint(s) " ++
    s!"(~{e.blocksDark} blocks) — no cross-provider comparison has succeeded since block " ++
    s!"{e.lastSuccessBlock} — {e.cause.text}; following continues regardless (a third-party outage " ++
    "must not become this deployment's outage), but the ingest path is running unverified until this " ++
    "clears"

def causeOf (health : ReconcileHealth) : Cause :=
  if health.consecutiveDark ≤ health.consecutiveDeferred then .deferred
  else if 0 < health.consecutiveDeferred then .mixed
  else .failed

/-- `maybe_escalate`. -/
def maybeEscalate (health : ReconcileHealth) (reconcileEvery : Nat) : Option Critical :=
  if shouldEscalate health.consecutiveDark then
    some ⟨health.consecutiveDark, min (health.consecutiveDark * reconcileEvery) (2 ^ 64 - 1),
      health.lastSuccessBlock, causeOf health⟩
  else none

/-- What `reconcile` knows of a checkpoint by the time it records it. -/
structure Checkpoint where
  now : Nat
  block : Nat
  candidates : Nat
  results : List SampleResult
  lag : Nat
  deriving DecidableEq, Repr

def Checkpoint.outcome (c : Checkpoint) : CheckpointOutcome :=
  classifyCheckpoint c.candidates c.results c.lag

/-- The recording and escalating of `reconcile`. -/
def record (reconcileEvery : Nat) (h : ReconcileHealth) (c : Checkpoint) :
    ReconcileHealth × Option Critical :=
  match c.outcome with
  | .deferred _ =>
      let h := h.recordReconcileCheckpoint c.now c.block 0 true true
      (h, maybeEscalate h reconcileEvery)
  | .empty => (h.recordReconcileCheckpoint c.now c.block 0 false false, none)
  | .success checked => (h.recordReconcileCheckpoint c.now c.block checked false false, none)
  | .dark _ =>
      let h := h.recordReconcileCheckpoint c.now c.block 0 true false
      (h, maybeEscalate h reconcileEvery)

/-- The record behind a run of checkpoints. -/
def health (reconcileEvery : Nat) (cs : List Checkpoint) : ReconcileHealth :=
  cs.foldl (fun h c => (record reconcileEvery h c).1) .init

/-- What the last checkpoint of a run escalates. -/
def escalation (reconcileEvery : Nat) (before : List Checkpoint) (c : Checkpoint) : Option Critical :=
  (record reconcileEvery (health reconcileEvery before) c).2

namespace Checkpoint

def Succeeded (c : Checkpoint) : Bool :=
  match c.outcome with
  | .success _ => true
  | _ => false

def Deferred (c : Checkpoint) : Bool :=
  match c.outcome with
  | .deferred _ => true
  | _ => false

def Dark (c : Checkpoint) : Bool :=
  match c.outcome with
  | .dark _ => true
  | _ => false

end Checkpoint

/-- The dark and deferred checkpoints since the last successful one. -/
def streak (cs : List Checkpoint) : List Checkpoint :=
  (cs.rtakeWhile fun c => !c.Succeeded).filter fun c => c.Dark || c.Deferred

/-- The counter counts the streak, an escalation falls on every positive multiple of the threshold,
and its cause is true of the streak. -/
structure TellsTruth (reconcileEvery : Nat) (cs : List Checkpoint) : Prop where
  counts : (health reconcileEvery cs).consecutiveDark = (streak cs).length
  fires : ∀ before c, cs = before ++ [c] → ((escalation reconcileEvery before c).isSome = true ↔
    (c.Dark || c.Deferred) = true ∧ 0 < (streak cs).length ∧
      DARK_ESCALATION_THRESHOLD ∣ (streak cs).length)
  deferred : ∀ before c e, cs = before ++ [c] → escalation reconcileEvery before c = some e →
    (e.cause = .deferred ↔ ∀ c ∈ streak cs, c.Deferred = true)
  failed : ∀ before c e, cs = before ++ [c] → escalation reconcileEvery before c = some e →
    (e.cause = .failed ↔ ∀ c ∈ streak cs, c.Dark = true)
  mixed : ∀ before c e, cs = before ++ [c] → escalation reconcileEvery before c = some e →
    (e.cause = .mixed ↔ (∃ c ∈ streak cs, c.Deferred = true) ∧ ∃ c ∈ streak cs, c.Dark = true)

section Streak

variable {reconcileEvery : Nat} {cs : List Checkpoint} {c : Checkpoint}

theorem success_pos {checked : Nat} (h : c.outcome = .success checked) : 0 < checked := by
  unfold Checkpoint.outcome classifyCheckpoint at h
  split_ifs at h with deep none_there some_matched
  cases h
  exact some_matched

theorem streak_succeeded (h : c.Succeeded = true) : streak (cs ++ [c]) = [] := by
  rw [streak, List.rtakeWhile_concat_neg _ _ _ (by simp [h])]
  rfl

theorem streak_empty (failed : c.Succeeded = false) (h : (c.Dark || c.Deferred) = false) :
    streak (cs ++ [c]) = streak cs := by
  rw [streak, List.rtakeWhile_concat_pos _ _ _ (by simp [failed]), List.filter_append]
  simp [streak, h]

theorem streak_blind (h : (c.Dark || c.Deferred) = true) : streak (cs ++ [c]) = streak cs ++ [c] := by
  have failed : c.Succeeded = false := by
    unfold Checkpoint.Dark Checkpoint.Deferred at h
    unfold Checkpoint.Succeeded
    cases outcome : c.outcome <;> simp_all
  rw [streak, List.rtakeWhile_concat_pos _ _ _ (by simp [failed]), List.filter_append]
  simp [streak, h]

theorem dark_of_streak (h : c ∈ streak cs) : c.Dark = !c.Deferred := by
  have blind := (List.mem_filter.mp h).2
  unfold Checkpoint.Dark Checkpoint.Deferred at blind ⊢
  cases outcome : c.outcome <;> simp_all

theorem health_concat (cs : List Checkpoint) (c : Checkpoint) :
    health reconcileEvery (cs ++ [c]) = (record reconcileEvery (health reconcileEvery cs) c).1 := by
  rw [health, List.foldl_append]
  rfl

/-- The second counter is the run of deferred checkpoints at the end of the streak. -/
theorem counters (cs : List Checkpoint) :
    (health reconcileEvery cs).consecutiveDark = (streak cs).length ∧
      (health reconcileEvery cs).consecutiveDeferred =
        ((streak cs).rtakeWhile Checkpoint.Deferred).length := by
  induction cs using List.reverseRec with
  | nil => exact ⟨rfl, rfl⟩
  | append_singleton cs c ih =>
      obtain ⟨dark, deferred⟩ := ih
      rw [health_concat, record]
      cases outcome : c.outcome with
      | empty =>
          have idle := @streak_empty cs c (by simp [Checkpoint.Succeeded, outcome])
            (by simp [Checkpoint.Dark, Checkpoint.Deferred, outcome])
          rw [idle]
          exact ⟨dark, deferred⟩
      | success checked =>
          have reset := @streak_succeeded cs c (by simp [Checkpoint.Succeeded, outcome])
          have pos := success_pos outcome
          simp [reset, ReconcileHealth.recordReconcileCheckpoint, pos]
      | dark attempted =>
          have grown := @streak_blind cs c (by simp [Checkpoint.Dark, outcome])
          have attempting : c.Deferred = false := by simp [Checkpoint.Deferred, outcome]
          rw [grown, List.rtakeWhile_concat_neg _ _ _ (by simp [attempting])]
          simp [ReconcileHealth.recordReconcileCheckpoint, dark]
      | deferred lag =>
          have grown := @streak_blind cs c (by simp [Checkpoint.Deferred, outcome])
          have waiting : c.Deferred = true := by simp [Checkpoint.Deferred, outcome]
          rw [grown, List.rtakeWhile_concat_pos _ _ _ waiting]
          simp [ReconcileHealth.recordReconcileCheckpoint, dark, deferred]

/-- A dark or deferred checkpoint escalates what the record says, and no other checkpoint does. -/
theorem escalation_eq (before : List Checkpoint) (c : Checkpoint) :
    escalation reconcileEvery before c = if c.Dark || c.Deferred then
      maybeEscalate (health reconcileEvery (before ++ [c])) reconcileEvery else none := by
  rw [health_concat, escalation, record]
  unfold Checkpoint.Dark Checkpoint.Deferred
  cases c.outcome <;> rfl

/-- Behind a deferred checkpoint the counters tell a streak of deferred ones from a mixed one. -/
theorem causeOf_deferred (waiting : c.Deferred = true) :
    (causeOf (health reconcileEvery (cs ++ [c])) = .deferred ↔
      ∀ member ∈ streak (cs ++ [c]), member.Deferred = true) ∧
    causeOf (health reconcileEvery (cs ++ [c])) ≠ .failed := by
  obtain ⟨dark, deferred⟩ := @counters reconcileEvery (cs ++ [c])
  have grown := @streak_blind cs c (by simp [waiting])
  have tail := List.rtakeWhile_suffix Checkpoint.Deferred (streak (cs ++ [c]))
  have some_deferred : 0 < ((streak (cs ++ [c])).rtakeWhile Checkpoint.Deferred).length := by
    rw [grown, List.rtakeWhile_concat_pos _ _ _ waiting, List.length_append, List.length_singleton]
    omega
  have whole : (streak (cs ++ [c])).length ≤
      ((streak (cs ++ [c])).rtakeWhile Checkpoint.Deferred).length ↔
        ∀ member ∈ streak (cs ++ [c]), member.Deferred = true := by
    refine Iff.trans ?_ List.rtakeWhile_eq_self_iff
    exact ⟨fun long => tail.eq_of_length_le long, fun same => le_of_eq (congrArg List.length same).symm⟩
  rw [causeOf, dark, deferred, ← whole]
  split_ifs with long
  · exact ⟨iff_of_true rfl long, nofun⟩
  · exact ⟨iff_of_false nofun long, nofun⟩

/-- Behind a dark checkpoint they only tell that it was dark. -/
theorem causeOf_dark (attempting : c.Dark = true) :
    causeOf (health reconcileEvery (cs ++ [c])) = .failed := by
  obtain ⟨dark, deferred⟩ := @counters reconcileEvery (cs ++ [c])
  have grown := @streak_blind cs c (by simp [attempting])
  have counted := @dark_of_streak (cs ++ [c]) c (by rw [grown]; simp)
  have reset : c.Deferred = false := by simpa [attempting] using counted
  rw [grown, List.rtakeWhile_concat_neg _ _ _ (by simp [reset])] at deferred
  rw [grown, List.length_append, List.length_singleton] at dark
  rw [causeOf, dark, deferred, if_neg (by simp), if_neg (by simp)]

theorem fires_iff (before : List Checkpoint) (c : Checkpoint) :
    (escalation reconcileEvery before c).isSome = true ↔
      (c.Dark || c.Deferred) = true ∧ 0 < (streak (before ++ [c])).length ∧
        DARK_ESCALATION_THRESHOLD ∣ (streak (before ++ [c])).length := by
  rw [escalation_eq, maybeEscalate, shouldEscalate, (counters (before ++ [c])).1]
  split_ifs <;> simp_all

theorem cause_of_escalation {before : List Checkpoint} {e : Critical}
    (h : escalation reconcileEvery before c = some e) :
    e.cause = causeOf (health reconcileEvery (before ++ [c])) := by
  rw [escalation_eq, maybeEscalate] at h
  split_ifs at h
  cases h
  rfl

/-- The cause of an escalation is true unless a dark checkpoint escalates a streak with a deferred
one in it. -/
theorem cause_true {before : List Checkpoint} {e : Critical}
    (h : escalation reconcileEvery before c = some e)
    (honest : c.Dark = true → ∀ earlier ∈ streak before, earlier.Deferred = false) :
    (e.cause = .deferred ↔ ∀ member ∈ streak (before ++ [c]), member.Deferred = true) ∧
    (e.cause = .failed ↔ ∀ member ∈ streak (before ++ [c]), member.Dark = true) ∧
    (e.cause = .mixed ↔ (∃ member ∈ streak (before ++ [c]), member.Deferred = true) ∧
      ∃ member ∈ streak (before ++ [c]), member.Dark = true) := by
  have blind := (fires_iff before c).mp (Option.isSome_iff_exists.mpr ⟨e, h⟩) |>.1
  have grown := @streak_blind before c blind
  have here : c ∈ streak (before ++ [c]) := by rw [grown]; simp
  have kinds : ∀ member ∈ streak (before ++ [c]), member.Dark = !member.Deferred :=
    fun member mem => dark_of_streak mem
  rw [cause_of_escalation h]
  cases waiting : c.Deferred with
  | true =>
      obtain ⟨every, unfailed⟩ := @causeOf_deferred reconcileEvery before c waiting
      have attempting : c.Dark = false := by rw [kinds c here, waiting]; rfl
      refine ⟨every, iff_of_false unfailed fun all => ?_, ?_⟩
      · rw [all c here] at attempting
        cases attempting
      · constructor
        · intro mixed
          refine ⟨⟨c, here, waiting⟩, ?_⟩
          by_contra none_dark
          simp only [not_exists, not_and] at none_dark
          have all : ∀ member ∈ streak (before ++ [c]), member.Deferred = true := fun member mem => by
            simpa [kinds member mem] using none_dark member mem
          rw [every.mpr all] at mixed
          cases mixed
        · rintro ⟨-, member, mem, dark⟩
          have some_dark : causeOf (health reconcileEvery (before ++ [c])) ≠ .deferred := by
            intro same
            rw [kinds member mem, every.mp same member mem] at dark
            cases dark
          cases cause : causeOf (health reconcileEvery (before ++ [c])) with
          | mixed => rfl
          | deferred => exact absurd cause some_dark
          | failed => exact absurd cause unfailed
  | false =>
      have attempting : c.Dark = true := by rw [kinds c here, waiting]; rfl
      have undeferred : ∀ member ∈ streak (before ++ [c]), member.Deferred = false := by
        rw [grown]
        intro member mem
        rcases List.mem_append.mp mem with earlier | last
        · exact honest attempting member earlier
        · exact List.mem_singleton.mp last ▸ waiting
      rw [@causeOf_dark reconcileEvery before c attempting]
      refine ⟨iff_of_false nofun fun all => ?_, iff_of_true rfl fun member mem => ?_,
        iff_of_false nofun ?_⟩
      · rw [all c here] at waiting
        cases waiting
      · rw [kinds member mem, undeferred member mem]
        rfl
      · rintro ⟨⟨member, mem, deferred⟩, -⟩
        rw [undeferred member mem] at deferred
        cases deferred

end Streak

/-- A run of checkpoints tells the truth throughout exactly when no dark checkpoint escalates a
streak that has a deferred one in it. -/
theorem tells_truth_iff (reconcileEvery : Nat) (cs : List Checkpoint) :
    (∀ reached rest, cs = reached ++ rest → TellsTruth reconcileEvery reached) ↔
      ∀ before c after, cs = before ++ c :: after → c.Dark = true →
        DARK_ESCALATION_THRESHOLD ∣ (streak (before ++ [c])).length →
          ∀ earlier ∈ streak before, earlier.Deferred = false := by
  constructor
  · rintro truth before c after rfl attempting multiple earlier mem
    have grown := @streak_blind before c (by simp [attempting])
    have told := truth (before ++ [c]) after (by simp)
    have fires : (escalation reconcileEvery before c).isSome = true :=
      (fires_iff before c).mpr ⟨by simp [attempting], by simp [grown], multiple⟩
    obtain ⟨e, he⟩ := Option.isSome_iff_exists.mp fires
    have blamed : e.cause = .failed :=
      (cause_of_escalation he).trans (@causeOf_dark reconcileEvery before c attempting)
    have dark := (told.failed before c e rfl he).mp blamed earlier (by rw [grown]; simp [mem])
    simpa [dark_of_streak mem] using dark
  · rintro honest reached rest rfl
    have causes : ∀ before c e, reached = before ++ [c] → escalation reconcileEvery before c = some e →
        _ := fun before c e split he => @cause_true reconcileEvery c before e he fun attempting =>
          honest before c rest (by simp [split]) attempting
            ((fires_iff before c).mp (Option.isSome_iff_exists.mpr ⟨e, he⟩)).2.2
    refine ⟨(counters reached).1, ?_, ?_, ?_, ?_⟩
    · rintro before c rfl
      exact fires_iff before c
    · rintro before c e rfl he
      exact (causes before c e rfl he).1
    · rintro before c e rfl he
      exact (causes before c e rfl he).2.1
    · rintro before c e rfl he
      exact (causes before c e rfl he).2.2

/-- The end of a catch-up into an outage: a deferred checkpoint, and then eighteen failed ones. -/
def caughtUp : List Checkpoint := ⟨0, 1, 1, [], 65⟩ :: List.replicate 18 ⟨0, 2, 1, [.fetchFailed], 0⟩

/-- The twentieth checkpoint of the streak blames the provider alone, although the first was
deferred. -/
theorem caught_up_blamed :
    escalation 30 caughtUp ⟨0, 3, 1, [.fetchFailed], 0⟩ = some ⟨20, 600, 0, .failed⟩ ∧
      (∃ c ∈ streak (caughtUp ++ [⟨0, 3, 1, [.fetchFailed], 0⟩]), c.Deferred = true) ∧
      ¬ TellsTruth 30 (caughtUp ++ [⟨0, 3, 1, [.fetchFailed], 0⟩]) := by
  have blamed : escalation 30 caughtUp ⟨0, 3, 1, [.fetchFailed], 0⟩ = some ⟨20, 600, 0, .failed⟩ := by
    decide +kernel
  refine ⟨blamed, by decide +kernel, fun told => ?_⟩
  have dark := (told.failed _ _ _ rfl blamed).mp rfl
  exact absurd dark (by decide +kernel)

end RisePir.Rpc.Escalation
