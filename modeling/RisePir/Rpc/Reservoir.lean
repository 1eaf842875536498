import RisePir.Rpc.Mainnet
import RisePir.Rpc.TrueBalances

set_option autoImplicit false
set_option relaxedAutoImplicit false

/-! The deferred reservoir over a run of checkpoints that do not halt. A deferred checkpoint queues
its candidates; a dark one, whose fetches all failed, queues nothing and drains like any other. -/

namespace RisePir.Rpc.Reservoir

open RisePir.Proto.Types
open RisePir.Upstream.Cuckoo
open RisePir.Upstream.Pir
open RisePir.Upstream.ReferencePir
open RisePir.Upstream.ReferenceTable
open RisePir.Server.Small
open RisePir.Http.Node
open RisePir.Feed.Rpc
open RisePir.Rpc.Front
open RisePir.Rpc.Mainnet
open RisePir.Rpc.TrueBalances

/-- One call of `reconcile`, whatever the store and the provider are by then. -/
structure Checkpoint {p : CuckooParams} (C : SegmentedCuckoo p) (B : PirBackend) where
  node : NodeState C B
  block : Nat
  lag : Nat
  confirm : ConfirmSource
  changed : List (Address × Balance)
  credited : List (Address × Balance)
  complete : Bool
  samples : Nat

variable {p : CuckooParams} {C : SegmentedCuckoo p} {B : PirBackend}
variable (keccak256 : Address → AddressHash)

namespace Checkpoint

variable (c : Checkpoint C B)

def candidates : List Address := candidatesOf c.changed c.credited c.complete

def reconcile (r : DeferredReservoir) : DeferredReservoir × ReconcileOutcome :=
  Mainnet.reconcile keccak256 c.node c.block c.confirm c.lag c.changed c.credited c.complete c.samples r

/-- The attempted candidates with what the provider answered. -/
def sampled : List (Address × Option Balance) :=
  c.candidates.zip (sampleReference c.confirm.sampled c.block c.candidates c.samples (c.samples * 2))

def Deferred : Prop := RECENT_DEPTH_BLOCKS < c.lag

instance : Decidable c.Deferred := inferInstanceAs (Decidable (_ < _))

/-- There were candidates, and every fetch for one failed. -/
def Dark : Prop := ¬ c.Deferred ∧ c.candidates ≠ [] ∧ ∀ pair ∈ c.sampled, pair.2 = none

def Blind : Prop := c.Deferred ∨ c.Dark

/-- The checkpoint compared the account with an answer of the provider, as a candidate or out of the
reservoir `r`, and the two agreed. -/
def Compared (r : DeferredReservoir) (addr : Address) : Prop :=
  ¬ c.Deferred ∧ ∃ v, compareOne keccak256 c.node c.block addr v = .matched ∧
    ((addr, some v) ∈ c.sampled ∨
      ∃ i, (r.popFrontUpTo RESERVOIR_DRAIN_PER_CHECKPOINT).1[i]? = some addr ∧
        c.confirm.drained i addr c.block = some v)

/-- The checkpoint offered the account to a reservoir that was at its cap. -/
def TurnedAway (r : DeferredReservoir) (addr : Address) : Prop :=
  c.Deferred ∧ addr ∈ c.candidates ∧ addr ∉ (c.reconcile keccak256 r).1.addrs ∧
    DEFERRED_RESERVOIR_CAP ≤ (c.reconcile keccak256 r).1.addrs.length

end Checkpoint

/-- The reservoir behind a run. -/
def reservoir (cs : List (Checkpoint C B)) : DeferredReservoir :=
  cs.foldl (fun r c => (c.reconcile keccak256 r).1) ⟨[]⟩

/-- No checkpoint of the run halts. -/
def Continues (cs : List (Checkpoint C B)) : Prop :=
  ∀ before c after, cs = before ++ c :: after →
    (c.reconcile keccak256 (reservoir keccak256 before)).2 = .continued

/-- A candidate of a blind checkpoint is queued now, was compared since, or was turned away. -/
def Accounted (cs : List (Checkpoint C B)) : Prop :=
  ∀ before c after, cs = before ++ c :: after → c.Blind → ∀ addr ∈ c.candidates,
    addr ∈ (reservoir keccak256 cs).addrs ∨
    (∃ mid d rest, c :: after = mid ++ d :: rest ∧
      d.Compared keccak256 (reservoir keccak256 (before ++ mid)) addr) ∨
    c.TurnedAway keccak256 (reservoir keccak256 before) addr

/-- The checkpoints of a run that drain the reservoir. -/
def drains (cs : List (Checkpoint C B)) : Nat := (cs.filter fun c => ¬ c.Deferred).length

/-- The queue's own discipline: it is bounded and without duplicates, what a run has not popped stays
in front in its order, and what a drain pops is back in the queue or was compared. -/
structure Orderly (cs : List (Checkpoint C B)) : Prop where
  nodup : (reservoir keccak256 cs).addrs.Nodup
  capped : (reservoir keccak256 cs).addrs.length ≤ DEFERRED_RESERVOIR_CAP
  fifo : ∀ before after, cs = before ++ after →
    (reservoir keccak256 before).addrs.drop (RESERVOIR_DRAIN_PER_CHECKPOINT * drains after) <+:
      (reservoir keccak256 cs).addrs
  popped : ∀ before c, cs = before ++ [c] → ¬ c.Deferred →
    ∀ addr ∈ ((reservoir keccak256 before).popFrontUpTo RESERVOIR_DRAIN_PER_CHECKPOINT).1,
      addr ∈ (reservoir keccak256 cs).addrs ∨ c.Compared keccak256 (reservoir keccak256 before) addr

section Queue

variable {r : DeferredReservoir}

/-- Inserting appends, keeps the queue bounded and without duplicates, and leaves out a candidate
only at the cap. -/
theorem insertMany_spec (candidates : List Address) (nodup : r.addrs.Nodup)
    (capped : r.addrs.length ≤ DEFERRED_RESERVOIR_CAP) :
    (r.insertMany candidates).addrs.Nodup ∧
      (r.insertMany candidates).addrs.length ≤ DEFERRED_RESERVOIR_CAP ∧
      r.addrs <+: (r.insertMany candidates).addrs ∧
      ∀ addr ∈ candidates, addr ∈ (r.insertMany candidates).addrs ∨
        DEFERRED_RESERVOIR_CAP ≤ (r.insertMany candidates).addrs.length := by
  induction candidates generalizing r with
  | nil => exact ⟨nodup, capped, List.prefix_rfl, fun addr h => by cases h⟩
  | cons first rest ih =>
      rw [DeferredReservoir.insertMany]
      by_cases full : DEFERRED_RESERVOIR_CAP ≤ r.addrs.length
      · rw [if_pos full]
        exact ⟨nodup, capped, List.prefix_rfl, fun addr _ => .inr full⟩
      · rw [if_neg full]
        by_cases queued : first ∈ r.addrs
        · rw [if_pos queued]
          obtain ⟨nodup', capped', front, offered⟩ := ih nodup capped
          refine ⟨nodup', capped', front, fun addr mem => ?_⟩
          rcases List.mem_cons.mp mem with rfl | mem
          · exact .inl (front.subset queued)
          · exact offered addr mem
        · rw [if_neg queued]
          have nodup' : (r.addrs ++ [first]).Nodup := by
            rw [List.nodup_append_comm]
            exact List.nodup_cons.mpr ⟨queued, nodup⟩
          have capped' : (r.addrs ++ [first]).length ≤ DEFERRED_RESERVOIR_CAP := by
            rw [List.length_append, List.length_singleton]
            omega
          obtain ⟨nodup'', capped'', front, offered⟩ := @ih ⟨r.addrs ++ [first]⟩ nodup' capped'
          refine ⟨nodup'', capped'', (List.prefix_append _ _).trans front, fun addr mem => ?_⟩
          rcases List.mem_cons.mp mem with rfl | mem
          · exact .inl (front.subset (by simp))
          · exact offered addr mem

/-- A drain that goes through appends what it could not fetch, in order, and compared the rest. -/
theorem drainFrom_spec {node : NodeState C B} {n : Nat} {fetch : Nat → Address → Nat → Option Balance}
    {popped : List Address} {i : Nat} {r' : DeferredReservoir}
    (room : r.addrs.length + popped.length ≤ DEFERRED_RESERVOIR_CAP)
    (through : drainFrom keccak256 node n fetch i popped r = (r', .continued)) :
    ∃ again, r'.addrs = r.addrs ++ again ∧ again.Sublist popped ∧
      ∀ addr ∈ popped, addr ∈ again ∨ ∃ j v, popped[j]? = some addr ∧ fetch (i + j) addr n = some v ∧
        compareOne keccak256 node n addr v = .matched := by
  induction popped generalizing i r with
  | nil =>
      cases through
      exact ⟨[], by simp, List.Sublist.refl _, fun addr h => by cases h⟩
  | cons first rest ih =>
      rw [List.length_cons] at room
      rw [drainFrom] at through
      have shift : ∀ {addr : Address} {again : List Address}, (addr ∈ again ∨ ∃ j v,
          rest[j]? = some addr ∧ fetch (i + 1 + j) addr n = some v ∧
            compareOne keccak256 node n addr v = .matched) →
          addr ∈ again ∨ ∃ j v, (first :: rest)[j]? = some addr ∧ fetch (i + j) addr n = some v ∧
            compareOne keccak256 node n addr v = .matched := by
        rintro addr again (back | ⟨j, v, at_j, answer, same⟩)
        · exact .inl back
        · refine .inr ⟨j + 1, v, at_j, ?_, same⟩
          rwa [Nat.add_assoc, Nat.add_comm 1 j] at answer
      cases answer : fetch i first n with
      | none =>
          rw [answer] at through
          have requeued : r.requeue first = ⟨r.addrs ++ [first]⟩ := if_pos (by omega)
          rw [requeued] at through
          have room' : (r.addrs ++ [first]).length + rest.length ≤ DEFERRED_RESERVOIR_CAP := by
            rw [List.length_append, List.length_singleton]
            omega
          obtain ⟨again, whole, sub, all⟩ := @ih ⟨r.addrs ++ [first]⟩ (i + 1) room' through
          refine ⟨first :: again, whole.trans (List.append_assoc _ _ _), sub.cons_cons first, ?_⟩
          intro addr mem
          rcases List.mem_cons.mp mem with rfl | mem
          · exact .inl List.mem_cons_self
          · exact (shift (all addr mem)).imp_left (List.mem_cons_of_mem first)
      | some v =>
          rw [answer] at through
          cases same : compareOne keccak256 node n first v with
          | halted cause =>
              simp only [same] at through
              cases through
          | matched =>
              simp only [same] at through
              obtain ⟨again, whole, sub, all⟩ := @ih r (i + 1) (by omega) through
              refine ⟨again, whole, sub.cons first, fun addr mem => ?_⟩
              rcases List.mem_cons.mp mem with rfl | mem
              · exact .inr ⟨0, v, rfl, answer, same⟩
              · exact shift (all addr mem)

end Queue

section Step

variable {keccak256} {c : Checkpoint C B} {r : DeferredReservoir}

theorem reconcile_deferred (deep : c.Deferred) :
    (c.reconcile keccak256 r).1 = r.insertMany c.candidates := by
  have classified : classifyCheckpoint c.candidates.length [] c.lag = .deferred c.lag := if_pos deep
  rw [Checkpoint.candidates] at classified
  rw [Checkpoint.reconcile, Mainnet.reconcile]
  dsimp only
  rw [classified]
  rfl

/-- A checkpoint that is not deferred and goes through has drained the reservoir. -/
theorem reconcile_shallow (shallow : ¬ c.Deferred) (through : (c.reconcile keccak256 r).2 = .continued) :
    drainFrom keccak256 c.node c.block c.confirm.drained 0
        (r.popFrontUpTo RESERVOIR_DRAIN_PER_CHECKPOINT).1
        (r.popFrontUpTo RESERVOIR_DRAIN_PER_CHECKPOINT).2 =
      ((c.reconcile keccak256 r).1, .continued) := by
  have classified : ∃ outcome, classifyCheckpoint c.candidates.length [] c.lag = outcome ∧
      ∀ lag, outcome ≠ .deferred lag := by
    rw [classifyCheckpoint, if_neg (show ¬ RECENT_DEPTH_BLOCKS < c.lag from shallow)]
    split
    · exact ⟨_, rfl, nofun⟩
    · exact ⟨_, rfl, nofun⟩
  obtain ⟨outcome, same, undeferred⟩ := classified
  rw [Checkpoint.candidates] at same
  rw [Checkpoint.reconcile, Mainnet.reconcile] at through ⊢
  dsimp only at through ⊢
  rw [same] at through ⊢
  cases outcome with
  | deferred lag => exact absurd rfl (undeferred lag)
  | _ =>
      cases sampled : compareSamples keccak256 c.node c.block _ with
      | error cause =>
          simp only [sampled] at through
          cases through
      | ok results =>
          simp only [sampled] at through ⊢
          exact Prod.ext rfl through

/-- What one checkpoint does to a queue that is bounded and without duplicates. -/
structure Steps (c : Checkpoint C B) (r r' : DeferredReservoir) : Prop where
  nodup : r'.addrs.Nodup
  capped : r'.addrs.length ≤ DEFERRED_RESERVOIR_CAP
  front : r.addrs.drop (RESERVOIR_DRAIN_PER_CHECKPOINT * drains [c]) <+: r'.addrs
  kept : ∀ addr ∈ r.addrs, addr ∈ r'.addrs ∨ c.Compared keccak256 r addr
  offered : c.Deferred → ∀ addr ∈ c.candidates, addr ∈ r'.addrs ∨ c.TurnedAway keccak256 r addr
  closed : ¬ c.Deferred → ∀ addr ∈ r'.addrs, addr ∈ r.addrs

theorem reconcile_steps (nodup : r.addrs.Nodup) (capped : r.addrs.length ≤ DEFERRED_RESERVOIR_CAP)
    (through : (c.reconcile keccak256 r).2 = .continued) :
    @Steps p C B keccak256 c r (c.reconcile keccak256 r).1 := by
  by_cases deep : c.Deferred
  · have inserted := @reconcile_deferred p C B keccak256 c r deep
    obtain ⟨nodup', capped', front, offered⟩ := insertMany_spec c.candidates nodup capped
    have none_drained : drains [c] = 0 := by simp [drains, deep]
    rw [← inserted] at nodup' capped' front offered
    refine ⟨nodup', capped', ?_, fun addr mem => .inl (front.subset mem), fun _ addr mem => ?_,
      fun shallow => absurd deep shallow⟩
    · rw [none_drained]
      exact front
    · by_cases queued : addr ∈ (c.reconcile keccak256 r).1.addrs
      · exact .inl queued
      · exact .inr ⟨deep, mem, queued, (offered addr mem).resolve_left queued⟩
  · have one_drained : drains [c] = 1 := by simp [drains, deep]
    have drained := reconcile_shallow deep through
    have parts : r.addrs.take RESERVOIR_DRAIN_PER_CHECKPOINT ++ r.addrs.drop RESERVOIR_DRAIN_PER_CHECKPOINT =
      r.addrs := List.take_append_drop _ _
    have lengths := congrArg List.length parts
    rw [List.length_append] at lengths
    obtain ⟨again, whole, sub, all⟩ := drainFrom_spec keccak256
      (show (r.addrs.drop _).length + (r.addrs.take _).length ≤ _ by omega) drained
    have members : ∀ addr, addr ∈ (c.reconcile keccak256 r).1.addrs ↔
        addr ∈ r.addrs.drop RESERVOIR_DRAIN_PER_CHECKPOINT ∨ addr ∈ again := by
      intro addr
      rw [whole, List.mem_append]
    refine ⟨?_, ?_, ?_, ?_, fun deep' => absurd deep' deep, ?_⟩
    · rw [whole, List.nodup_append_comm]
      exact (parts ▸ nodup).sublist (sub.append_right _)
    · rw [whole, List.length_append]
      have := sub.length_le
      change (r.addrs.drop RESERVOIR_DRAIN_PER_CHECKPOINT).length + again.length ≤ _
      change again.length ≤ (r.addrs.take RESERVOIR_DRAIN_PER_CHECKPOINT).length at this
      omega
    · rw [one_drained, whole]
      exact List.prefix_append _ _
    · intro addr mem
      rw [← parts, List.mem_append] at mem
      rcases mem with popped | left
      · rcases all addr popped with back | ⟨j, v, at_j, answer, same⟩
        · exact .inl ((members addr).mpr (.inr back))
        · rw [Nat.zero_add] at answer
          exact .inr ⟨deep, v, same, .inr ⟨j, at_j, answer⟩⟩
      · exact .inl ((members addr).mpr (.inl left))
    · intro _ addr mem
      rcases (members addr).mp mem with left | back
      · exact List.mem_of_mem_drop left
      · exact List.mem_of_mem_take (sub.subset back)

end Step

section Run

variable {keccak256} {cs before after : List (Checkpoint C B)} {c : Checkpoint C B} {addr : Address}

theorem reservoir_concat (cs : List (Checkpoint C B)) (c : Checkpoint C B) :
    reservoir keccak256 (cs ++ [c]) = (c.reconcile keccak256 (reservoir keccak256 cs)).1 := by
  rw [reservoir, List.foldl_append]
  rfl

theorem Continues.reached (through : Continues keccak256 (before ++ after)) :
    Continues keccak256 before := by
  intro first c rest split
  exact through first c (rest ++ after) (by rw [split, List.append_assoc]; rfl)

theorem Continues.last (through : Continues keccak256 (cs ++ [c])) :
    (c.reconcile keccak256 (reservoir keccak256 cs)).2 = .continued := through cs c [] rfl

theorem run_bounded (through : Continues keccak256 cs) : (reservoir keccak256 cs).addrs.Nodup ∧
    (reservoir keccak256 cs).addrs.length ≤ DEFERRED_RESERVOIR_CAP := by
  induction cs using List.reverseRec with
  | nil => exact ⟨List.nodup_nil, Nat.zero_le _⟩
  | append_singleton cs c ih =>
      obtain ⟨nodup, capped⟩ := ih through.reached
      have step := reconcile_steps nodup capped through.last
      rw [reservoir_concat]
      exact ⟨step.nodup, step.capped⟩

theorem run_step (through : Continues keccak256 (cs ++ [c])) :
    @Steps p C B keccak256 c (reservoir keccak256 cs) (reservoir keccak256 (cs ++ [c])) := by
  obtain ⟨nodup, capped⟩ := run_bounded through.reached
  rw [reservoir_concat]
  exact reconcile_steps nodup capped through.last

/-- What a run has not popped is in front, in its order. -/
theorem run_fifo (through : Continues keccak256 (before ++ after)) :
    (reservoir keccak256 before).addrs.drop (RESERVOIR_DRAIN_PER_CHECKPOINT * drains after) <+:
      (reservoir keccak256 (before ++ after)).addrs := by
  induction after using List.reverseRec with
  | nil => simp [drains]
  | append_singleton after c ih =>
      rw [← List.append_assoc] at through ⊢
      have counted : drains (after ++ [c]) = drains after + drains [c] := by
        simp [drains]
      rw [counted, Nat.mul_add, ← List.drop_drop]
      exact ((ih through.reached).drop _).trans (run_step through).front

/-- A queued address stays queued until it is compared. -/
theorem run_kept (through : Continues keccak256 (before ++ after))
    (queued : addr ∈ (reservoir keccak256 before).addrs) :
    addr ∈ (reservoir keccak256 (before ++ after)).addrs ∨
      ∃ mid d rest, after = mid ++ d :: rest ∧
        d.Compared keccak256 (reservoir keccak256 (before ++ mid)) addr := by
  induction after using List.reverseRec with
  | nil => exact .inl (by rwa [List.append_nil])
  | append_singleton after c ih =>
      rw [← List.append_assoc] at through ⊢
      rcases ih through.reached with still | ⟨mid, d, rest, rfl, compared⟩
      · rcases (run_step through).kept addr still with kept | compared
        · exact .inl kept
        · exact .inr ⟨after, c, [], rfl, compared⟩
      · exact .inr ⟨mid, d, rest ++ [c], by simp, compared⟩

theorem run_orderly (through : Continues keccak256 cs) : Orderly keccak256 cs := by
  obtain ⟨nodup, capped⟩ := run_bounded through
  refine ⟨nodup, capped, ?_, ?_⟩
  · rintro before after rfl
    exact run_fifo through
  · rintro before c rfl _ addr popped
    exact (run_step through).kept addr (List.mem_of_mem_take popped)

/-- A candidate of a deferred checkpoint is accounted for, and so is one of a dark checkpoint that
was queued before. -/
theorem run_accounted (through : Continues keccak256 cs)
    (queued : ∀ before c after, cs = before ++ c :: after → c.Dark → ∀ addr ∈ c.candidates,
      addr ∈ (reservoir keccak256 before).addrs) : Accounted keccak256 cs := by
  rintro before c after rfl blind addr mem
  rcases blind with deep | dark
  · have split : before ++ c :: after = (before ++ [c]) ++ after := by simp
    rw [split] at through ⊢
    rcases (run_step through.reached).offered deep addr mem with inserted | turned
    · rcases run_kept through inserted with kept | ⟨mid, d, rest, rfl, compared⟩
      · exact .inl kept
      · refine .inr (.inl ⟨c :: mid, d, rest, rfl, ?_⟩)
        simpa using compared
    · exact .inr (.inr turned)
  · rcases run_kept through (queued before c after rfl dark addr mem) with kept | compared
    · exact .inl kept
    · exact .inr (.inl compared)

/-- A dark checkpoint neither queues nor compares a candidate that was not queued. -/
theorem dark_forgets (through : Continues keccak256 (before ++ [c])) (dark : c.Dark)
    (fresh : addr ∉ (reservoir keccak256 before).addrs) :
    addr ∉ (reservoir keccak256 (before ++ [c])).addrs ∧
      ¬ c.Compared keccak256 (reservoir keccak256 before) addr := by
  refine ⟨fun held => fresh ((run_step through).closed dark.1 addr held), ?_⟩
  rintro ⟨-, v, -, sampled | ⟨i, popped, -⟩⟩
  · have failed := dark.2.2 _ sampled
    cases failed
  · exact fresh (List.mem_of_mem_take (List.mem_of_getElem? popped))

theorem dark_unaccounted (through : Continues keccak256 (before ++ [c])) (dark : c.Dark)
    (candidate : addr ∈ c.candidates) (fresh : addr ∉ (reservoir keccak256 before).addrs) :
    ¬ Accounted keccak256 (before ++ [c]) := by
  intro accounted
  obtain ⟨absent, uncompared⟩ := dark_forgets through dark fresh
  rcases accounted before c [] rfl (.inr dark) addr candidate with
    held | ⟨mid, d, rest, only, compared⟩ | turned
  · exact absent held
  · cases mid with
    | nil =>
        cases only
        exact uncompared (by simpa using compared)
    | cons first mid => simp at only
  · exact dark.1 turned.1

end Run

/-- A run of checkpoints accounts for every candidate of a blind one exactly when every candidate of
a dark one was in the reservoir before. -/
theorem reservoir_complete_iff (keccak256 : Address → AddressHash) (cs : List (Checkpoint C B))
    (through : Continues keccak256 cs) :
    (∀ reached rest, cs = reached ++ rest → Accounted keccak256 reached ∧ Orderly keccak256 reached) ↔
      ∀ before c after, cs = before ++ c :: after → c.Dark → ∀ addr ∈ c.candidates,
        addr ∈ (reservoir keccak256 before).addrs := by
  constructor
  · rintro complete before c after rfl dark addr mem
    have split : before ++ c :: after = (before ++ [c]) ++ after := by simp
    rw [split] at through
    by_contra fresh
    exact dark_unaccounted through.reached dark mem fresh (complete (before ++ [c]) after split).1
  · rintro queued reached rest rfl
    refine ⟨run_accounted through.reached fun before c after split => ?_, run_orderly through.reached⟩
    exact queued before c (after ++ rest) (by rw [split, List.append_assoc]; rfl)

/-- A checkpoint with one candidate whose provider answers nothing, `lag` behind the head. -/
def unanswered (lag : Nat) : Checkpoint (referenceTable smallParams) referencePir :=
  ⟨nodeAtGenesis, 1, lag, ⟨fun _ _ _ => none, fun _ _ _ => none⟩, [(1, 5)], [], true, 8⟩

private theorem unanswered_continues (lag : Nat)
    (through : ((unanswered lag).reconcile oneKey ⟨[]⟩).2 = .continued) :
    Continues oneKey [unanswered lag] := by
  intro before c after split
  cases before with
  | nil =>
      cases split
      exact through
  | cons first before => simp at split

/-- A checkpoint at the head without candidates, whose provider answers for the first account that
is drained and for no other. -/
private def draining : Checkpoint (referenceTable smallParams) referencePir :=
  ⟨nodeAtGenesis, 3, 0, ⟨fun _ _ _ => none, fun i _ _ => if i = 0 then some 0 else none⟩, [], [],
    true, 8⟩

/-- Two deferred checkpoints with a candidate each, then the draining one. -/
private def deferredTwice : List (Checkpoint (referenceTable smallParams) referencePir) :=
  [unanswered 65, { unanswered 65 with block := 2, changed := [(2, 7)] }, draining]

private theorem deferredTwice_continues : Continues oneKey deferredTwice := by
  intro before c after split
  rcases before with _ | ⟨first, _ | ⟨second, _ | ⟨third, before⟩⟩⟩
  · cases split
    rfl
  · cases split
    rfl
  · cases split
    decide +kernel
  · simp [deferredTwice] at split

/-- Both candidates are queued; the drain compares the first with its answer and queues the second
again. -/
theorem reservoir_complete_iff_deep :
    Accounted oneKey deferredTwice ∧ Orderly oneKey deferredTwice ∧
      (reservoir oneKey (deferredTwice.take 2)).addrs = [1, 2] ∧
      (reservoir oneKey deferredTwice).addrs = [2] := by
  have queued := (reservoir_complete_iff oneKey deferredTwice deferredTwice_continues).mpr ?_
    deferredTwice [] (List.append_nil _).symm
  · exact ⟨queued.1, queued.2, by decide +kernel, by decide +kernel⟩
  · intro before c after split dark
    have only : c ∈ deferredTwice := split ▸ List.mem_append_right before List.mem_cons_self
    have deep : RECENT_DEPTH_BLOCKS < 65 := by decide
    rcases List.mem_cons.mp only with rfl | only
    · exact absurd deep dark.1
    · rcases List.mem_cons.mp only with rfl | only
      · exact absurd deep dark.1
      · obtain rfl := List.mem_singleton.mp only
        exact absurd rfl dark.2.1

/-- At the head the candidate of the failed checkpoint is in no queue, and nothing compared it. -/
theorem dark_forgotten : Continues oneKey [unanswered 0] ∧ (unanswered 0).Blind ∧
    1 ∈ (unanswered 0).candidates ∧ ¬ Accounted oneKey [unanswered 0] := by
  have through := unanswered_continues 0 rfl
  have dark : (unanswered 0).Dark := by
    refine ⟨by decide, by decide, fun pair mem => ?_⟩
    obtain rfl : pair = (1, none) := List.mem_singleton.mp mem
    rfl
  have candidate : 1 ∈ (unanswered 0).candidates := by decide
  exact ⟨through, .inr dark, candidate,
    @dark_unaccounted _ _ _ oneKey [] _ 1 through dark candidate (by simp [reservoir])⟩

end RisePir.Rpc.Reservoir
