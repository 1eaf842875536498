import Mathlib.Data.List.ReduceOption
import RisePir.Http.Node

set_option autoImplicit false
set_option relaxedAutoImplicit false

/-! The hard refresh: how an account's check is decided, and how the corrections go from the queue
into a block's changes. -/

namespace RisePir.Rpc.HardRefresh

open RisePir.Proto.Types
open RisePir.Upstream.Cuckoo
open RisePir.Upstream.Pir
open RisePir.Server.Core
open RisePir.Http.Node

def MAX_CORRECTIONS_PER_BLOCK : Nat := 2000

/-- What one account's reads at all providers amount to. -/
inductive Quorum
  | agreed (value : Balance)
  | disagreed
  | errored
  deriving DecidableEq, Repr

/-- Every provider has to answer, and all the same; `none` is a failed fetch. -/
def quorum (results : List (Option Balance)) : Quorum :=
  if results.isEmpty ∨ none ∈ results then .errored
  else
    match results.reduceOption with
    | [] => .errored
    | first :: rest => if ∀ v ∈ rest, v = first then .agreed first else .disagreed

inductive CheckOutcome
  | skipped
  | skippedDisagreement
  | alreadyCorrect
  | correct (newBalance oldBalance : Balance)
  deriving DecidableEq, Repr

/-- The only place where a correction is decided. -/
def decideCorrection (q : Quorum) (current : Balance) : CheckOutcome :=
  match q with
  | .errored => .skipped
  | .disagreed => .skippedDisagreement
  | .agreed value => if value = current then .alreadyCorrect else .correct value current

/-- A correction comes only from providers that all answered with its balance. -/
theorem decideCorrection_correct {results : List (Option Balance)}
    {current newBalance oldBalance : Balance}
    (h : decideCorrection (quorum results) current = .correct newBalance oldBalance) :
    some newBalance ∈ results ∧ oldBalance = current := by
  cases hq : quorum results with
  | errored =>
      rw [hq] at h
      cases h
  | disagreed =>
      rw [hq] at h
      cases h
  | agreed value =>
      rw [hq, decideCorrection] at h
      split_ifs at h
      obtain ⟨rfl, rfl⟩ := CheckOutcome.correct.inj h
      refine ⟨?_, rfl⟩
      rw [quorum] at hq
      split_ifs at hq
      cases values : results.reduceOption with
      | nil =>
          rw [values] at hq
          cases hq
      | cons first rest =>
          rw [values] at hq
          dsimp only at hq
          split_ifs at hq
          obtain rfl := Quorum.agreed.inj hq
          rw [← List.reduceOption_mem_iff, values]
          exact List.mem_cons_self

/-- A pending write; `baseline` is what the store held when it was decided. -/
structure Correction where
  key : AddressHash
  balance : Balance
  baseline : Balance
  deriving DecidableEq, Repr

/-- The corrections go first, so that the feed's own changes win. -/
def prependCorrections (corrections : List Correction) (changes : List (AddressHash × Balance)) :
    List (AddressHash × Balance) := corrections.map (fun c => (c.key, c.balance)) ++ changes

variable {p : CuckooParams} {C : SegmentedCuckoo p} {B : PirBackend}

/-- The corrections whose account still holds what it held when they were decided. -/
def filterStaleCorrections (node : NodeState C B) :
    List Correction → Except ServerError (List Correction)
  | [] => .ok []
  | c :: rest =>
      match node.server.balanceOf c.key with
      | .error e => .error e
      | .ok current =>
          match filterStaleCorrections node rest with
          | .error e => .error e
          | .ok valid => .ok (if current.getD 0 = c.baseline then c :: valid else valid)

theorem filterStale_subset {node : NodeState C B} {drained valid : List Correction}
    (h : filterStaleCorrections node drained = .ok valid) : valid ⊆ drained := by
  induction drained generalizing valid with
  | nil =>
      cases h
      exact List.Subset.refl []
  | cons c rest ih =>
      rw [filterStaleCorrections] at h
      cases read : node.server.balanceOf c.key with
      | error e =>
          rw [read] at h
          cases h
      | ok current =>
          rw [read] at h
          dsimp only at h
          cases later : filterStaleCorrections node rest with
          | error e =>
              rw [later] at h
              cases h
          | ok valid' =>
              rw [later] at h
              cases Except.ok.inj h
              split_ifs
              · exact List.cons_subset_cons c (ih later)
              · exact List.subset_cons_of_subset c (ih later)

end RisePir.Rpc.HardRefresh
