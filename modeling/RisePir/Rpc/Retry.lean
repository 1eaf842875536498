import RisePir.Rpc.StateFile
import RisePir.Server.Ledger

set_option autoImplicit false
set_option relaxedAutoImplicit false

/-! A block that fails midway and is applied again, in the same process or after its torn cells
went through a state file. The changes it had written are written over; the credits are not. -/

namespace RisePir.Rpc.Retry

open RisePir.Lib.KeyedAmounts
open RisePir.Lib.Sparse
open RisePir.Proto.Types
open RisePir.Proto.Value
open RisePir.Upstream.Cuckoo
open RisePir.Upstream.Pir
open RisePir.Upstream.ReferencePir
open RisePir.Upstream.ReferenceTable
open RisePir.Server.Core
open RisePir.Server.Effect
open RisePir.Server.Ledger
open RisePir.Server.Refinement
open RisePir.Server.Small
open RisePir.Http.Setup
open RisePir.Rpc.State
open RisePir.Rpc.StateFile

variable {p : CuckooParams} {C : SegmentedCuckoo p} {B : PirBackend}
  {code : LoaderCode} {xxh3 : List UInt8 → BitVec 64}

section Failure

variable {codec : ValueCodec} {t t' : Table C} {update : BlockUpdate}
  {step : Table C → AddressHash → Balance → Table C × Except ServerError ChangeKind}

/-- Where an attempt at a block stops: at a change, or at the credit that follows the credits
`paid`. -/
inductive StopsAfter (codec : ValueCodec) (t : Table C) (update : BlockUpdate) :
    (paid : List (AddressHash × Balance)) → Prop
  | atChange {t₁ : Table C} {e : ServerError}
      (refused : applyEach (applyChange codec) t update.changes = (t₁, .error e)) :
      StopsAfter codec t update []
  | atCredit {t₁ t₂ t₃ : Table C} {kinds kinds' : List ChangeKind} {e : ServerError}
      {paid rest : List (AddressHash × Balance)} {credit : AddressHash × Balance}
      (changes : applyEach (applyChange codec) t update.changes = (t₁, .ok kinds))
      (split : update.credits = paid ++ credit :: rest)
      (reached : applyEach (applyCredit codec) t₁ paid = (t₂, .ok kinds'))
      (refused : applyCredit codec t₂ credit.1 credit.2 = (t₃, .error e)) :
      StopsAfter codec t update paid

private theorem applyEach_stops {entries : List (AddressHash × Balance)} {e : ServerError}
    (h : applyEach step t entries = (t', .error e)) :
    ∃ (t₂ t₃ : Table C) (kinds : List ChangeKind) (entry : AddressHash × Balance)
      (rest : List (AddressHash × Balance)),
      entries = writtenBefore step t entries ++ entry :: rest ∧
        applyEach step t (writtenBefore step t entries) = (t₂, .ok kinds) ∧
        step t₂ entry.1 entry.2 = (t₃, .error e) := by
  induction entries generalizing t t' with
  | nil => cases h
  | cons entry rest ih =>
      obtain ⟨addr, balance⟩ := entry
      rw [applyEach] at h
      cases hstep : step t addr balance with
      | mk t₁ r =>
          rw [hstep] at h
          cases r with
          | error e' =>
              obtain ⟨-, he⟩ := Prod.mk.inj h
              cases he
              refine ⟨t, t₁, [], (addr, balance), rest, ?_, ?_, hstep⟩
              · rw [writtenBefore, hstep, List.nil_append]
              · rw [writtenBefore, hstep, applyEach]
          | ok kind =>
              dsimp only at h
              cases hrest : applyEach step t₁ rest with
              | mk t₂ r' =>
                  rw [hrest] at h
                  cases r' with
                  | ok kinds => cases h
                  | error e' =>
                      obtain ⟨-, he⟩ := Prod.mk.inj h
                      cases he
                      obtain ⟨t₃, t₄, kinds, entry, later, split, reached, refused⟩ := ih hrest
                      refine ⟨t₃, t₄, kind :: kinds, entry, later, ?_, ?_, refused⟩
                      · rw [writtenBefore, hstep]
                        dsimp only
                        rw [List.cons_append, ← split]
                      · rw [writtenBefore, hstep]
                        dsimp only
                        rw [applyEach, hstep]
                        dsimp only
                        rw [reached]

/-- A failed attempt stops somewhere, behind the credits it wrote. -/
theorem stopsAfter_written {e : ServerError} (h : applyEntries codec t update = (t', .error e)) :
    StopsAfter codec t update (writtenCredits codec t update) := by
  unfold applyEntries at h
  unfold writtenCredits
  cases hc : applyEach (applyChange codec) t update.changes with
  | mk t₁ r =>
      rw [hc] at h
      cases r with
      | error e' => exact .atChange hc
      | ok kinds =>
          dsimp only at h ⊢
          cases hd : applyEach (applyCredit codec) t₁ update.credits with
          | mk t₂ r' =>
              rw [hd] at h
              cases r' with
              | ok kinds' => cases h
              | error e' =>
                  obtain ⟨t₃, t₄, kinds', credit, rest, split, reached, refused⟩ :=
                    applyEach_stops hd
                  exact .atCredit hc split reached refused

theorem stopsAfter_error {s s' : RisePirServer C B} {rng : C.Rng} {e : ServerError}
    (ascends : s.block < update.block)
    (fails : s.applyBlockReporting rng update = (s', .error e)) :
    StopsAfter s.valueCodec ⟨rng, s.store⟩ update
      (writtenCredits s.valueCodec ⟨rng, s.store⟩ update) := by
  rw [RisePirServer.applyBlockReporting, if_neg (by omega)] at fails
  cases he : applyEntries s.valueCodec ⟨rng, s.store⟩ update with
  | mk t r =>
      rw [he] at fails
      cases r with
      | ok kinds => cases fails
      | error e' => exact stopsAfter_written he

/-- A block that is applied is above the head. -/
theorem apply_ascends {s s' : RisePirServer C B} {rng : C.Rng}
    {out : BlockDelta × BlockApplyReport}
    (applied : s.applyBlockReporting rng update = (s', .ok out)) : s.block < update.block := by
  by_contra below
  rw [RisePirServer.applyBlockReporting, if_pos (by omega)] at applied
  cases applied

theorem writtenChanges_first (codec : ValueCodec) (t : Table C) (update : BlockUpdate) :
    writtenChanges codec t update <+: update.changes := writtenBefore_prefix _ _

theorem writtenCredits_first (codec : ValueCodec) (t : Table C) (update : BlockUpdate) :
    writtenCredits codec t update <+: update.credits := by
  unfold writtenCredits
  split
  · exact List.nil_prefix
  · exact writtenBefore_prefix _ _

end Failure

/-- How a server goes on after a failed block: in the same process, or loaded again from the state
file that a forced save wrote. -/
inductive Resumes (code : LoaderCode) (xxh3 : List UInt8 → BitVec 64) (s : RisePirServer C B) :
    RisePirServer C B → Prop
  | sameProcess : Resumes code xxh3 s s
  | reloaded {s' : RisePirServer C B} {complete : Bool} {loaded : LoadedState}
      (valid : s.valueCodec.ValidWidths) (storable : Storable s)
      (loads : load code xxh3 s.valueCodec (save xxh3 s s.valueCodec complete) = some (.ok loaded))
      (server : LoadedServer.of s' = loaded.server) : Resumes code xxh3 s s'

theorem Resumes.keeps (laws : code.Laws) (rebuilds : code.Rebuilds C) {s s' : RisePirServer C B}
    (h : Resumes code xxh3 s s') :
    s'.store.cells = s.store.cells ∧ s'.valueCodec = s.valueCodec ∧ s'.block = s.block := by
  cases h with
  | sameProcess => exact ⟨rfl, rfl, rfl⟩
  | reloaded valid storable loads server =>
      rw [load_save_server laws rebuilds valid storable loads] at server
      exact ⟨congrArg LoadedServer.cells server, congrArg LoadedServer.valueCodec server,
        congrArg LoadedServer.block server⟩

section Retry

variable {s failed resumed retried : RisePirServer C B} {m : Balances} {update : BlockUpdate}
  {rng rng' : C.Rng}

private theorem balanceOf_of_codec (laws : C.PlacementLaws) {codec : ValueCodec}
    (same : s.valueCodec = codec) (h : Represents C codec s.store.cells m) {k : AddressHash}
    (clear : Clear C codec m k) : s.balanceOf k = .ok (m k) := by
  subst same
  exact balanceOf_eq laws h clear

/-- The keys that a torn block leaves in play are in play for the block. -/
theorem inPlay_torn {k : AddressHash} {wrote paid : List (AddressHash × Balance)}
    (changed : wrote <+: update.changes) (credited : paid <+: update.credits)
    (h : k ∈ InPlay (credits (writes m wrote) paid) update) : k ∈ InPlay m update := by
  rcases h with live | change | credit
  · have wrote_or_paid : k ∈ InPlay m ⟨update.block, wrote, paid⟩ := ledgerBlock_live live
    rcases wrote_or_paid with h | h | h
    · exact .inl h
    · exact .inr (.inl (List.map_subset Prod.fst changed.subset h))
    · exact .inr (.inr (List.map_subset Prod.fst credited.subset h))
  · exact .inr (.inl change)
  · exact .inr (.inr credit)

theorem retry_balances (laws : C.PlacementLaws) (loader : code.Laws) (rebuilds : code.Rebuilds C)
    {e : ServerError} {out : BlockDelta × BlockApplyReport}
    (consistent : Represents C s.valueCodec s.store.cells m)
    (separated : Separated C s.valueCodec (InPlay m update)) (ascends : s.block < update.block)
    (fails : s.applyBlockReporting rng update = (failed, .error e))
    (resumes : Resumes code xxh3 failed resumed)
    (succeeds : resumed.applyBlockReporting rng' update = (retried, .ok out)) :
    retried.valueCodec = s.valueCodec ∧ Represents C s.valueCodec retried.store.cells
      (ledgerBlock (credits (writes m (writtenChanges s.valueCodec ⟨rng, s.store⟩ update))
        (writtenCredits s.valueCodec ⟨rng, s.store⟩ update)) update) := by
  obtain ⟨codec, -, torn⟩ := apply_error_represents laws consistent separated ascends fails
  obtain ⟨cells, codec', -⟩ := resumes.keeps loader rebuilds
  have inPlay := separated.mono fun k hk => inPlay_torn
    (writtenChanges_first s.valueCodec ⟨rng, s.store⟩ update)
    (writtenCredits_first s.valueCodec ⟨rng, s.store⟩ update) hk
  rw [← codec, ← codec'] at torn inPlay ⊢
  rw [← cells] at torn
  obtain ⟨codec'', after⟩ := apply_represents laws torn inPlay succeeds
  exact ⟨codec'', after⟩

/-- A block that fails is applied again, in the same process or from the saved state. The balances
are those of applying it once exactly when no credit before the failing entry paid an address that
the block does not also write. -/
theorem retry_exact_iff (laws : C.PlacementLaws) (loader : code.Laws) (rebuilds : code.Rebuilds C)
    {e : ServerError} {out : BlockDelta × BlockApplyReport}
    (consistent : Represents C s.valueCodec s.store.cells m)
    (separated : Separated C s.valueCodec (InPlay m update))
    (fails : s.applyBlockReporting rng update = (failed, .error e))
    (resumes : Resumes code xxh3 failed resumed)
    (succeeds : resumed.applyBlockReporting rng' update = (retried, .ok out)) :
    ∃ paid, StopsAfter s.valueCodec ⟨rng, s.store⟩ update paid ∧
      (∀ rng'' once out', s.applyBlockReporting rng'' update = (once, .ok out') →
        ∀ k, Clear C s.valueCodec (ledgerBlock m update) k →
          once.balanceOf k = .ok (ledgerBlock m update k)) ∧
      ((∀ k, Clear C s.valueCodec (ledgerBlock m update) k →
          retried.balanceOf k = .ok (ledgerBlock m update k)) ↔
        ∀ k ∉ named update.changes, total paid k = 0) := by
  obtain ⟨-, stays, -⟩ := RisePirServer.apply_error_keeps fails
  obtain ⟨-, -, head⟩ := resumes.keeps loader rebuilds
  have ascends : s.block < update.block := by
    have := apply_ascends succeeds
    omega
  have changed := writtenChanges_first s.valueCodec ⟨rng, s.store⟩ update
  have credited := writtenCredits_first s.valueCodec ⟨rng, s.store⟩ update
  obtain ⟨codec, after⟩ :=
    retry_balances laws loader rebuilds consistent separated ascends fails resumes succeeds
  have reads : ∀ k, Clear C s.valueCodec (ledgerBlock m update) k → retried.balanceOf k =
      .ok (ledgerBlock (credits (writes m (writtenChanges s.valueCodec ⟨rng, s.store⟩ update))
        (writtenCredits s.valueCodec ⟨rng, s.store⟩ update)) update k) := by
    intro k clear
    apply balanceOf_of_codec laws codec after
    exact fun k' live => clear k' (replay_live changed credited live)
  refine ⟨writtenCredits s.valueCodec ⟨rng, s.store⟩ update, stopsAfter_error ascends fails, ?_, ?_⟩
  · intro rng'' once out' applied k clear
    obtain ⟨codec', once_after⟩ := apply_represents laws consistent separated applied
    exact balanceOf_of_codec laws codec' once_after clear
  · constructor
    · intro exact_once k hk
      by_cases hcredit : k ∈ named update.credits
      · have clear : Clear C s.valueCodec (ledgerBlock m update) k :=
          separated.clear (fun _ live => ledgerBlock_live live) (.inr (.inr hcredit))
        have same := exact_once k clear
        rw [reads k clear] at same
        exact (replay_iff changed credited).mp (Except.ok.inj same) hk
      · apply total_eq_zero
        intro e he heq
        apply hcredit
        rw [← heq]
        exact List.mem_map_of_mem (credited.subset he)
    · intro unpaid k clear
      rw [reads k clear]
      exact congrArg Except.ok ((replay_iff changed credited).mpr (unpaid k))

end Retry

section Small

private def teller : AddressHash := smallKey 3 1 0 0

private def depositor : AddressHash := smallKey 4 2 0 1

private def opening : BlockUpdate := ⟨8, [(teller, 5)], []⟩

/-- Two withdrawal credits, the second to a new address. -/
private def withdrawals : BlockUpdate := ⟨9, [], [(teller, 3), (depositor, 4)]⟩

/-- The same credits behind a change of the first address. -/
private def spending : BlockUpdate := ⟨9, [(teller, 9)], [(teller, 3), (depositor, 4)]⟩

private def opened : OwnServer := (ownServer.applyBlockReporting (Draw.mk 0 2) opening).1

/-- The server after an attempt that finds no slot for the new address. -/
private def torn (update : BlockUpdate) : OwnServer :=
  (opened.applyBlockReporting (Draw.mk 0 0) update).1

private def again (update : BlockUpdate) : OwnServer :=
  ((torn update).applyBlockReporting (Draw.mk 0 2) update).1

private theorem attempt {s : OwnServer} {draw : Draw} {update : BlockUpdate}
    (ok : (s.applyBlockReporting draw update).2.toOption.isSome = true) :
    ∃ out, s.applyBlockReporting draw update =
      ((s.applyBlockReporting draw update).1, .ok out) := by
  cases h : s.applyBlockReporting draw update with
  | mk s' r =>
      rw [h] at ok
      cases r with
      | error e => cases ok
      | ok out => exact ⟨out, rfl⟩

private theorem own_loads {s : OwnServer} (codec : s.valueCodec = smallCodec)
    (storable : Storable s) : load referenceLoader (fun _ => 0) s.valueCodec
      (save (fun _ => 0) s s.valueCodec true) = some (.ok ⟨.of s, true, 0⟩) := by
  have valid : s.valueCodec.ValidWidths := by
    rw [codec]
    decide
  have lineage : OwnLineage referenceLoader s.valueCodec (.of ownParams) := by
    rw [codec]
    exact ownLineage rfl (by decide) rfl rfl rfl
  rw [load, parseRaw_save referenceLoader_laws valid storable lineage]
  exact assemble_parts referenceLoader_laws (referenceLoader_rebuilds ownParams) rfl rfl rfl

private theorem smallKeys_apart {keys : Set AddressHash}
    (h : ∀ k ∈ keys, k ∈ [teller, depositor]) :
    Separated (referenceTable ownParams) smallCodec keys :=
  separated_of_list h (by decide)

private theorem opened_represents : Represents (referenceTable ownParams) opened.valueCodec
    opened.store.cells (ledgerBlock (fun _ => none) opening) := by
  have empty : Represents (referenceTable ownParams) ownServer.valueCodec ownServer.store.cells
      fun _ => none :=
    represents_empty fun s occupied => occupied.2 (emptyStore_vacant occupied.1)
  obtain ⟨out, applied⟩ := @attempt ownServer (Draw.mk 0 2) opening (by decide +kernel)
  have inPlay : ∀ k ∈ InPlay (fun _ => none) opening, k ∈ [teller, depositor] := by
    rintro k (h | h | h)
    · exact absurd rfl h
    · exact List.mem_of_mem_take (i := 1) h
    · cases h
  obtain ⟨codec, after⟩ :=
    apply_represents (placementLaws ownParams) empty (smallKeys_apart inPlay) applied
  rw [← codec] at after
  exact after

private theorem opened_inPlay {update : BlockUpdate}
    (named : ∀ k, k ∈ named update.changes ∨ k ∈ named update.credits → k ∈ [teller, depositor]) :
    ∀ k ∈ InPlay (ledgerBlock (fun _ => none) opening) update, k ∈ [teller, depositor] := by
  rintro k (live | h)
  · rcases ledgerBlock_live live with h | h | h
    · exact absurd rfl h
    · exact List.mem_of_mem_take (i := 1) h
    · cases h
  · exact named k h

/-- A block whose second credit fails after a change and a credit to one address, saved, loaded and
applied again: that address holds what it holds after one application. -/
theorem retry_exact_iff_spending : (again spending).balanceOf teller = .ok (some 12) := by
  obtain ⟨out, succeeds⟩ := @attempt (torn spending) (Draw.mk 0 2) spending (by decide +kernel)
  have fails : opened.applyBlockReporting (Draw.mk 0 0) spending =
      (torn spending, .error .tableFull) := Prod.ext rfl (by decide +kernel)
  have storable : Storable (torn spending) :=
    storable_of_own (by decide +kernel) (by decide +kernel) (by decide +kernel) (by decide +kernel)
      (by decide +kernel)
  have inPlay : ∀ k ∈ InPlay (ledgerBlock (fun _ => none) opening) spending,
      k ∈ [teller, depositor] := by
    apply opened_inPlay
    rintro k (h | h)
    · exact List.mem_of_mem_take (i := 1) h
    · exact h
  obtain ⟨paid, stops, -, exact_iff⟩ := retry_exact_iff (placementLaws ownParams)
    referenceLoader_laws (referenceLoader_rebuilds ownParams) opened_represents
    (smallKeys_apart inPlay) fails
    (.reloaded (by decide) storable (own_loads rfl storable) rfl) succeeds
  have unpaid : ∀ k ∉ named spending.changes, total paid k = 0 := by
    intro k hk
    cases stops with
    | atChange refused => rfl
    | atCredit changes split reached refused =>
        have bound := congrArg List.length split
        rw [List.length_append, List.length_cons] at bound
        have first : paid <+: [(teller, 3)] := by
          have whole : [(teller, 3)] <+: spending.credits := ⟨[(depositor, 4)], rfl⟩
          refine List.prefix_of_prefix_length_le ⟨_, split.symm⟩ whole ?_
          simp only [spending, List.length_cons, List.length_nil] at bound ⊢
          omega
        apply total_eq_zero
        intro e he heq
        apply hk
        rw [← heq, List.mem_singleton.mp (first.subset he)]
        exact List.mem_singleton.mpr rfl
  have clear : Clear (referenceTable ownParams) opened.valueCodec
      (ledgerBlock (ledgerBlock (fun _ => none) opening) spending) teller :=
    (smallKeys_apart inPlay).clear (fun _ live => ledgerBlock_live live)
      (.inr (.inl (List.mem_singleton.mpr rfl)))
  exact (exact_iff.mpr unpaid teller clear).trans (by decide +kernel)

/-- A balance of five is credited with three. The next credit finds no slot, the block fails, the
torn cells are saved under the old block number and loaded, and the block is applied again: the
balance is eleven, where one application makes it eight. -/
theorem withdrawal_paid_twice :
    opened.balanceOf teller = .ok (some 5) ∧
      (opened.applyBlockReporting (Draw.mk 0 0) withdrawals).2 = .error .tableFull ∧
      load referenceLoader (fun _ => 0) smallCodec (save (fun _ => 0) (torn withdrawals) smallCodec
        true) = some (.ok ⟨.of (torn withdrawals), true, 0⟩) ∧
      (torn withdrawals).block = opened.block ∧
      ((torn withdrawals).applyBlockReporting (Draw.mk 0 2) withdrawals).2.toOption.isSome = true ∧
      (again withdrawals).balanceOf teller = .ok (some 11) ∧
      (opened.applyBlockReporting (Draw.mk 0 2) withdrawals).2.toOption.isSome = true ∧
      (opened.applyBlockReporting (Draw.mk 0 2) withdrawals).1.balanceOf teller =
        .ok (some 8) := by
  have codec : (torn withdrawals).valueCodec = smallCodec := rfl
  have storable : Storable (torn withdrawals) :=
    storable_of_own (by decide +kernel) (by decide +kernel) (by decide +kernel) (by decide +kernel)
      (by decide +kernel)
  have loads := own_loads codec storable
  rw [codec] at loads
  exact ⟨by decide +kernel, by decide +kernel, loads, by decide +kernel, by decide +kernel,
    by decide +kernel, by decide +kernel, by decide +kernel⟩

end Small

end RisePir.Rpc.Retry
