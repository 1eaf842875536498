import RisePir.Server.Effect

set_option autoImplicit false
set_option relaxedAutoImplicit false

/-! Blocks that are refused before anything is written. -/

namespace RisePir.Server.Refusal

open RisePir.Lib.Splice
open RisePir.Proto.Types
open RisePir.Proto.Value
open RisePir.Upstream.Cuckoo
open RisePir.Upstream.Pir
open RisePir.Upstream.Slots
open RisePir.Server.Verified
open RisePir.Server.Core
open RisePir.Server.Effect

variable {p : CuckooParams} (C : SegmentedCuckoo p) {B : PirBackend} (codec : ValueCodec)

/-- A change to what the table holds already: a zero for an absent key, or a balance whose
encoding stands in the key's slot. -/
def Idle (cells : List (BitVec 32)) (addr : AddressHash) (balance : Balance) : Prop :=
  if balance = 0 then ∃ foreign, locate C codec cells addr = .absent foreign
  else ∃ prior encoded s, locate C codec cells addr = .own prior ∧
    codec.encode addr balance = .ok encoded ∧ C.firstMatch cells addr = some s ∧
    slotCells p cells s = C.slotContent (C.fp addr) encoded

/-- A credit after which the table holds what it held. -/
def IdleCredit (cells : List (BitVec 32)) (addr : AddressHash) (amount : Balance) : Prop :=
  ∃ prior, Verified.get C codec cells addr = .ok prior ∧ prior.getD 0 + amount < 2 ^ 128 ∧
    Idle C codec cells addr (prior.getD 0 + amount)

/-- `step` refuses the entry on every table with these cells and this random source. -/
def Refused {C : SegmentedCuckoo p}
    (step : Table C → AddressHash → Balance → Table C × Except ServerError ChangeKind)
    (rng : C.Rng) (cells : List (BitVec 32)) (entry : AddressHash × Balance) : Prop :=
  ∀ t, t.rng = rng → t.store.cells = cells → ∃ t' e, step t entry.1 entry.2 = (t', .error e)

/-- The block is refused at an entry before which nothing is written: at its number, or at
a change or credit that only idle entries precede. -/
inductive RefusedUnwritten (rng : C.Rng) (s : RisePirServer C B) (update : BlockUpdate) : Prop
  | stale (block : update.block ≤ s.block)
  | change (idle : List (AddressHash × Balance)) (refused : AddressHash × Balance)
      (rest : List (AddressHash × Balance)) (entries : update.changes = idle ++ refused :: rest)
      (before : ∀ e ∈ idle, Idle C s.valueCodec s.store.cells e.1 e.2)
      (at_entry : Refused (applyChange s.valueCodec) rng s.store.cells refused)
  | credit (idle : List (AddressHash × Balance)) (refused : AddressHash × Balance)
      (rest : List (AddressHash × Balance)) (entries : update.credits = idle ++ refused :: rest)
      (changes : ∀ e ∈ update.changes, Idle C s.valueCodec s.store.cells e.1 e.2)
      (before : ∀ e ∈ idle, IdleCredit C s.valueCodec s.store.cells e.1 e.2)
      (at_entry : Refused (applyCredit s.valueCodec) rng s.store.cells refused)

variable {C codec}

/-- An entry that succeeds on every table with these cells, draws nothing and writes nothing. -/
private def Quiet
    (step : Table C → AddressHash → Balance → Table C × Except ServerError ChangeKind)
    (rng : C.Rng) (cells : List (BitVec 32)) (entry : AddressHash × Balance) : Prop :=
  ∀ t, t.rng = rng → t.store.cells = cells → ∃ store kind,
    step t entry.1 entry.2 = (⟨rng, store⟩, .ok kind) ∧ store.cells = cells

private theorem idle_quiet (laws : C.PlacementLaws) {cells : List (BitVec 32)} {addr : AddressHash}
    {balance : Balance} (h : Idle C codec cells addr balance) (rng : C.Rng) :
    Quiet (applyChange codec) rng cells (addr, balance) := by
  rintro t rfl rfl
  unfold Idle at h
  unfold applyChange
  dsimp only
  split at h
  · rename_i hzero
    obtain ⟨foreign, habsent⟩ := h
    rw [if_pos hzero, habsent]
    exact ⟨t.store, .noopDelete, rfl, rfl⟩
  · rename_i hne
    obtain ⟨prior, encoded, s, hown, henc, hfirst, hcontent⟩ := h
    obtain ⟨store, hupdate, hcells⟩ := laws.update_first _ _ encoded _ hfirst
    have slot : p.IsSlot s := isSlot_of_mem_probe laws (List.mem_of_find?_eq_some hfirst)
    rw [if_neg hne, henc]
    dsimp only
    rw [hown]
    dsimp only
    rw [hupdate]
    refine ⟨store, .update, rfl, ?_⟩
    rw [hcells, ← hcontent]
    exact writeSlot_self slot t.store.cells_length

private theorem idleCredit_quiet (laws : C.PlacementLaws) {cells : List (BitVec 32)}
    {addr : AddressHash} {amount : Balance} (h : IdleCredit C codec cells addr amount)
    (rng : C.Rng) : Quiet (applyCredit codec) rng cells (addr, amount) := by
  rintro t hrng rfl
  obtain ⟨prior, hget, hsum, hidle⟩ := h
  obtain ⟨store, kind, hchange, hcells⟩ := idle_quiet laws hidle rng t hrng rfl
  refine ⟨store, kind, ?_, hcells⟩
  dsimp only [applyCredit]
  rw [hget]
  dsimp only
  rw [if_pos hsum]
  exact hchange

section Loop

variable {step : Table C → AddressHash → Balance → Table C × Except ServerError ChangeKind}
  {rng : C.Rng} {cells : List (BitVec 32)} {t : Table C}

private theorem applyEach_quiet {entries : List (AddressHash × Balance)}
    (quiet : ∀ e ∈ entries, Quiet step rng cells e) (hrng : t.rng = rng)
    (hcells : t.store.cells = cells) :
    ∃ store kinds, applyEach step t entries = (⟨rng, store⟩, .ok kinds) ∧ store.cells = cells := by
  induction entries generalizing t with
  | nil => exact ⟨t.store, [], by rw [← hrng]; rfl, hcells⟩
  | cons entry rest ih =>
      obtain ⟨addr, balance⟩ := entry
      obtain ⟨store, kind, hstep, hstore⟩ := quiet (addr, balance) (by simp) t hrng hcells
      obtain ⟨store', kinds, hrest, hstore'⟩ := ih (t := ⟨rng, store⟩)
        (fun e he => quiet e (List.mem_cons_of_mem _ he)) rfl hstore
      refine ⟨store', kind :: kinds, ?_, hstore'⟩
      have hstep : step t addr balance = (⟨rng, store⟩, .ok kind) := hstep
      rw [applyEach, hstep]
      dsimp only
      rw [hrest]

/-- A loop that meets a refused entry behind quiet ones fails with the cells it had. -/
private theorem applyEach_refused
    (error : ∀ t t' addr balance e, step t addr balance = (t', .error e) → t'.store = t.store)
    {idle : List (AddressHash × Balance)} (rest : List (AddressHash × Balance))
    {refused : AddressHash × Balance} (quiet : ∀ e ∈ idle, Quiet step rng cells e)
    (at_entry : Refused step rng cells refused)
    (hrng : t.rng = rng) (hcells : t.store.cells = cells) :
    ∃ t' e, applyEach step t (idle ++ refused :: rest) = (t', .error e) ∧
      t'.store.cells = cells := by
  induction idle generalizing t with
  | nil =>
      obtain ⟨addr, balance⟩ := refused
      obtain ⟨t', e, hstep⟩ := at_entry t hrng hcells
      have hstep : step t addr balance = (t', .error e) := hstep
      refine ⟨t', e, ?_, by rw [error _ _ _ _ _ hstep, hcells]⟩
      rw [List.nil_append, applyEach, hstep]
  | cons entry idle ih =>
      obtain ⟨addr, balance⟩ := entry
      obtain ⟨store, kind, hstep, hstore⟩ := quiet (addr, balance) (by simp) t hrng hcells
      obtain ⟨t', e, hrest, ht'⟩ := ih (t := ⟨rng, store⟩)
        (fun e he => quiet e (List.mem_cons_of_mem _ he)) rfl hstore
      refine ⟨t', e, ?_, ht'⟩
      have hstep : step t addr balance = (⟨rng, store⟩, .ok kind) := hstep
      rw [List.cons_append, applyEach, hstep]
      dsimp only
      rw [hrest]

end Loop

/-- A block refused unwritten fails and leaves cells, hints and head as they were. -/
theorem RefusedUnwritten.untouched (laws : C.PlacementLaws) {rng : C.Rng} {s : RisePirServer C B}
    {update : BlockUpdate} (h : RefusedUnwritten C rng s update) :
    ∃ s' e, s.applyBlockReporting rng update = (s', .error e) ∧
      s'.store.cells = s.store.cells ∧ s'.segments = s.segments ∧ s'.block = s.block ∧
      s'.valueCodec = s.valueCodec := by
  unfold RisePirServer.applyBlockReporting
  by_cases hblock : update.block ≤ s.block
  · rw [if_pos hblock]
    exact ⟨s, _, rfl, rfl, rfl, rfl, rfl⟩
  · rw [if_neg hblock]
    have fails : ∃ t e, applyEntries s.valueCodec ⟨rng, s.store⟩ update = (t, .error e) ∧
        t.store.cells = s.store.cells := by
      cases h with
      | stale block => exact absurd block hblock
      | change idle refused rest entries before at_entry =>
          obtain ⟨t, e, hloop, ht⟩ := applyEach_refused (t := ⟨rng, s.store⟩)
            (fun _ _ _ _ _ => applyChange_error) rest
            (fun e he => idle_quiet laws (before e he) rng) at_entry rfl rfl
          refine ⟨t, e, ?_, ht⟩
          rw [applyEntries, entries, hloop]
      | credit idle refused rest entries changes before at_entry =>
          obtain ⟨store, kinds, hchanges, hstore⟩ := applyEach_quiet (t := ⟨rng, s.store⟩)
            (fun e he => idle_quiet laws (changes e he) rng) rfl rfl
          obtain ⟨t, e, hloop, ht⟩ := applyEach_refused (t := ⟨rng, store⟩)
            (fun _ _ _ _ _ => applyCredit_error) rest
            (fun e he => idleCredit_quiet laws (before e he) rng) at_entry rfl hstore
          refine ⟨t, e, ?_, ht⟩
          rw [applyEntries, hchanges]
          dsimp only
          rw [entries, hloop]
    obtain ⟨t, e, hentries, ht⟩ := fails
    rw [hentries]
    exact ⟨s.rejectBlock t.store, e, rfl, ht, rfl, rfl, rfl⟩

/-- A balance that does not encode is refused by every table. -/
theorem refused_of_encode {rng : C.Rng} {cells : List (BitVec 32)} {addr : AddressHash}
    {balance : Balance} {err : ValueError} (nonzero : balance ≠ 0)
    (h : codec.encode addr balance = .error err) :
    Refused (applyChange codec) rng cells (addr, balance) := by
  intro t _ _
  refine ⟨t, .encode err, ?_⟩
  dsimp only [applyChange]
  rw [if_neg nonzero, h]

end RisePir.Server.Refusal
