import RisePir.Lib.Sparse
import Mathlib.Logic.Function.Basic

set_option autoImplicit false
set_option relaxedAutoImplicit false

/-! Ledgers: partial maps from keys to amounts, under absolute writes and relative
credits. A zero amount is stored as an absent entry. -/

namespace RisePir.Lib.KeyedAmounts

open RisePir.Lib.Sparse

variable {κ : Type} [DecidableEq κ]

abbrev Ledger (κ : Type) : Type := κ → Option Nat

/-- How an amount is stored. -/
def stored (v : Nat) : Option Nat := if v = 0 then none else some v

/-- An absent key counts as zero. -/
def amount (m : Ledger κ) (k : κ) : Nat := (m k).getD 0

/-- An absolute write: the last one wins, a zero deletes. -/
def write (m : Ledger κ) (e : κ × Nat) : Ledger κ := Function.update m e.1 (stored e.2)

/-- A relative credit. -/
def credit (m : Ledger κ) (e : κ × Nat) : Ledger κ := write m (e.1, amount m e.1 + e.2)

def writes (m : Ledger κ) (es : List (κ × Nat)) : Ledger κ := es.foldl write m

def credits (m : Ledger κ) (es : List (κ × Nat)) : Ledger κ := es.foldl credit m

/-- The keys that a list of entries names. -/
abbrev named (es : List (κ × Nat)) : List κ := es.map Prod.fst

omit [DecidableEq κ] in
@[simp] theorem stored_getD (v : Nat) : (stored v).getD 0 = v := by
  unfold stored
  split
  · rename_i h
    exact h.symm
  · rfl

theorem stored_inj {v w : Nat} : stored v = stored w ↔ v = w := by
  constructor
  · intro h
    rw [← stored_getD v, h, stored_getD]
  · rintro rfl
    rfl

theorem write_apply (m : Ledger κ) (e : κ × Nat) (k : κ) :
    write m e k = if k = e.1 then stored e.2 else m k := Function.update_apply m e.1 _ k

theorem credit_apply (m : Ledger κ) (e : κ × Nat) (k : κ) :
    credit m e k = if k = e.1 then stored (amount m k + e.2) else m k := by
  rw [credit, write_apply]
  by_cases h : k = e.1
  · rw [if_pos h, if_pos h, h]
  · rw [if_neg h, if_neg h]

/-- The last amount written under a key. -/
def lastWrite : List (κ × Nat) → κ → Option Nat
  | [], _ => none
  | e :: es, k => (lastWrite es k).or (if e.1 = k then some e.2 else none)

theorem lastWrite_eq_none {es : List (κ × Nat)} {k : κ} :
    lastWrite es k = none ↔ k ∉ named es := by
  induction es with
  | nil => simp [lastWrite]
  | cons e es ih =>
      rw [lastWrite, Option.or_eq_none_iff, ih]
      simp [eq_comm, and_comm]

theorem lastWrite_append (es es' : List (κ × Nat)) (k : κ) :
    lastWrite (es ++ es') k = (lastWrite es' k).or (lastWrite es k) := by
  induction es with
  | nil => simp [lastWrite]
  | cons e es ih => rw [List.cons_append, lastWrite, lastWrite, ih, Option.or_assoc]

/-- Where every key is named once, an entry is the last of its key. -/
theorem lastWrite_of_mem {es : List (κ × Nat)} (nodup : (named es).Nodup) {k : κ} {v : Nat}
    (h : (k, v) ∈ es) : lastWrite es k = some v := by
  induction es with
  | nil => cases h
  | cons e es ih =>
      have nodup' : e.1 ∉ named es ∧ (named es).Nodup := List.nodup_cons.mp nodup
      rw [lastWrite]
      rcases List.mem_cons.mp h with rfl | h
      · rw [lastWrite_eq_none.mpr nodup'.1, if_pos rfl, Option.none_or]
      · rw [ih nodup'.2 h, Option.some_or]

/-- Where every entry of a key writes the same amount, that amount is the last. -/
theorem lastWrite_of_forall {es : List (κ × Nat)} {k : κ} {v : Nat} (mem : k ∈ named es)
    (same : ∀ e ∈ es, e.1 = k → e.2 = v) : lastWrite es k = some v := by
  induction es with
  | nil => cases mem
  | cons e es ih =>
      rw [lastWrite]
      by_cases later : k ∈ named es
      · rw [ih later fun e' he' => same e' (List.mem_cons_of_mem e he'), Option.some_or]
      · have here : e.1 = k := by
          rcases List.mem_cons.mp mem with rfl | mem
          · rfl
          · exact absurd mem later
        rw [lastWrite_eq_none.mpr later, if_pos here, same e List.mem_cons_self here, Option.none_or]

/-- A renaming of the keys that keeps `i` apart from the others. -/
theorem lastWrite_map {ι : Type} [DecidableEq ι] {f : ι → κ} {es : List (ι × Nat)} {i : ι}
    (apart : ∀ e ∈ es, f e.1 = f i → e.1 = i) :
    lastWrite (es.map fun e => (f e.1, e.2)) (f i) = lastWrite es i := by
  induction es with
  | nil => rfl
  | cons e es ih =>
      have here : f e.1 = f i ↔ e.1 = i := ⟨apart e List.mem_cons_self, congrArg f⟩
      rw [List.map_cons, lastWrite, lastWrite, ih fun e' he => apart e' (List.mem_cons_of_mem e he)]
      simp only [here]

/-- After writes a key holds its last written amount, or what it held before. -/
theorem writes_apply (m : Ledger κ) (es : List (κ × Nat)) (k : κ) :
    writes m es k = match lastWrite es k with
      | some v => stored v
      | none => m k := by
  induction es generalizing m with
  | nil => rfl
  | cons e es ih =>
      rw [writes, List.foldl_cons, ← writes, ih, lastWrite]
      cases lastWrite es k with
      | some v => rfl
      | none =>
          rw [write_apply, Option.none_or]
          by_cases h : k = e.1
          · simp [h]
          · rw [if_neg h, if_neg (Ne.symm h)]

theorem writes_of_notMem {m : Ledger κ} {es : List (κ × Nat)} {k : κ} (h : k ∉ named es) :
    writes m es k = m k := by
  rw [writes_apply, lastWrite_eq_none.mpr h]

/-- A written key's amount does not depend on the ledger before. -/
theorem writes_of_mem {m m' : Ledger κ} {es : List (κ × Nat)} {k : κ} (h : k ∈ named es) :
    writes m es k = writes m' es k := by
  rw [writes_apply, writes_apply]
  cases hl : lastWrite es k with
  | some v => rfl
  | none => exact absurd h (lastWrite_eq_none.mp hl)

/-- After credits a credited key holds its amount plus the sum of its credits. -/
theorem credits_apply (m : Ledger κ) (es : List (κ × Nat)) (k : κ) :
    credits m es k = if k ∈ named es then stored (amount m k + total es k) else m k := by
  induction es generalizing m with
  | nil => rfl
  | cons e es ih =>
      rw [credits, List.foldl_cons, ← credits, ih, total_cons]
      have head : amount (credit m e) k = amount m k + if e.1 = k then e.2 else 0 := by
        rw [amount, credit_apply]
        by_cases h : k = e.1
        · rw [if_pos h, if_pos h.symm, stored_getD]
        · rw [if_neg h, if_neg (Ne.symm h), add_zero, amount]
      rw [head, credit_apply, ← add_assoc]
      by_cases hmem : k ∈ named es
      · rw [if_pos hmem, if_pos (show k ∈ named (e :: es) from List.mem_cons_of_mem _ hmem)]
      · rw [if_neg hmem]
        have gone : total es k = 0 :=
          total_eq_zero fun e' he' heq => hmem (List.mem_map.mpr ⟨e', he', heq⟩)
        by_cases h : k = e.1
        · rw [if_pos h, if_pos (by simp [h]), gone, if_pos h.symm, add_zero]
        · rw [if_neg h, if_neg]
          simp only [named, List.map_cons, List.mem_cons, not_or]
          exact ⟨h, hmem⟩

theorem credits_of_notMem {m : Ledger κ} {es : List (κ × Nat)} {k : κ} (h : k ∉ named es) :
    credits m es k = m k := by
  rw [credits_apply, if_neg h]

theorem amount_credits (m : Ledger κ) (es : List (κ × Nat)) (k : κ) :
    amount (credits m es) k = amount m k + total es k := by
  rw [amount, credits_apply]
  split
  · exact stored_getD _
  · rename_i h
    rw [total_eq_zero fun e he heq => h (List.mem_map.mpr ⟨e, he, heq⟩), add_zero]
    rfl

theorem amount_writes (m : Ledger κ) (es : List (κ × Nat)) (k : κ) :
    amount (writes m es) k = (lastWrite es k).getD (amount m k) := by
  rw [amount, writes_apply]
  cases lastWrite es k with
  | none => rfl
  | some v => exact stored_getD v

/-- Credits depend on the ledger before only through the credited keys' amounts. -/
theorem credits_congr {m m' : Ledger κ} (es : List (κ × Nat)) {k : κ} (h : m k = m' k) :
    credits m es k = credits m' es k := by
  rw [credits_apply, credits_apply, amount, amount, h]

section Replay

variable {m : Ledger κ} {es wrote cs paid : List (κ × Nat)} {k : κ}

omit [DecidableEq κ] in
private theorem named_of_part (h : wrote <+: es) (hk : k ∈ named wrote) : k ∈ named es :=
  List.map_subset Prod.fst h.subset hk

theorem total_prefix_le (h : paid <+: cs) (k : κ) : total paid k ≤ total cs k := by
  obtain ⟨rest, rfl⟩ := h
  rw [total_append]
  exact Nat.le_add_right _ _

/-- Writes and credits made over a part of themselves come to the same at a key, exactly when the
key is written or the part paid it nothing. -/
theorem replay_iff (changed : wrote <+: es) (credited : paid <+: cs) :
    credits (writes (credits (writes m wrote) paid) es) cs k = credits (writes m es) cs k ↔
      (k ∉ named es → total paid k = 0) := by
  by_cases hk : k ∈ named es
  · have unwritten : writes (credits (writes m wrote) paid) es k = writes m es k := writes_of_mem hk
    exact iff_of_true (credits_congr cs unwritten) fun h => absurd hk h
  · have before : writes m wrote k = m k :=
      writes_of_notMem fun h => hk (named_of_part changed h)
    have torn : amount (writes (credits (writes m wrote) paid) es) k = amount m k + total paid k := by
      rw [amount, writes_of_notMem hk, ← amount, amount_credits, amount, before, amount]
    have whole : amount (writes m es) k = amount m k := by
      rw [amount, writes_of_notMem hk, amount]
    by_cases hcredit : k ∈ named cs
    · rw [credits_apply, if_pos hcredit, credits_apply, if_pos hcredit, stored_inj, torn, whole]
      constructor
      · intro h _
        omega
      · intro h
        rw [h hk, Nat.add_zero]
    · have unpaid : k ∉ named paid := fun h => hcredit (named_of_part credited h)
      have nothing : total paid k = 0 :=
        total_eq_zero fun e he heq => unpaid (List.mem_map.mpr ⟨e, he, heq⟩)
      refine iff_of_true ?_ fun _ => nothing
      rw [credits_of_notMem hcredit, credits_of_notMem hcredit, writes_of_notMem hk,
        writes_of_notMem hk, credits_of_notMem unpaid, before]

/-- A replay makes no other key live. -/
theorem replay_live (changed : wrote <+: es) (credited : paid <+: cs)
    (live : credits (writes (credits (writes m wrote) paid) es) cs k ≠ none) :
    credits (writes m es) cs k ≠ none := by
  by_cases same : k ∉ named es → total paid k = 0
  · rwa [(replay_iff changed credited).mpr same] at live
  · obtain ⟨-, owed⟩ := not_forall.mp same
    have positive := total_prefix_le credited k
    intro gone
    have none_left := amount_credits (writes m es) cs k
    rw [amount, gone, Option.getD_none] at none_left
    omega

end Replay

end RisePir.Lib.KeyedAmounts
