import RisePir.Proto.Decoding

set_option autoImplicit false
set_option relaxedAutoImplicit false

/-! Coalescing as one action on the cells: what a coalesced run does to a cell array,
how large its entries are, and that it does not matter where the run is cut. -/

namespace RisePir.Proto.Coalescing

open RisePir.Lib.Sparse
open RisePir.Proto.Types
open RisePir.Proto.Codec
open Std (ExtTreeMap)

/-- A value for every cell `(segment, row, offset)`. -/
abbrev Cells : Type := Nat → Nat → Nat → Int

/-- One entry added to the cell it names. -/
def addEntry (cells : Nat → Nat → Int) (e : (Nat × Nat) × Int) : Nat → Nat → Int :=
  fun row offset => if e.1 = (row, offset) then cells row offset + e.2 else cells row offset

/-- Every entry of the delta added to its cell, in the order the entries stand. -/
def applyDelta (cells : Cells) (d : BlockDelta) : Cells :=
  fun j => (entries (d.perSegment.getD j [])).foldl addEntry (cells j)

theorem applyDelta_at (cells : Cells) (d : BlockDelta) (j row offset : Nat) :
    applyDelta cells d j row offset = cells j row offset + d.at j row offset := by
  have fold : ∀ (es : List ((Nat × Nat) × Int)) (c : Nat → Nat → Int),
      es.foldl addEntry c row offset = c row offset + total es (row, offset) := by
    intro es
    induction es with
    | nil => simp
    | cons e es ih =>
        intro c
        rw [List.foldl_cons, ih, total_cons, addEntry, ← add_assoc]
        by_cases here : e.1 = (row, offset)
        · rw [if_pos here, if_pos here]
        · rw [if_neg here, if_neg here, add_zero]
  exact fold _ _

theorem applyDeltas_at (cells : Cells) (ds : List BlockDelta) (j row offset : Nat) :
    ds.foldl applyDelta cells j row offset = cells j row offset + sumAt ds j row offset := by
  induction ds generalizing cells with
  | nil => simp
  | cons d ds ih => rw [List.foldl_cons, ih, applyDelta_at, sumAt_cons, add_assoc]

/-- Cell arrays below the modulus, each the one before with the next delta applied. -/
inductive Traced (bound : Nat) : Cells → List BlockDelta → Prop
  | last {cells : Cells} (inside : ∀ j row offset, 0 ≤ cells j row offset ∧
      cells j row offset < bound) : Traced bound cells []
  | next {cells : Cells} {d : BlockDelta} {ds : List BlockDelta}
      (inside : ∀ j row offset, 0 ≤ cells j row offset ∧ cells j row offset < bound)
      (rest : Traced bound (applyDelta cells d) ds) : Traced bound cells (d :: ds)

theorem Traced.first {bound : Nat} {cells : Cells} {ds : List BlockDelta}
    (h : Traced bound cells ds) (j row offset : Nat) :
    0 ≤ cells j row offset ∧ cells j row offset < bound := by
  cases h with
  | last inside => exact inside j row offset
  | next inside rest => exact inside j row offset

theorem Traced.final {bound : Nat} {cells : Cells} {ds : List BlockDelta}
    (h : Traced bound cells ds) (j row offset : Nat) :
    0 ≤ cells j row offset + sumAt ds j row offset ∧
      cells j row offset + sumAt ds j row offset < bound := by
  induction h with
  | last inside => simpa using inside j row offset
  | next inside rest ih =>
      rw [applyDelta_at] at ih
      rw [sumAt_cons, ← add_assoc]
      exact ih

/-- The sum over the run is the difference of two cells below the modulus. -/
theorem Traced.magnitude {bound : Nat} {cells : Cells} {ds : List BlockDelta}
    (h : Traced bound cells ds) (j row offset : Nat) : (sumAt ds j row offset).natAbs < bound := by
  have first := h.first j row offset
  have final := h.final j row offset
  omega

/-- Block, rows, offsets and terms within the types that carry them. -/
structure MachineSized (d : BlockDelta) : Prop where
  block : d.block < 2 ^ 64
  entry : ∀ j, ∀ e ∈ entries (d.perSegment.getD j []), e.1.1 < 2 ^ 32 ∧ e.1.2 < 2 ^ 16

/-- The canonical cellwise sum of two deltas, under the second's block. -/
def sumOf (a b : BlockDelta) : BlockDelta :=
  ⟨b.block, List.zipWith canonicalSum a.perSegment b.perSegment⟩

theorem sumOf_canonical (a b : BlockDelta) : (sumOf a b).IsCanonical := by
  intro seg hseg
  obtain ⟨j, hj, rfl⟩ := List.getElem_of_mem hseg
  simp only [sumOf, List.getElem_zipWith]
  exact canonicalSum_canonical _ _

theorem sumOf_at {a b : BlockDelta} (length : a.perSegment.length = b.perSegment.length)
    (j row offset : Nat) : (sumOf a b).at j row offset = a.at j row offset + b.at j row offset := by
  simp only [BlockDelta.at, sumOf]
  by_cases hj : j < a.perSegment.length
  · have hj' : j < b.perSegment.length := length ▸ hj
    have hz : j < (List.zipWith canonicalSum a.perSegment b.perSegment).length := by
      rw [List.length_zipWith]
      omega
    rw [List.getD_eq_getElem _ _ hz, List.getD_eq_getElem _ _ hj, List.getD_eq_getElem _ _ hj',
      List.getElem_zipWith, cellAt_canonicalSum]
  · have hz : (List.zipWith canonicalSum a.perSegment b.perSegment).length ≤ j := by
      rw [List.length_zipWith]
      omega
    rw [List.getD_eq_default _ _ hz, List.getD_eq_default _ _ (by omega),
      List.getD_eq_default _ _ (by omega)]
    simp

/-- Canonical deltas with the same block, arity and cells are the same delta. -/
theorem canonical_delta_ext {a b : BlockDelta} (ha : a.IsCanonical) (hb : b.IsCanonical)
    (block : a.block = b.block) (length : a.perSegment.length = b.perSegment.length)
    (cells : ∀ j row offset, a.at j row offset = b.at j row offset) : a = b := by
  obtain ⟨blockA, segmentsA⟩ := a
  obtain ⟨blockB, segmentsB⟩ := b
  obtain rfl : blockA = blockB := block
  have segments : segmentsA = segmentsB := by
    refine List.ext_getElem length fun j hj hj' => ?_
    refine (ha _ (List.getElem_mem hj)).ext (hb _ (List.getElem_mem hj')) fun row offset => ?_
    have same := cells j row offset
    simp only [BlockDelta.at] at same
    rwa [List.getD_eq_getElem _ _ hj, List.getD_eq_getElem _ _ hj'] at same
  rw [segments]

section Overflow

theorem addCell_error {row : ExtTreeMap Nat Int} {e : Nat × Int} {err : CoalesceError}
    (h : addCell row e = .error err) : err = .overflow := by
  unfold addCell at h
  by_cases fits : InI64 (row[e.1]?.getD 0 + e.2)
  · rw [if_pos fits] at h
    cases h
  · rw [if_neg fits] at h
    cases h
    rfl

theorem addCells_error {row : ExtTreeMap Nat Int} {cells : List (Nat × Int)} {err : CoalesceError}
    (h : addCells row cells = .error err) : err = .overflow := by
  induction cells generalizing row with
  | nil => cases h
  | cons e es ih =>
      rw [addCells] at h
      cases step : addCell row e with
      | error err' =>
          rw [step] at h
          cases h
          exact addCell_error step
      | ok row' =>
          rw [step] at h
          exact ih h

theorem addRows_error {acc : Accumulator Nat Nat Int} {seg : SegmentRowDeltas}
    {err : CoalesceError} (h : addRows acc seg = .error err) : err = .overflow := by
  induction seg generalizing acc with
  | nil => cases h
  | cons row seg ih =>
      obtain ⟨r, cells⟩ := row
      rw [addRows] at h
      cases step : addCells (acc[r]?.getD ∅) cells with
      | error err' =>
          rw [step] at h
          cases h
          exact addCells_error step
      | ok cells' =>
          rw [step] at h
          exact ih h

theorem addSegments_error {accs : List (Accumulator Nat Nat Int)} {segs : List SegmentRowDeltas}
    {err : CoalesceError} (h : addSegments accs segs = .error err) : err = .overflow := by
  induction accs generalizing segs with
  | nil => cases segs <;> cases h
  | cons acc accs ih =>
      cases segs with
      | nil => cases h
      | cons seg segs =>
          rw [addSegments] at h
          cases step : addRows acc seg with
          | error err' =>
              rw [step] at h
              cases h
              exact addRows_error step
          | ok acc' =>
              rw [step] at h
              dsimp only at h
              cases rest : addSegments accs segs with
              | error err' =>
                  rw [rest] at h
                  cases h
                  exact ih rest
              | ok accs' =>
                  rw [rest] at h
                  cases h

theorem addDeltas_error {accs : List (Accumulator Nat Nat Int)} {ds : List BlockDelta}
    {err : CoalesceError} (h : addDeltas accs ds = .error err) : err = .overflow := by
  induction ds generalizing accs with
  | nil => cases h
  | cons d ds ih =>
      rw [addDeltas] at h
      cases step : addSegments accs d.perSegment with
      | error err' =>
          rw [step] at h
          cases h
          exact addSegments_error step
      | ok accs' =>
          rw [step] at h
          exact ih h

end Overflow

section Fit

/-- Sums that were all collected were all within `i64`. -/
theorem addCells_fit {row row' : ExtTreeMap Nat Int} {cells : List (Nat × Int)}
    (before : ∀ k : Nat, InI64 (row[k]?.getD 0)) (h : addCells row cells = .ok row') :
    RunningSumsFit (fun k => row[k]?.getD 0) cells := by
  induction cells generalizing row with
  | nil =>
      intro p hp k
      obtain rfl : p = [] := List.prefix_nil.mp hp
      simpa using before k
  | cons e es ih =>
      rw [addCells] at h
      by_cases fits : InI64 (row[e.1]?.getD 0 + e.2)
      · have step : addCell row e = .ok (bump row e.1 e.2) := by
          rw [addCell]
          exact if_pos fits
        rw [step] at h
        have after : ∀ k : Nat, InI64 ((bump row e.1 e.2)[k]?.getD 0) := by
          intro k
          rw [bump_getD]
          by_cases here : e.1 = k
          · subst here
            simpa using fits
          · simpa [here] using before k
        have first : RunningSumsFit (fun k => row[k]?.getD 0) [e] := by
          intro p hp k
          rcases List.prefix_cons_iff.mp hp with rfl | ⟨p', rfl, hp'⟩
          · simpa using before k
          · obtain rfl : p' = [] := List.prefix_nil.mp hp'
            have value := after k
            rw [bump_getD] at value
            simpa [total_cons] using value
        exact first.append (ih after h) fun k => by simp [bump_getD, total_cons]
      · have step : addCell row e = .error .overflow := by
          rw [addCell]
          exact if_neg fits
        rw [step] at h
        cases h

theorem addRows_fit {acc acc' : Accumulator Nat Nat Int} {seg : SegmentRowDeltas}
    (before : ∀ r k, InI64 (acc.cell r k)) (h : addRows acc seg = .ok acc') :
    RunningSumsFit (fun i => acc.cell i.1 i.2) (entries seg) := by
  induction seg generalizing acc with
  | nil =>
      intro p hp i
      obtain rfl : p = [] := List.prefix_nil.mp hp
      simpa using before i.1 i.2
  | cons row seg ih =>
      obtain ⟨r₀, cells⟩ := row
      rw [addRows] at h
      cases step : addCells (acc[r₀]?.getD ∅) cells with
      | error err =>
          rw [step] at h
          cases h
      | ok cells' =>
          rw [step] at h
          have rowFit := addCells_fit (before r₀) step
          have lifted : RunningSumsFit (fun i => acc.cell i.1 i.2)
              (cells.map fun e => ((r₀, e.1), e.2)) := by
            rintro p hp ⟨r, k⟩
            obtain ⟨p', hp', rfl⟩ := List.prefix_map_iff.mp hp
            rw [total_row]
            by_cases here : r₀ = r
            · subst here
              rw [if_pos rfl]
              exact rowFit p' hp' k
            · rw [if_neg here, add_zero]
              exact before r k
          obtain ⟨cells'', hcells, hsum⟩ := addCells_ok rowFit
          obtain rfl : cells'' = cells' := Except.ok.inj (hcells.symm.trans step)
          have values : ∀ r k, Accumulator.cell (acc.insert r₀ cells'') r k =
              acc.cell r k + total (cells.map fun e => ((r₀, e.1), e.2)) (r, k) := by
            intro r k
            rw [Accumulator.cell_insert, total_row]
            by_cases here : r₀ = r
            · subst here
              rw [if_pos rfl, if_pos rfl, hsum]
              rfl
            · rw [if_neg here, if_neg here, add_zero]
          have after : ∀ r k, InI64 (Accumulator.cell (acc.insert r₀ cells'') r k) := by
            intro r k
            rw [values]
            exact lifted _ (List.prefix_refl _) (r, k)
          rw [entries_cons]
          exact lifted.append (ih after h) fun i => values i.1 i.2

theorem addSegments_fit {accs accs' : List (Accumulator Nat Nat Int)}
    {segs : List SegmentRowDeltas} (length : accs.length = segs.length)
    (before : ∀ j r k, InI64 ((accs.getD j ∅ : Accumulator Nat Nat Int).cell r k))
    (h : addSegments accs segs = .ok accs') (j : Nat) :
    RunningSumsFit (fun i => (accs.getD j ∅ : Accumulator Nat Nat Int).cell i.1 i.2)
      (entries (segs.getD j [])) := by
  induction accs generalizing segs accs' j with
  | nil =>
      obtain rfl : segs = [] := List.eq_nil_of_length_eq_zero length.symm
      intro p hp i
      obtain rfl : p = [] := List.prefix_nil.mp hp
      simpa using before j i.1 i.2
  | cons acc accs ih =>
      obtain _ | ⟨seg, segs⟩ := segs
      · simp at length
      · rw [addSegments] at h
        cases step : addRows acc seg with
        | error err =>
            rw [step] at h
            cases h
        | ok acc' =>
            rw [step] at h
            dsimp only at h
            cases rest : addSegments accs segs with
            | error err =>
                rw [rest] at h
                cases h
            | ok accs'' =>
                cases j with
                | zero => exact addRows_fit (before 0) step
                | succ j => exact ih (by simpa using length) (fun j => before (j + 1)) rest j

theorem addDeltas_fit {accs accs' : List (Accumulator Nat Nat Int)} {ds : List BlockDelta}
    (length : ∀ d ∈ ds, d.perSegment.length = accs.length)
    (before : ∀ j r k, InI64 ((accs.getD j ∅ : Accumulator Nat Nat Int).cell r k))
    (h : addDeltas accs ds = .ok accs') (j : Nat) :
    RunningSumsFit (fun i => (accs.getD j ∅ : Accumulator Nat Nat Int).cell i.1 i.2)
      (termsOf ds j) := by
  induction ds generalizing accs with
  | nil =>
      intro p hp i
      obtain rfl : p = [] := List.prefix_nil.mp hp
      simpa using before j i.1 i.2
  | cons d ds ih =>
      rw [addDeltas] at h
      have count : accs.length = d.perSegment.length := (length d (by simp)).symm
      cases step : addSegments accs d.perSegment with
      | error err =>
          rw [step] at h
          cases h
      | ok accs₁ =>
          rw [step] at h
          have block := addSegments_fit count before step
          obtain ⟨accs₂, hok, hlen, hcell⟩ := addSegments_ok count block
          obtain rfl : accs₁ = accs₂ := Except.ok.inj (step.symm.trans hok)
          have after : ∀ j r k, InI64
              ((accs₁.getD j ∅ : Accumulator Nat Nat Int).cell r k) := by
            intro j r k
            rw [hcell]
            exact block j _ (List.prefix_refl _) (r, k)
          rw [termsOf_cons]
          exact (block j).append (ih (fun d' hd =>
            (length d' (List.mem_cons_of_mem d hd)).trans hlen.symm) after h) fun i => hcell j i.1 i.2

end Fit

section Runs

/-- Deltas of one arity, each block the `u64` successor of the one before, that go on from
block `u64::MAX` with block 0. -/
structure Wraps (ds : List BlockDelta) : Prop where
  arity : ∃ segments, ∀ d ∈ ds, d.perSegment.length = segments
  steps : ∀ k (h : k + 1 < ds.length), ds[k + 1].block = (ds[k].block + 1) % 2 ^ 64
  wraps : ∃ k, ∃ h : k + 1 < ds.length, ds[k].block = 2 ^ 64 - 1

/-- A run whose last block is one of the two greatest. -/
def EndsAtLimit (ds : List BlockDelta) : Prop :=
  (∃ segments start, Consecutive segments start ds) ∧
    ∃ d, ds.getLast? = some d ∧ 2 ^ 64 - 2 ≤ d.block

theorem Wraps.not_consecutive {ds : List BlockDelta} (h : Wraps ds) {segments start : Nat} :
    ¬ Consecutive segments start ds := by
  intro run
  have blocks := (consecutive_iff.mp run).2
  obtain ⟨k, hk, top⟩ := h.wraps
  have next := h.steps k hk
  rw [blocks (k + 1) hk, blocks k (by omega)] at next
  have here := blocks k (by omega)
  omega

/-- A counter that meets every block as a word. -/
private theorem block_word {a b k : Nat} (ha : a < 2 ^ 64) :
    BitVec.ofNat 64 a = BitVec.ofNat 64 b + BitVec.ofNat 64 k ↔ a = (b + k) % 2 ^ 64 := by
  rw [← BitVec.ofNat_add, ← BitVec.toNat_inj, BitVec.toNat_ofNat, BitVec.toNat_ofNat,
    Nat.mod_eq_of_lt ha]

/-- What the first loop accepts of `u64` blocks: a run, or blocks that wrap. -/
theorem checkRun_runs {first : BlockDelta} {rest : List BlockDelta}
    (words : ∀ d ∈ first :: rest, d.block < 2 ^ 64) :
    checkRun first.perSegment.length (BitVec.ofNat 64 first.block) (first :: rest) = .ok () ↔
      (∃ segments start, Consecutive segments start (first :: rest)) ∨ Wraps (first :: rest) := by
  have word : ∀ k (hk : k < (first :: rest).length), (first :: rest)[k].block < 2 ^ 64 :=
    fun k hk => words _ (List.getElem_mem hk)
  rw [checkRun_iff]
  constructor
  · rintro ⟨counts, blocks⟩
    have value : ∀ k (hk : k < (first :: rest).length),
        (first :: rest)[k].block = (first.block + k) % 2 ^ 64 :=
      fun k hk => (block_word (word k hk)).mp (blocks k hk)
    have steps : ∀ k (h : k + 1 < (first :: rest).length),
        (first :: rest)[k + 1].block = ((first :: rest)[k].block + 1) % 2 ^ 64 := by
      intro k hk
      rw [value (k + 1) hk, value k (by omega)]
      omega
    by_cases top : ∃ k, ∃ h : k + 1 < (first :: rest).length,
        (first :: rest)[k].block = 2 ^ 64 - 1
    · exact .inr ⟨⟨_, counts⟩, steps, top⟩
    · refine .inl ⟨first.perSegment.length, first.block, consecutive_iff.mpr ⟨counts, ?_⟩⟩
      intro k hk
      induction k with
      | zero => rfl
      | succ k ih =>
          have before := ih (by omega)
          have below : (first :: rest)[k].block ≠ 2 ^ 64 - 1 := fun h => top ⟨k, hk, h⟩
          have fits := word k (by omega)
          rw [steps k hk]
          omega
  · rintro (⟨segments, start, run⟩ | wraps)
    · obtain ⟨counts, blocks⟩ := consecutive_iff.mp run
      have start' : first.block = start := blocks 0 (by simp)
      refine ⟨fun d hd => (counts d hd).trans (counts first (by simp)).symm, fun k hk => ?_⟩
      have fits := word k hk
      have here := blocks k hk
      exact (block_word fits).mpr (by omega)
    · obtain ⟨segments, counts⟩ := wraps.arity
      refine ⟨fun d hd => (counts d hd).trans (counts first (by simp)).symm, fun k hk => ?_⟩
      refine (block_word (word k hk)).mpr ?_
      induction k with
      | zero =>
          have fits := word 0 hk
          exact (Nat.mod_eq_of_lt fits).symm
      | succ k ih =>
          have before := ih (by omega)
          rw [wraps.steps k hk]
          omega

theorem coalesce_accepts {ds : List BlockDelta} (fit : SumsFit ds)
    (words : ∀ d ∈ ds, d.block < 2 ^ 64) : (∃ out, coalesce ds = .ok out) ↔
      ds ≠ [] ∧ ((∃ segments start, Consecutive segments start ds) ∨ Wraps ds) := by
  cases ds with
  | nil => simp [coalesce]
  | cons first rest =>
      rw [← checkRun_runs words]
      constructor
      · rintro ⟨out, h⟩
        refine ⟨by simp, ?_⟩
        rw [coalesce] at h
        cases check : checkRun first.perSegment.length (BitVec.ofNat 64 first.block)
            (first :: rest) with
        | error err =>
            rw [check] at h
            cases h
        | ok _ => rfl
      · rintro ⟨-, check⟩
        obtain ⟨out, summed, -⟩ := sumRun_sums (checkRun_iff.mp check).1 fit
        exact ⟨out, by simp only [coalesce, check, summed]⟩

/-- With overflow checks the lists that have room for two more blocks are treated alike; the
others are not accepted. -/
theorem coalesceChecked_eq {first : BlockDelta} {rest : List BlockDelta}
    (word : first.block < 2 ^ 64)
    (check : checkRun first.perSegment.length (BitVec.ofNat 64 first.block) (first :: rest) = .ok ())
    (room : first.block + (first :: rest).length < 2 ^ 64 - 1) :
    coalesceChecked (first :: rest) = some (coalesce (first :: rest)) := by
  have start : (BitVec.ofNat 64 first.block).toNat = first.block := by
    rw [BitVec.toNat_ofNat, Nat.mod_eq_of_lt word]
  have checked := checkRunChecked_ok.mpr ⟨check, start.symm ▸ room⟩
  simp only [coalesceChecked, coalesce, check, checked, Option.bind_eq_bind, Option.bind_some,
    Option.pure_def]

theorem coalesceChecked_accepts {first : BlockDelta} {rest : List BlockDelta} {out : BlockDelta}
    (words : ∀ d ∈ first :: rest, d.block < 2 ^ 64)
    (h : coalesceChecked (first :: rest) = some (.ok out)) :
    (∃ segments start, Consecutive segments start (first :: rest)) ∧
      first.block + (first :: rest).length < 2 ^ 64 - 1 := by
  have start : (BitVec.ofNat 64 first.block).toNat = first.block := by
    rw [BitVec.toNat_ofNat, Nat.mod_eq_of_lt (words first (by simp))]
  rw [coalesceChecked] at h
  cases checked : checkRunChecked first.perSegment.length (BitVec.ofNat 64 first.block)
      (first :: rest) with
  | none => simp [checked] at h
  | some outcome =>
      cases outcome with
      | error err => simp [checked] at h
      | ok _ =>
          obtain ⟨check, room⟩ := checkRunChecked_ok.mp checked
          rw [start] at room
          refine ⟨?_, room⟩
          rcases (checkRun_runs words).mp check with run | wraps
          · exact run
          · obtain ⟨k, hk, top⟩ := wraps.wraps
            have word := words _ (List.getElem_mem (Nat.lt_of_succ_lt hk))
            have here := (block_word word).mp ((checkRun_iff.mp check).2 k (Nat.lt_of_succ_lt hk))
            omega

/-- A run whose running sums leave `i64` is refused for that. -/
theorem coalesce_overflow {segments start : Nat} {ds : List BlockDelta} (hne : ds ≠ [])
    (run : Consecutive segments start ds) (unfit : ¬ SumsFit ds) :
    coalesce ds = .error .overflow := by
  cases run with
  | nil start => exact absurd rfl hne
  | cons count tail =>
      rename_i first rest
      have run : Consecutive segments first.block (first :: rest) := .cons count tail
      rw [coalesce, count, checkRun_of_consecutive run]
      dsimp only
      rw [sumRun, count]
      cases sums : addDeltas (List.replicate segments ∅) (first :: rest) with
      | error err =>
          obtain rfl := addDeltas_error sums
          rfl
      | ok accs =>
          refine absurd (fun j => ?_) unfit
          have empty : ∀ j, ((List.replicate segments ∅).getD j ∅ : Accumulator Nat Nat Int) =
              ∅ := by
            intro j
            rw [List.getD_eq_getElem?_getD, List.getElem?_replicate]
            split <;> rfl
          have fit := addDeltas_fit (fun d hd => by rw [run.length_eq d hd, List.length_replicate])
            (fun j r k => by simp [InI64]) sums j
          simpa only [empty, Accumulator.cell_empty] using fit

/-- Coalescing the two parts of a run and summing them is coalescing the run. -/
theorem coalesce_append {segments start : Nat} {a b : List BlockDelta} (ha : a ≠ []) (hb : b ≠ [])
    (run : Consecutive segments start (a ++ b)) (fit : SumsFit (a ++ b)) (fitB : SumsFit b) :
    ∃ outA outB, coalesce a = .ok outA ∧ coalesce b = .ok outB ∧
      coalesce (a ++ b) = .ok (sumOf outA outB) := by
  have runB := run.append_right
  have hab : a ++ b ≠ [] := fun empty => ha (List.append_eq_nil_iff.mp empty).1
  obtain ⟨outA, okA, blockA, lengthA, canonicalA, sumA⟩ :=
    coalesce_sums ha run.append_left fit.append_left
  obtain ⟨outB, okB, blockB, lengthB, canonicalB, sumB⟩ := coalesce_sums hb runB fitB
  obtain ⟨out, ok, block, length, canonical, sum⟩ := coalesce_sums hab run fit
  refine ⟨outA, outB, okA, okB, ?_⟩
  have arity : outA.perSegment.length = outB.perSegment.length := lengthA.trans lengthB.symm
  have same : out = sumOf outA outB := by
    refine canonical_delta_ext canonical (sumOf_canonical _ _) ?_ ?_ fun j row offset => ?_
    · show out.block = outB.block
      rw [block, blockB, List.getLast_append_of_ne_nil hab hb]
    · rw [length, sumOf, List.length_zipWith, ← arity, Nat.min_self, lengthA]
    · rw [sum, sumAt_append, sumOf_at arity, sumA, sumB]
  rw [ok, same]

private theorem ascending_below {l : List Nat} (h : l.Pairwise (· < ·)) {n : Nat}
    (below : ∀ i ∈ l, i < n) : l.length ≤ n := by
  have nodup : l.Nodup := h.imp fun hlt => ne_of_lt hlt
  have sub : l ⊆ List.range n := fun i hi => List.mem_range.mpr (below i hi)
  simpa using (nodup.subperm sub).length_le

private theorem sumAt_support {ds : List BlockDelta} {j row offset : Nat}
    (h : sumAt ds j row offset ≠ 0) :
    ∃ d ∈ ds, ∃ e ∈ entries (d.perSegment.getD j []), e.1 = (row, offset) := by
  induction ds with
  | nil => simp at h
  | cons d ds ih =>
      rw [sumAt_cons] at h
      by_cases here : d.at j row offset = 0
      · rw [here, zero_add] at h
        obtain ⟨d', hd', e, he, heq⟩ := ih h
        exact ⟨d', List.mem_cons_of_mem d hd', e, he, heq⟩
      · by_contra none
        refine here (total_eq_zero fun e he heq => none ?_)
        exact ⟨d, List.mem_cons_self, e, he, heq⟩

/-- Small entries of machine-sized inputs are what the encoder asks for. -/
theorem encodable {ds : List BlockDelta} {out : BlockDelta} {plaintextBits : Nat}
    (sized : ∀ d ∈ ds, MachineSized d) (block : out.block < 2 ^ 64)
    (segments : out.perSegment.length ≤ 255) (canonical : out.IsCanonical)
    (sum : ∀ j row offset, out.at j row offset = sumAt ds j row offset)
    (small : ∀ j row offset, (out.at j row offset).natAbs < 2 ^ plaintextBits) :
    WireFits plaintextBits out := by
  have entry : ∀ seg ∈ out.perSegment, ∀ row ∈ seg, ∀ e ∈ row.2,
      row.1 < 2 ^ 32 ∧ e.1 < 2 ^ 16 ∧ e.2.natAbs < 2 ^ plaintextBits := by
    intro seg hseg row hrow e he
    obtain ⟨j, hj, rfl⟩ := List.getElem_of_mem hseg
    have hmem : ((row.1, e.1), e.2) ∈ entries (out.perSegment.getD j []) := by
      rw [List.getD_eq_getElem _ _ hj]
      exact mem_entries.mpr ⟨row.2, hrow, he⟩
    obtain ⟨value, nonzero⟩ := (canonical.segment j).mem_entries_iff.mp hmem
    have value : out.at j row.1 e.1 = e.2 := value
    obtain ⟨d, hd, e', he', heq⟩ := sumAt_support (sum j row.1 e.1 ▸ value ▸ nonzero)
    have inside := (sized d hd).entry j e' he'
    rw [heq] at inside
    exact ⟨inside.1, inside.2, value ▸ small j row.1 e.1⟩
  have rowBound : ∀ seg ∈ out.perSegment, ∀ row ∈ seg, row.1 < 2 ^ 32 := by
    intro seg hseg row hrow
    obtain ⟨e, he⟩ := List.exists_mem_of_ne_nil _ ((canonical seg hseg).rows_nonempty row hrow)
    exact (entry seg hseg row hrow e he).1
  refine ⟨block, segments, fun seg hseg => ?_, fun seg hseg row hrow => ⟨?_, ?_⟩,
    fun seg hseg row hrow e he => (entry seg hseg row hrow e he).2⟩
  · have length := ascending_below (canonical seg hseg).rows_ascending (n := 2 ^ 32) fun i hi => by
      obtain ⟨row, hrow, rfl⟩ := List.mem_map.mp hi
      exact rowBound seg hseg row hrow
    rw [List.length_map] at length
    omega
  · exact rowBound seg hseg row hrow
  · have length := ascending_below ((canonical seg hseg).columns_ascending row hrow)
      (n := 2 ^ 16) fun i hi => by
        obtain ⟨e, he, rfl⟩ := List.mem_map.mp hi
        exact (entry seg hseg row hrow e he).2.1
    rw [List.length_map] at length
    omega

end Runs

section Contract

variable {run : List BlockDelta → Option (Except CoalesceError BlockDelta)} {ds : List BlockDelta}

/-- What coalescing is for, at one list: the nonempty consecutive runs of one arity are
accepted and no others, and the result is canonical, acts on cell arrays as the deltas do one
by one, is small over cells of the deployment, and is the same however the run is cut in two. -/
structure Contract (run : List BlockDelta → Option (Except CoalesceError BlockDelta))
    (ds : List BlockDelta) : Prop where
  accepts : (∃ out, run ds = some (.ok out)) ↔
    ds ≠ [] ∧ ∃ segments start, Consecutive segments start ds
  canonical : ∀ out, run ds = some (.ok out) → out.IsCanonical
  applies : ∀ out, run ds = some (.ok out) →
    ∀ cells, applyDelta cells out = ds.foldl applyDelta cells
  small : ∀ out, run ds = some (.ok out) → ∀ plaintextBits cells,
    Traced (2 ^ plaintextBits) cells ds →
      (∀ seg ∈ out.perSegment, ∀ row ∈ seg, ∀ e ∈ row.2, e.2.natAbs < 2 ^ plaintextBits) ∧
      ((∀ d ∈ ds, MachineSized d) → out.perSegment.length ≤ 255 → WireFits plaintextBits out)
  splits : ∀ out, run ds = some (.ok out) → ∀ a b, a ++ b = ds → a ≠ [] → b ≠ [] →
    ∃ outA, run a = some (.ok outA) ∧
      (SumsFit b → ∃ outB, run b = some (.ok outB) ∧ out = sumOf outA outB ∧
        out.block = outB.block) ∧
      (¬ SumsFit b → run b = some (.error .overflow))

/-- A list that is not a run and not accepted keeps the contract. -/
private theorem contract_of_refused (refused : ∀ out, run ds ≠ some (.ok out))
    (broken : ¬ (ds ≠ [] ∧ ∃ segments start, Consecutive segments start ds)) :
    Contract run ds where
  accepts := ⟨fun h => h.elim fun out ok => absurd ok (refused out), fun h => absurd h broken⟩
  canonical out ok := absurd ok (refused out)
  applies out ok := absurd ok (refused out)
  small out ok := absurd ok (refused out)
  splits out ok := absurd ok (refused out)

private theorem small_of_sums {out : BlockDelta} (hne : ds ≠ [])
    (block : out.block = (ds.getLast hne).block) (canonical : out.IsCanonical)
    (sum : ∀ j r k, out.at j r k = sumAt ds j r k) {plaintextBits : Nat} {cells : Cells}
    (traced : Traced (2 ^ plaintextBits) cells ds) :
    (∀ seg ∈ out.perSegment, ∀ row ∈ seg, ∀ e ∈ row.2, e.2.natAbs < 2 ^ plaintextBits) ∧
      ((∀ d ∈ ds, MachineSized d) → out.perSegment.length ≤ 255 → WireFits plaintextBits out) := by
  have small : ∀ j row offset, (out.at j row offset).natAbs < 2 ^ plaintextBits := by
    intro j row offset
    rw [sum]
    exact traced.magnitude j row offset
  refine ⟨?_, ?_⟩
  · intro seg hseg row hrow e he
    obtain ⟨j, hj, rfl⟩ := List.getElem_of_mem hseg
    have hmem : ((row.1, e.1), e.2) ∈ entries out.perSegment[j] :=
      mem_entries.mpr ⟨row.2, hrow, he⟩
    rw [← List.getD_eq_getElem _ [] hj] at hmem
    have value : out.at j row.1 e.1 = e.2 := (canonical.segment j).cellAt_of_mem hmem
    rw [← value]
    exact small j row.1 e.1
  · intro sized segments
    have word : out.block < 2 ^ 64 := by
      rw [block]
      exact (sized _ (List.getLast_mem hne)).block
    exact encodable sized word segments canonical sum small

/-- A run that is treated as `coalesce` treats it, with all its parts, keeps the contract. -/
private theorem contract_of_run {segments start : Nat} (hne : ds ≠ [])
    (consecutive : Consecutive segments start ds) (fit : SumsFit ds)
    (same : ∀ part, part <:+: ds → part ≠ [] → run part = some (coalesce part)) :
    Contract run ds := by
  obtain ⟨whole, ok, block, length, canonical, sum⟩ := coalesce_sums hne consecutive fit
  have here : run ds = some (.ok whole) := (same ds (List.infix_refl ds) hne).trans (congrArg some ok)
  have only : ∀ {out}, run ds = some (.ok out) → out = whole := by
    intro out h
    rw [here] at h
    exact (Except.ok.inj (Option.some.inj h)).symm
  refine ⟨⟨fun _ => ⟨hne, segments, start, consecutive⟩, fun _ => ⟨whole, here⟩⟩, ?_, ?_, ?_, ?_⟩
  · intro out h
    rw [only h]
    exact canonical
  · intro out h cells
    rw [only h]
    funext j row offset
    rw [applyDelta_at, applyDeltas_at, sum]
  · intro out h plaintextBits cells traced
    rw [only h]
    exact small_of_sums hne block canonical sum traced
  · intro out h a b cut ha hb
    rw [only h]
    subst cut
    have first := same a (List.prefix_append a b).isInfix ha
    have second := same b (List.suffix_append a b).isInfix hb
    obtain ⟨outA, okA, -⟩ := coalesce_sums ha consecutive.append_left fit.append_left
    refine ⟨outA, first.trans (congrArg some okA), ?_, ?_⟩
    · intro fitB
      obtain ⟨outA', outB, okA', okB, joined⟩ := coalesce_append ha hb consecutive fit fitB
      obtain rfl : outA' = outA := Except.ok.inj (okA'.symm.trans okA)
      obtain rfl := Except.ok.inj (joined.symm.trans ok)
      exact ⟨outB, second.trans (congrArg some okB), rfl, rfl⟩
    · intro unfit
      rw [second, coalesce_overflow hb consecutive.append_right unfit]

theorem contract_coalesce (fit : SumsFit ds) (words : ∀ d ∈ ds, d.block < 2 ^ 64) :
    Contract (fun part => some (coalesce part)) ds ↔ ¬ Wraps ds := by
  have accepted := coalesce_accepts fit words
  constructor
  · intro kept wraps
    have hne : ds ≠ [] := by
      rintro rfl
      obtain ⟨k, hk, -⟩ := wraps.wraps
      simp at hk
    obtain ⟨out, ok⟩ := accepted.mpr ⟨hne, .inr wraps⟩
    obtain ⟨-, segments, start, run⟩ := kept.accepts.mp ⟨out, congrArg some ok⟩
    exact wraps.not_consecutive run
  · intro straight
    by_cases consecutive : ds ≠ [] ∧ ∃ segments start, Consecutive segments start ds
    · obtain ⟨hne, segments, start, run⟩ := consecutive
      exact contract_of_run hne run fit fun part _ _ => rfl
    · refine contract_of_refused (fun out ok => ?_) consecutive
      obtain ⟨hne, run | wraps⟩ := accepted.mp ⟨out, Option.some.inj ok⟩
      · exact consecutive ⟨hne, run⟩
      · exact straight wraps

/-- Every part of a run with room for two more blocks has that room itself. -/
private theorem checked_part {segments start : Nat} {first : BlockDelta} {rest : List BlockDelta}
    (consecutive : Consecutive segments start (first :: rest))
    (room : first.block + (first :: rest).length < 2 ^ 64 - 1) {part : List BlockDelta}
    (inner : part <:+: first :: rest) (hne : part ≠ []) :
    coalesceChecked part = some (coalesce part) := by
  have here : first.block = start := (consecutive_iff.mp consecutive).2 0 (by simp)
  obtain ⟨before, after, cut⟩ := inner
  rw [← cut] at consecutive room
  have middle := consecutive.append_left.append_right
  cases part with
  | nil => exact absurd rfl hne
  | cons head tail =>
      have opens : head.block = start + before.length :=
        (consecutive_iff.mp middle).2 0 (by simp)
      have count := (consecutive_iff.mp middle).1 head (by simp)
      rw [List.length_append, List.length_append] at room
      have check := checkRun_of_consecutive middle
      rw [← opens, ← count] at check
      exact coalesceChecked_eq (by omega) check (by omega)

theorem contract_coalesceChecked (fit : SumsFit ds) (words : ∀ d ∈ ds, d.block < 2 ^ 64) :
    Contract coalesceChecked ds ↔ ¬ EndsAtLimit ds := by
  cases ds with
  | nil =>
      have refused : ∀ out, coalesceChecked [] ≠ some (.ok out) := by simp [coalesceChecked]
      have kept : Contract coalesceChecked [] := contract_of_refused refused fun h => h.1 rfl
      have inside : ¬ EndsAtLimit [] := by
        rintro ⟨-, d, last, -⟩
        simp at last
      exact iff_of_true kept inside
  | cons first rest =>
      have word : first.block < 2 ^ 64 := words first (by simp)
      -- The last block of a run is as far from the first as the run is long.
      have last : ∀ {segments start}, Consecutive segments start (first :: rest) →
          ((first :: rest).getLast (by simp)).block + 1 =
            first.block + (first :: rest).length := by
        intro segments start run
        have here : first.block = start := (consecutive_iff.mp run).2 0 (by simp)
        rw [run.getLast_block (by simp), here]
      constructor
      · rintro kept ⟨⟨segments, start, run⟩, d, ends, limit⟩
        obtain ⟨out, ok⟩ := kept.accepts.mpr ⟨by simp, segments, start, run⟩
        obtain ⟨-, room⟩ := coalesceChecked_accepts words ok
        rw [List.getLast?_eq_getLast_of_ne_nil (by simp)] at ends
        obtain rfl := Option.some.inj ends
        have far := last run
        omega
      · intro inside
        by_cases consecutive : ∃ segments start, Consecutive segments start (first :: rest)
        · obtain ⟨segments, start, run⟩ := consecutive
          have far := last run
          have limit : ((first :: rest).getLast (by simp)).block < 2 ^ 64 - 2 := by
            refine Nat.lt_of_not_le fun limit => inside ⟨⟨segments, start, run⟩, _, ?_, limit⟩
            exact List.getLast?_eq_getLast_of_ne_nil (by simp)
          exact contract_of_run (by simp) run fit fun part inner hne =>
            checked_part run (by omega) inner hne
        · refine contract_of_refused (fun out ok => ?_) fun h => consecutive h.2
          exact consecutive (coalesceChecked_accepts words ok).1

/-- `coalesce` keeps its contract where the blocks do not wrap, and in a build with overflow
checks where the run does not end at one of the last two blocks. -/
theorem coalesce_contract (ds : List BlockDelta) (fit : SumsFit ds)
    (words : ∀ d ∈ ds, d.block < 2 ^ 64) :
    (Contract (fun part => some (coalesce part)) ds ↔ ¬ Wraps ds) ∧
      (Contract coalesceChecked ds ↔ ¬ EndsAtLimit ds) :=
  ⟨contract_coalesce fit words, contract_coalesceChecked fit words⟩

/-- Two blocks whose terms repeat, stand out of order and cancel. -/
private def cancelling : List BlockDelta :=
  [⟨5, [[(2, [(5, 3), (5, -1)]), (0, [(1, 4)])]]⟩, ⟨6, [[(2, [(5, -2)])]]⟩]

private theorem cancelling_fits : SumsFit cancelling := sumsFit_of_small fun j => by
  cases j with
  | zero => decide
  | succ j => simp [cancelling, termsOf]

/-- The cancelling blocks are coalesced in both builds, and act as they do one by one. -/
theorem coalesce_contract_cancelling :
    (Contract (fun part => some (coalesce part)) cancelling ∧
      Contract coalesceChecked cancelling) ∧
    coalesceChecked cancelling = some (coalesce cancelling) ∧
    coalesce cancelling = .ok ⟨6, [[(0, [(1, 4)])]]⟩ := by
  obtain ⟨released, checked⟩ := coalesce_contract cancelling cancelling_fits (by decide)
  refine ⟨⟨released.mpr fun wraps => ?_, checked.mpr ?_⟩, ?_, ?_⟩
  · have below : ∀ d ∈ cancelling, d.block ≠ 2 ^ 64 - 1 := by decide
    obtain ⟨k, hk, top⟩ := wraps.wraps
    exact below _ (List.getElem_mem _) top
  · rintro ⟨-, d, last, limit⟩
    obtain rfl := Option.some.inj last
    revert limit
    decide
  · rfl
  · rfl

/-- Block `u64::MAX` and then block 0, without changes. -/
private def wrapping : List BlockDelta := [⟨2 ^ 64 - 1, [[]]⟩, ⟨0, [[]]⟩]

/-- The block below `u64::MAX` alone, without changes. -/
private def beforeLast : List BlockDelta := [⟨2 ^ 64 - 2, [[]]⟩]

private theorem unchanged_fits (blocks : List Nat) : SumsFit (blocks.map (⟨·, [[]]⟩)) := by
  refine sumsFit_of_small fun j => ?_
  have none : termsOf (blocks.map (⟨·, [[]]⟩)) j = [] := by
    induction blocks with
    | nil => rfl
    | cons block blocks ih => cases j <;> simp_all [termsOf]
  rw [none]
  decide

/-- The two blocks are coalesced although they are not consecutive, and the one block panics
although it is a run: both end below `u64::MAX`, and their sums are empty. -/
theorem coalesce_contract_broken :
    (∀ ds ∈ [wrapping, beforeLast], SumsFit ds ∧ (∀ d ∈ ds, d.block < 2 ^ 64) ∧
      ∀ d ∈ ds.getLast?, d.block < 2 ^ 64 - 1) ∧
    coalesce wrapping = .ok ⟨0, [[]]⟩ ∧ coalesceChecked beforeLast = none ∧
    ¬ Contract (fun part => some (coalesce part)) wrapping ∧
    ¬ Contract coalesceChecked beforeLast := by
  have accepted : coalesce wrapping = .ok ⟨0, [[]]⟩ := rfl
  have panics : coalesceChecked beforeLast = none := rfl
  refine ⟨?_, accepted, panics, fun kept => ?_, fun kept => ?_⟩
  · intro ds hds
    rcases List.mem_pair.mp hds with rfl | rfl
    · exact ⟨unchanged_fits [2 ^ 64 - 1, 0], by decide, by decide⟩
    · exact ⟨unchanged_fits [2 ^ 64 - 2], by decide, by decide⟩
  · obtain ⟨-, segments, start, run⟩ := kept.accepts.mp ⟨_, congrArg some accepted⟩
    have blocks := (consecutive_iff.mp run).2
    have first : 2 ^ 64 - 1 = start := blocks 0 (by decide)
    have second : 0 = start + 1 := blocks 1 (by decide)
    omega
  · obtain ⟨out, ok⟩ := kept.accepts.mpr ⟨by decide, 1, 2 ^ 64 - 2, consecutive_iff.mpr (by decide)⟩
    rw [panics] at ok
    cases ok

end Contract

end RisePir.Proto.Coalescing
