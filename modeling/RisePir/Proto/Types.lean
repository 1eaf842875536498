import Mathlib.Algebra.Ring.Int.Defs
import Mathlib.Algebra.Ring.Nat
import Mathlib.Data.List.GetD
import RisePir.Lib.Sparse

set_option autoImplicit false
set_option relaxedAutoImplicit false

/-! The block update every feed is normalised to, the sparse cell deltas a block
folds into, and the coalescing of consecutive deltas. -/

namespace RisePir.Proto.Types

open RisePir.Lib.Sparse
open Std (ExtTreeMap)

/-- `keccak256(address)`: the 32 bytes of the store key, as one word. -/
abbrev AddressHash := BitVec 256

instance : LawfulBEq AddressHash := inferInstance

instance : Std.TransCmp (compare : AddressHash → AddressHash → Ordering) := inferInstance

/-- A balance in wei; the `u128` arithmetic on it is checked where it is done. -/
abbrev Balance := Nat

/-- One block's balance changes (absolute) and withdrawal credits (relative). -/
structure BlockUpdate where
  block : Nat
  changes : List (AddressHash × Balance)
  credits : List (AddressHash × Balance)
  deriving DecidableEq, Repr

/-- `(row_index_within_segment, (cell_offset_within_row, signed_delta))` pairs. -/
abbrev SegmentRowDeltas := List (Nat × List (Nat × Int))

/-- The sparse cell-level effect of one block on every PIR segment. -/
structure BlockDelta where
  block : Nat
  perSegment : List SegmentRowDeltas
  deriving DecidableEq, Repr

/-- The delta of segment `j` at cell `(row, offset)`. -/
def BlockDelta.at (d : BlockDelta) (j row offset : Nat) : Int :=
  cellAt (d.perSegment.getD j []) row offset

inductive CoalesceError
  | empty
  | nonContiguous (expected found : Nat)
  | segmentCountMismatch (expected found : Nat)
  | overflow
  deriving DecidableEq, Repr

/-- The values an `i64` holds. -/
def InI64 (z : Int) : Prop := -2 ^ 63 ≤ z ∧ z < 2 ^ 63

instance (z : Int) : Decidable (InI64 z) := inferInstanceAs (Decidable (_ ∧ _))

/-- `slot.checked_add(delta)` into the running sum at one offset. -/
def addCell (row : ExtTreeMap Nat Int) (e : Nat × Int) :
    Except CoalesceError (ExtTreeMap Nat Int) :=
  let sum := row[e.1]?.getD 0 + e.2
  if InI64 sum then .ok (row.insert e.1 sum) else .error .overflow

def addCells : ExtTreeMap Nat Int → List (Nat × Int) → Except CoalesceError (ExtTreeMap Nat Int)
  | row, [] => .ok row
  | row, e :: es =>
      match addCell row e with
      | .error err => .error err
      | .ok row' => addCells row' es

def addRows : Accumulator Nat Nat Int → SegmentRowDeltas →
    Except CoalesceError (Accumulator Nat Nat Int)
  | acc, [] => .ok acc
  | acc, (row, cells) :: rows =>
      match addCells (acc[row]?.getD ∅) cells with
      | .error err => .error err
      | .ok cells' => addRows (acc.insert row cells') rows

def addSegments : List (Accumulator Nat Nat Int) → List SegmentRowDeltas →
    Except CoalesceError (List (Accumulator Nat Nat Int))
  | acc :: accs, seg :: segs =>
      match addRows acc seg with
      | .error err => .error err
      | .ok acc' =>
          match addSegments accs segs with
          | .error err => .error err
          | .ok accs' => .ok (acc' :: accs')
  | accs, _ => .ok accs

def addDeltas : List (Accumulator Nat Nat Int) → List BlockDelta →
    Except CoalesceError (List (Accumulator Nat Nat Int))
  | accs, [] => .ok accs
  | accs, d :: ds =>
      match addSegments accs d.perSegment with
      | .error err => .error err
      | .ok accs' => addDeltas accs' ds

/-- The checks of `coalesce`'s first loop, from the block the `u64` counter expects next. -/
def checkRun (numSegments : Nat) : BitVec 64 → List BlockDelta → Except CoalesceError Unit
  | _, [] => .ok ()
  | expected, d :: ds =>
      if BitVec.ofNat 64 d.block ≠ expected then .error (.nonContiguous expected.toNat d.block)
      else if d.perSegment.length ≠ numSegments then
        .error (.segmentCountMismatch numSegments d.perSegment.length)
      else checkRun numSegments (expected + 1) ds

/-- The second half of `coalesce`: the sum per cell, under the last block's number. -/
def sumRun (first : BlockDelta) (rest : List BlockDelta) : Except CoalesceError BlockDelta :=
  match addDeltas (List.replicate first.perSegment.length ∅) (first :: rest) with
  | .error err => .error err
  | .ok accs => .ok ⟨((first :: rest).getLast (by simp)).block, accs.map Accumulator.toRows⟩

/-- `BlockDelta::coalesce`: one delta for a contiguous ascending run, summed per cell. The
counter behind `first.block..` wraps, as it does without overflow checks. -/
def coalesce : List BlockDelta → Except CoalesceError BlockDelta
  | [] => .error .empty
  | first :: rest =>
      match checkRun first.perSegment.length (BitVec.ofNat 64 first.block) (first :: rest) with
      | .error err => .error err
      | .ok () => sumRun first rest

/-- The counter's step in a build with overflow checks; `none` is the panic. -/
def forward (counter : BitVec 64) : Option (BitVec 64) :=
  if counter = BitVec.allOnes 64 then none else some (counter + 1)

/-- The first loop with overflow checks: `zip` steps the counter before it asks for a delta. -/
def checkRunChecked (numSegments : Nat) :
    BitVec 64 → List BlockDelta → Option (Except CoalesceError Unit)
  | expected, [] => (forward expected).map fun _ => .ok ()
  | expected, d :: ds => do
      let next ← forward expected
      if BitVec.ofNat 64 d.block ≠ expected then
        return .error (.nonContiguous expected.toNat d.block)
      else if d.perSegment.length ≠ numSegments then
        return .error (.segmentCountMismatch numSegments d.perSegment.length)
      else checkRunChecked numSegments next ds

/-- `BlockDelta::coalesce` in a build with overflow checks. -/
def coalesceChecked : List BlockDelta → Option (Except CoalesceError BlockDelta)
  | [] => some (.error .empty)
  | first :: rest => do
      match ← checkRunChecked first.perSegment.length (BitVec.ofNat 64 first.block)
          (first :: rest) with
      | .error err => return .error err
      | .ok () => return sumRun first rest

/-- Consecutive blocks from `start` on, each over `segments` segments. -/
inductive Consecutive (segments : Nat) : Nat → List BlockDelta → Prop
  | nil (start : Nat) : Consecutive segments start []
  | cons {d : BlockDelta} {ds : List BlockDelta} (count : d.perSegment.length = segments)
      (tail : Consecutive segments (d.block + 1) ds) : Consecutive segments d.block (d :: ds)

theorem checkRun_of_consecutive {segments start : Nat} {ds : List BlockDelta}
    (h : Consecutive segments start ds) :
    checkRun segments (BitVec.ofNat 64 start) ds = .ok () := by
  induction h with
  | nil start => rfl
  | cons count tail ih =>
      rw [checkRun, if_neg (by simp), if_neg (by simp [count])]
      rw [BitVec.ofNat_add] at ih
      exact ih

/-- The first loop accepts one arity and blocks that meet the counter as words. -/
theorem checkRun_iff {segments : Nat} {counter : BitVec 64} {ds : List BlockDelta} :
    checkRun segments counter ds = .ok () ↔ (∀ d ∈ ds, d.perSegment.length = segments) ∧
      ∀ k (hk : k < ds.length), BitVec.ofNat 64 ds[k].block = counter + BitVec.ofNat 64 k := by
  have shift : ∀ (c : BitVec 64) k, c + BitVec.ofNat 64 (k + 1) = c + 1 + BitVec.ofNat 64 k := by
    intro c k
    rw [BitVec.add_assoc, Nat.add_comm k 1, BitVec.ofNat_add]
    rfl
  induction ds generalizing counter with
  | nil => simp [checkRun]
  | cons d ds ih =>
      rw [checkRun, List.forall_mem_cons]
      constructor
      · intro h
        by_cases gap : BitVec.ofNat 64 d.block ≠ counter
        · rw [if_pos gap] at h
          cases h
        · rw [if_neg gap] at h
          by_cases count : d.perSegment.length ≠ segments
          · rw [if_pos count] at h
            cases h
          · rw [if_neg count] at h
            obtain ⟨counts, blocks⟩ := ih.mp h
            refine ⟨⟨not_not.mp count, counts⟩, fun k hk => ?_⟩
            cases k with
            | zero => simpa using not_not.mp gap
            | succ k => rw [List.getElem_cons_succ, shift, blocks k (by simpa using hk)]
      · rintro ⟨⟨count, counts⟩, blocks⟩
        have here : BitVec.ofNat 64 d.block = counter := by
          have first := blocks 0 (by simp)
          rwa [List.getElem_cons_zero, BitVec.add_zero] at first
        rw [if_neg (not_not.mpr here), if_neg (not_not.mpr count)]
        refine ih.mpr ⟨counts, fun k hk => ?_⟩
        have next := blocks (k + 1) (by simpa using hk)
        rw [List.getElem_cons_succ, shift] at next
        exact next

/-- The first loop with overflow checks passes where the wrapping one does and the counter
never stands at its last value. -/
theorem checkRunChecked_ok {segments : Nat} {counter : BitVec 64} {ds : List BlockDelta} :
    checkRunChecked segments counter ds = some (.ok ()) ↔
      checkRun segments counter ds = .ok () ∧ counter.toNat + ds.length < 2 ^ 64 - 1 := by
  have last : ∀ c : BitVec 64, c = BitVec.allOnes 64 ↔ c.toNat = 2 ^ 64 - 1 := by
    intro c
    rw [← BitVec.toNat_inj, BitVec.toNat_allOnes]
  induction ds generalizing counter with
  | nil =>
      have below := counter.isLt
      by_cases top : counter = BitVec.allOnes 64
      · have value := (last counter).mp top
        simp only [checkRunChecked, forward, if_pos top, checkRun, List.length_nil]
        simp
        omega
      · have value : counter.toNat ≠ 2 ^ 64 - 1 := fun h => top ((last counter).mpr h)
        simp only [checkRunChecked, forward, if_neg top, checkRun, List.length_nil]
        simp
        omega
  | cons d ds ih =>
      have below := counter.isLt
      by_cases top : counter = BitVec.allOnes 64
      · have value := (last counter).mp top
        simp only [checkRunChecked, forward, if_pos top, List.length_cons]
        simp
        omega
      · have value : counter.toNat ≠ 2 ^ 64 - 1 := fun h => top ((last counter).mpr h)
        have next : (counter + 1).toNat = counter.toNat + 1 := by
          rw [BitVec.toNat_add]
          exact Nat.mod_eq_of_lt (by simp; omega)
        simp only [checkRunChecked, forward, if_neg top, checkRun, List.length_cons]
        by_cases gap : BitVec.ofNat 64 d.block ≠ counter
        · simp [gap]
        · by_cases count : d.perSegment.length ≠ segments
          · simp [gap, count]
          · simp only [Option.bind_eq_bind, Option.bind_some, if_neg gap, if_neg count, ih, next]
            rw [Nat.add_assoc, Nat.add_comm 1]

/-- Every running sum met while the terms `l` are added to the sums `base` is an `i64`. -/
def RunningSumsFit {ι : Type} [DecidableEq ι] (base : ι → Int) (l : List (ι × Int)) : Prop :=
  ∀ p, p <+: l → ∀ i, InI64 (base i + total p i)

theorem RunningSumsFit.head {ι : Type} [DecidableEq ι] {base : ι → Int} {e : ι × Int}
    {l : List (ι × Int)} (h : RunningSumsFit base (e :: l)) : InI64 (base e.1 + e.2) := by
  have hp : [e] <+: e :: l := ⟨l, rfl⟩
  have hfit := h [e] hp e.1
  simpa [total_cons] using hfit

theorem RunningSumsFit.append_right {ι : Type} [DecidableEq ι] {base base' : ι → Int}
    {l l' : List (ι × Int)} (h : RunningSumsFit base (l ++ l'))
    (hbase : ∀ i, base' i = base i + total l i) : RunningSumsFit base' l' := by
  intro p hp i
  have hfit := h (l ++ p) ((List.prefix_append_right_inj l).mpr hp) i
  rw [total_append, ← add_assoc] at hfit
  rwa [hbase]

theorem RunningSumsFit.append_left {ι : Type} [DecidableEq ι] {base : ι → Int}
    {l l' : List (ι × Int)} (h : RunningSumsFit base (l ++ l')) : RunningSumsFit base l :=
  fun p hp i => h p (hp.trans (List.prefix_append l l')) i

/-- A prefix of a concatenation ends in the first part or in the second. -/
theorem RunningSumsFit.append {ι : Type} [DecidableEq ι] {base base' : ι → Int}
    {l l' : List (ι × Int)} (h : RunningSumsFit base l) (h' : RunningSumsFit base' l')
    (hbase : ∀ i, base' i = base i + total l i) : RunningSumsFit base (l ++ l') := by
  intro p hp i
  rcases List.prefix_or_prefix_of_prefix hp (List.prefix_append l l') with hp | ⟨p', rfl⟩
  · exact h p hp i
  · have hfit := h' p' ((List.prefix_append_right_inj l).mp hp) i
    rwa [hbase, add_assoc, ← total_append] at hfit

theorem addCells_ok {row : ExtTreeMap Nat Int} {cells : List (Nat × Int)}
    (fit : RunningSumsFit (fun k => row[k]?.getD 0) cells) :
    ∃ row', addCells row cells = .ok row' ∧
      ∀ k, row'[k]?.getD 0 = row[k]?.getD 0 + total cells k := by
  induction cells generalizing row with
  | nil => exact ⟨row, rfl, by simp⟩
  | cons e cells ih =>
      have first : addCell row e = .ok (bump row e.1 e.2) := by
        simp only [addCell, bump]
        rw [if_pos fit.head]
      have rest : RunningSumsFit (fun k => (bump row e.1 e.2)[k]?.getD 0) cells := by
        refine RunningSumsFit.append_right (l := [e]) fit fun k => ?_
        simp only [bump_getD, total_cons, total_nil, add_zero]
      obtain ⟨row', hrow, hsum⟩ := ih rest
      refine ⟨row', ?_, ?_⟩
      · rw [addCells, first]
        exact hrow
      · intro k
        rw [hsum, bump_getD, total_cons, add_assoc]

theorem addRows_ok {acc : Accumulator Nat Nat Int} {seg : SegmentRowDeltas}
    (fit : RunningSumsFit (fun i => acc.cell i.1 i.2) (entries seg)) :
    ∃ acc', addRows acc seg = .ok acc' ∧
      ∀ r k, acc'.cell r k = acc.cell r k + cellAt seg r k := by
  induction seg generalizing acc with
  | nil => exact ⟨acc, rfl, by simp⟩
  | cons row seg ih =>
      obtain ⟨r₀, cells⟩ := row
      rw [entries_cons] at fit
      have rowFit : RunningSumsFit (fun k => (acc[r₀]?.getD ∅)[k]?.getD 0) cells := by
        intro p hp k
        have hfit := fit.append_left (p.map fun e => ((r₀, e.1), e.2)) (hp.map _) (r₀, k)
        rw [total_row, if_pos rfl] at hfit
        exact hfit
      obtain ⟨cells', hcells, hsum⟩ := addCells_ok rowFit
      have values : ∀ r k, Accumulator.cell (acc.insert r₀ cells') r k =
          acc.cell r k + if r₀ = r then total cells k else 0 := by
        intro r k
        rw [Accumulator.cell_insert]
        by_cases h : r₀ = r
        · subst h
          rw [if_pos rfl, if_pos rfl, hsum]
          rfl
        · rw [if_neg h, if_neg h, add_zero]
      have rest : RunningSumsFit
          (fun i => Accumulator.cell (acc.insert r₀ cells') i.1 i.2) (entries seg) := by
        refine fit.append_right fun i => ?_
        rw [values, ← total_row]
      obtain ⟨acc', hacc, hcell⟩ := ih rest
      refine ⟨acc', ?_, ?_⟩
      · rw [addRows, hcells]
        exact hacc
      · intro r k
        rw [hcell, values, cellAt_cons, add_assoc]

theorem addSegments_ok {accs : List (Accumulator Nat Nat Int)} {segs : List SegmentRowDeltas}
    (length : accs.length = segs.length)
    (fit : ∀ j, RunningSumsFit (fun i => (accs.getD j ∅ : Accumulator Nat Nat Int).cell i.1 i.2)
      (entries (segs.getD j []))) :
    ∃ accs', addSegments accs segs = .ok accs' ∧ accs'.length = accs.length ∧
      ∀ j r k, (accs'.getD j ∅ : Accumulator Nat Nat Int).cell r k =
        (accs.getD j ∅ : Accumulator Nat Nat Int).cell r k + cellAt (segs.getD j []) r k := by
  induction accs generalizing segs with
  | nil =>
      have : segs = [] := List.eq_nil_of_length_eq_zero length.symm
      subst this
      exact ⟨[], rfl, rfl, by simp⟩
  | cons acc accs ih =>
      obtain _ | ⟨seg, segs⟩ := segs
      · simp at length
      · obtain ⟨acc', hacc, hcell⟩ := addRows_ok (fit 0)
        obtain ⟨accs', haccs, hlen, hcells⟩ := ih (by simpa using length) fun j => fit (j + 1)
        refine ⟨acc' :: accs', ?_, ?_, ?_⟩
        · have first : addRows acc seg = .ok acc' := hacc
          simp only [addSegments, first, haccs]
        · simp [hlen]
        · intro j r k
          cases j with
          | zero => exact hcell r k
          | succ j => exact hcells j r k

/-- The sum at one cell over a list of deltas. -/
def sumAt (ds : List BlockDelta) (j r k : Nat) : Int := (ds.map fun d => d.at j r k).sum

@[simp] theorem sumAt_nil (j r k : Nat) : sumAt [] j r k = 0 := rfl

@[simp] theorem sumAt_cons (d : BlockDelta) (ds : List BlockDelta) (j r k : Nat) :
    sumAt (d :: ds) j r k = d.at j r k + sumAt ds j r k := by
  simp [sumAt]

@[simp] theorem sumAt_append (ds ds' : List BlockDelta) (j r k : Nat) :
    sumAt (ds ++ ds') j r k = sumAt ds j r k + sumAt ds' j r k := by
  simp [sumAt]

/-- Every segment of the delta is canonical. -/
def BlockDelta.IsCanonical (d : BlockDelta) : Prop := ∀ seg ∈ d.perSegment, Canonical seg

theorem BlockDelta.IsCanonical.segment {d : BlockDelta} (h : d.IsCanonical) (j : Nat) :
    Canonical (d.perSegment.getD j []) := by
  by_cases hj : j < d.perSegment.length
  · rw [List.getD_eq_getElem _ _ hj]
    exact h _ (List.getElem_mem hj)
  · rw [List.getD_eq_default _ _ (by omega)]
    exact ⟨by simp, by simp, by simp, by simp⟩

/-- In a canonical segment a prefix of the terms has reached each cell fully or not at all. -/
theorem runningSumsFit_of_canonical {seg : SegmentRowDeltas} (h : Canonical seg)
    {base : Nat × Nat → Int} (before : ∀ i, InI64 (base i))
    (after : ∀ i, InI64 (base i + cellAt seg i.1 i.2)) : RunningSumsFit base (entries seg) := by
  intro p hp i
  by_cases hmem : ∃ m, (i, m) ∈ p
  · obtain ⟨m, hm⟩ := hmem
    have nodup : (p.map Prod.fst).Nodup := h.entries_nodup.sublist (hp.sublist.map _)
    have value : total p i = cellAt seg i.1 i.2 := by
      rw [total_of_mem nodup hm, h.cellAt_of_mem (hp.subset hm)]
    rw [value]
    exact after i
  · have value : total p i = 0 := total_eq_zero fun e he hi => hmem ⟨e.2, hi ▸ he⟩
    rw [value, add_zero]
    exact before i

/-- The terms a run adds to segment `j`, in the order `coalesce` adds them. -/
def termsOf (ds : List BlockDelta) (j : Nat) : List ((Nat × Nat) × Int) :=
  ds.flatMap fun d => entries (d.perSegment.getD j [])

theorem termsOf_cons (d : BlockDelta) (ds : List BlockDelta) (j : Nat) :
    termsOf (d :: ds) j = entries (d.perSegment.getD j []) ++ termsOf ds j := by
  simp [termsOf]

@[simp] theorem termsOf_append (ds ds' : List BlockDelta) (j : Nat) :
    termsOf (ds ++ ds') j = termsOf ds j ++ termsOf ds' j := by
  simp [termsOf]

theorem total_termsOf (ds : List BlockDelta) (j r k : Nat) :
    total (termsOf ds j) (r, k) = sumAt ds j r k := by
  rw [termsOf, total_flatMap]
  rfl

/-- Every running sum of the run, cell by cell, is an `i64`. -/
def SumsFit (ds : List BlockDelta) : Prop := ∀ j, RunningSumsFit (fun _ => 0) (termsOf ds j)

/-- Terms of little total size stay within `i64` in every order. -/
theorem sumsFit_of_small {ds : List BlockDelta}
    (small : ∀ j, ((termsOf ds j).map fun e => e.2.natAbs).sum < 2 ^ 63) : SumsFit ds := by
  have bound : ∀ (l : List ((Nat × Nat) × Int)) (i : Nat × Nat),
      (total l i).natAbs ≤ (l.map fun e => e.2.natAbs).sum := by
    intro l i
    induction l with
    | nil => simp
    | cons e l ih =>
        rw [total_cons, List.map_cons, List.sum_cons]
        by_cases here : e.1 = i
        · rw [if_pos here]
          omega
        · rw [if_neg here]
          omega
  intro j p hp i
  obtain ⟨rest, whole⟩ := hp
  have part : (p.map fun e => e.2.natAbs).sum < 2 ^ 63 := by
    have sum := small j
    rw [← whole, List.map_append, List.sum_append] at sum
    omega
  have value := bound p i
  show InI64 (0 + total p i)
  unfold InI64
  omega

/-- Runs of canonical deltas fit as soon as their sums block by block do. -/
theorem runningSumsFit_run {ds : List BlockDelta} (canonical : ∀ d ∈ ds, d.IsCanonical) {j : Nat}
    {base : Nat × Nat → Int}
    (fit : ∀ p, p <+: ds → ∀ r k, InI64 (base (r, k) + sumAt p j r k)) :
    RunningSumsFit base (termsOf ds j) := by
  induction ds generalizing base with
  | nil =>
      intro p hp i
      obtain rfl : p = [] := List.prefix_nil.mp hp
      exact fit [] List.nil_prefix i.1 i.2
  | cons d ds ih =>
      have block : RunningSumsFit base (entries (d.perSegment.getD j [])) := by
        refine runningSumsFit_of_canonical ((canonical d (by simp)).segment j) ?_ ?_
        · intro i
          simpa using fit [] List.nil_prefix i.1 i.2
        · intro i
          have hfit := fit [d] ⟨ds, rfl⟩ i.1 i.2
          rwa [sumAt_cons, sumAt_nil, add_zero] at hfit
      have rest : RunningSumsFit (fun i => base i + d.at j i.1 i.2) (termsOf ds j) := by
        refine ih (fun d' hd => canonical d' (List.mem_cons_of_mem d hd)) fun p hp r k => ?_
        have hfit := fit (d :: p) (List.cons_prefix_cons.mpr ⟨rfl, hp⟩) r k
        rwa [sumAt_cons, ← add_assoc] at hfit
      rw [termsOf_cons]
      exact block.append rest fun i => rfl

theorem addDeltas_ok {accs : List (Accumulator Nat Nat Int)} {ds : List BlockDelta}
    (length : ∀ d ∈ ds, d.perSegment.length = accs.length)
    (fit : ∀ j, RunningSumsFit
      (fun i => (accs.getD j ∅ : Accumulator Nat Nat Int).cell i.1 i.2) (termsOf ds j)) :
    ∃ accs', addDeltas accs ds = .ok accs' ∧ accs'.length = accs.length ∧
      ∀ j r k, (accs'.getD j ∅ : Accumulator Nat Nat Int).cell r k =
        (accs.getD j ∅ : Accumulator Nat Nat Int).cell r k + sumAt ds j r k := by
  induction ds generalizing accs with
  | nil => exact ⟨accs, rfl, rfl, by simp⟩
  | cons d ds ih =>
      simp only [termsOf_cons] at fit
      obtain ⟨accs₁, h₁, hlen₁, hcell₁⟩ :=
        addSegments_ok (length d (by simp)).symm fun j => (fit j).append_left
      have restFit : ∀ j, RunningSumsFit
          (fun i => (accs₁.getD j ∅ : Accumulator Nat Nat Int).cell i.1 i.2) (termsOf ds j) :=
        fun j => (fit j).append_right fun i => hcell₁ j i.1 i.2
      obtain ⟨accs', h', hlen', hcell'⟩ := ih
        (fun d' hd => (length d' (List.mem_cons_of_mem d hd)).trans hlen₁.symm) restFit
      refine ⟨accs', ?_, hlen'.trans hlen₁, ?_⟩
      · rw [addDeltas, h₁]
        exact h'
      · intro j r k
        rw [hcell', hcell₁, sumAt_cons, add_assoc]
        rfl

theorem Consecutive.length_eq {segments start : Nat} {ds : List BlockDelta}
    (h : Consecutive segments start ds) : ∀ d ∈ ds, d.perSegment.length = segments := by
  induction h with
  | nil start => simp
  | cons count tail ih =>
      intro d hd
      rcases List.mem_cons.mp hd with rfl | hd
      · exact count
      · exact ih d hd

/-- A run by its positions: one arity, and the block that stands at each of them. -/
theorem consecutive_iff {segments start : Nat} {ds : List BlockDelta} :
    Consecutive segments start ds ↔ (∀ d ∈ ds, d.perSegment.length = segments) ∧
      ∀ k (hk : k < ds.length), ds[k].block = start + k := by
  constructor
  · intro run
    refine ⟨run.length_eq, ?_⟩
    induction run with
    | nil start => simp
    | cons count tail ih =>
        intro k hk
        cases k with
        | zero => rfl
        | succ k =>
            rw [List.getElem_cons_succ, ih k (by simpa using hk)]
            omega
  · rintro ⟨counts, blocks⟩
    induction ds generalizing start with
    | nil => exact .nil start
    | cons d ds ih =>
        obtain rfl : d.block = start := blocks 0 (by simp)
        refine .cons (counts d (by simp)) (ih (fun e he => counts e (by simp [he])) fun k hk => ?_)
        have next := blocks (k + 1) (by simpa using hk)
        rw [List.getElem_cons_succ] at next
        omega

theorem Consecutive.getLast_block {segments start : Nat} {ds : List BlockDelta}
    (h : Consecutive segments start ds) (hne : ds ≠ []) :
    (ds.getLast hne).block + 1 = start + ds.length := by
  induction h with
  | nil start => exact absurd rfl hne
  | cons count tail ih =>
      rename_i d ds
      by_cases hds : ds = []
      · subst hds
        simp
      · rw [List.getLast_cons hds, ih hds, List.length_cons]
        omega

theorem Consecutive.append_left {segments start : Nat} {a b : List BlockDelta}
    (h : Consecutive segments start (a ++ b)) : Consecutive segments start a := by
  induction a generalizing start with
  | nil => exact .nil start
  | cons d a ih =>
      cases h with
      | cons count tail => exact .cons count (ih tail)

theorem Consecutive.append_right {segments start : Nat} {a b : List BlockDelta}
    (h : Consecutive segments start (a ++ b)) : Consecutive segments (start + a.length) b := by
  induction a generalizing start with
  | nil => exact h
  | cons d a ih =>
      cases h with
      | cons count tail =>
          have rest := ih tail
          rwa [Nat.add_assoc, Nat.add_comm 1, ← List.length_cons (a := d)] at rest

theorem SumsFit.append_left {a b : List BlockDelta} (h : SumsFit (a ++ b)) : SumsFit a := by
  intro j
  have whole := h j
  rw [termsOf_append] at whole
  exact whole.append_left

/-- Deltas of one arity whose running sums fit are summed, under the last block. -/
theorem sumRun_sums {segments : Nat} {first : BlockDelta} {rest : List BlockDelta}
    (counts : ∀ d ∈ first :: rest, d.perSegment.length = segments)
    (fit : SumsFit (first :: rest)) :
    ∃ out, sumRun first rest = .ok out ∧ out.block = ((first :: rest).getLast (by simp)).block ∧
      out.perSegment.length = segments ∧ out.IsCanonical ∧
      ∀ j r k, out.at j r k = sumAt (first :: rest) j r k := by
  have count : first.perSegment.length = segments := counts first (by simp)
  have empty : ∀ j, ((List.replicate segments ∅).getD j ∅ : Accumulator Nat Nat Int) = ∅ := by
    intro j
    by_cases hj : j < segments
    · simp [hj]
    · simp [hj]
  have start : ∀ j, RunningSumsFit (fun i => ((List.replicate segments ∅).getD j ∅ :
      Accumulator Nat Nat Int).cell i.1 i.2) (termsOf (first :: rest) j) := by
    intro j
    simp only [empty, Accumulator.cell_empty]
    exact fit j
  obtain ⟨accs, haccs, hlen, hcell⟩ := addDeltas_ok
    (fun d hd => by rw [counts d hd, List.length_replicate]) start
  refine ⟨⟨((first :: rest).getLast (by simp)).block, accs.map Accumulator.toRows⟩, ?_,
    rfl, ?_, ?_, ?_⟩
  · simp only [sumRun, count, haccs]
  · simpa using hlen
  · intro seg hseg
    obtain ⟨acc, -, rfl⟩ := List.mem_map.mp hseg
    exact acc.toRows_canonical
  · intro j r k
    have value : cellAt ((accs.map Accumulator.toRows).getD j []) r k =
        (accs.getD j ∅ : Accumulator Nat Nat Int).cell r k := by
      by_cases hj : j < accs.length
      · rw [List.getD_eq_getElem _ _ (by simpa using hj), List.getD_eq_getElem _ _ hj,
          List.getElem_map, Accumulator.cellAt_toRows]
      · rw [List.getD_eq_default _ _ (by simpa using hj), List.getD_eq_default _ _ (by omega)]
        simp
    have sum := hcell j r k
    rw [empty, Accumulator.cell_empty, zero_add] at sum
    rw [BlockDelta.at, value, sum]

/-- Coalescing a run whose running sums fit: it succeeds, under the last block, and sums
every cell. -/
theorem coalesce_sums {segments start : Nat} {ds : List BlockDelta} (hne : ds ≠ [])
    (run : Consecutive segments start ds) (fit : SumsFit ds) :
    ∃ out, coalesce ds = .ok out ∧ out.block = (ds.getLast hne).block ∧
      out.perSegment.length = segments ∧ out.IsCanonical ∧
      ∀ j r k, out.at j r k = sumAt ds j r k := by
  cases run with
  | nil start => exact absurd rfl hne
  | cons count tail =>
      rename_i first rest
      have run : Consecutive segments first.block (first :: rest) := .cons count tail
      obtain ⟨out, summed, spec⟩ := sumRun_sums run.length_eq fit
      refine ⟨out, ?_, spec⟩
      simp only [coalesce, count, checkRun_of_consecutive run, summed]

/-- The same for canonical deltas, whose sums need to fit block by block only. -/
theorem coalesce_ok {segments start : Nat} {ds : List BlockDelta} (hne : ds ≠ [])
    (run : Consecutive segments start ds) (canonical : ∀ d ∈ ds, d.IsCanonical)
    (fit : ∀ p, p <+: ds → ∀ j r k, InI64 (sumAt p j r k)) :
    ∃ out, coalesce ds = .ok out ∧ out.block + 1 = start + ds.length ∧
      out.perSegment.length = segments ∧ out.IsCanonical ∧
      ∀ j r k, out.at j r k = sumAt ds j r k := by
  have sums : SumsFit ds := fun j => runningSumsFit_run canonical fun p hp r k => by
    rw [zero_add]
    exact fit p hp j r k
  obtain ⟨out, hout, hblock, rest⟩ := coalesce_sums hne run sums
  exact ⟨out, hout, by rw [hblock, run.getLast_block hne], rest⟩

end RisePir.Proto.Types
