import Mathlib.Data.Prod.Lex
import RisePir.Proto.Types

set_option autoImplicit false
set_option relaxedAutoImplicit false

/-! The client's rolling delta: every cell's summed change since the pinned block. -/

namespace RisePir.Client.Delta

open Std
open RisePir.Lib.Sparse
open RisePir.Proto.Types

inductive ClientError
  | nonContiguousDelta (currentHead found : Nat)
  | segmentCountMismatch (expected found : Nat)
  | deltaOverflow
  | gcTargetMismatch (pendingHead requested : Nat)
  | malformedResponse (expected found : Nat)
  | responseBlockMismatch (pendingHead responseBlock : Nat)
  | keyContextMismatch
  | cellOutOfRange (segment row offset : Nat)
  deriving DecidableEq, Repr

/-- A `(row, offset)` pair in the order of the source's `BTreeMap` keys. -/
abbrev CellKey : Type := Nat ×ₗ Nat

instance : LawfulEqOrd CellKey where
  eq_of_compare {a b} h := by
    simp only [Prod.Lex.compare_def, compareLex, compareOn, Ordering.then_eq_eq] at h
    exact ofLex_inj.mp (Prod.ext (LawfulEqOrd.eq_of_compare h.1) (LawfulEqOrd.eq_of_compare h.2))

/-- One segment's `BTreeMap<(u32, u16), i64>`. -/
abbrev SegmentDelta : Type := ExtTreeMap CellKey Int

/-- `PendingDelta`. -/
structure PendingDelta where
  perSegment : List SegmentDelta
  head : Nat

/-- The sum at one cell; zero where the map has no entry. -/
def SegmentDelta.at (m : SegmentDelta) (row offset : Nat) : Int := m[toLex (row, offset)]?.getD 0

/-- The entries in map order, as the terms of a row-by-row list. -/
def SegmentDelta.terms (m : SegmentDelta) : List ((Nat × Nat) × Int) :=
  m.toList.map fun e => (ofLex e.1, e.2)

/-- One cell of `ingest`'s inner loop. -/
def ingestCell (m : SegmentDelta) (e : (Nat × Nat) × Int) : Except ClientError SegmentDelta :=
  match m[toLex e.1]? with
  | none => .ok (if e.2 ≠ 0 then m.insert (toLex e.1) e.2 else m)
  | some value =>
      let sum := value + e.2
      if InI64 sum then .ok (if sum = 0 then m.erase (toLex e.1) else m.insert (toLex e.1) sum)
      else .error .deltaOverflow

/-- A segment's cells in order; a failure keeps what was already folded in. -/
def ingestCells : SegmentDelta → List ((Nat × Nat) × Int) → SegmentDelta × Except ClientError Unit
  | m, [] => (m, .ok ())
  | m, e :: es =>
      match ingestCell m e with
      | .error err => (m, .error err)
      | .ok m' => ingestCells m' es

def ingestSegments : List SegmentDelta → List SegmentRowDeltas →
    List SegmentDelta × Except ClientError Unit
  | m :: ms, seg :: segs =>
      match ingestCells m (entries seg) with
      | (m', .error err) => (m' :: ms, .error err)
      | (m', .ok ()) =>
          let out := ingestSegments ms segs
          (m' :: out.1, out.2)
  | ms, _ => (ms, .ok ())

namespace PendingDelta

def new (arity head : Nat) : PendingDelta := ⟨List.replicate arity ∅, head⟩

def segment (pending : PendingDelta) (seg : Nat) : SegmentDelta := pending.perSegment.getD seg ∅

/-- The entries of one row: the map's range over `(row, 0)..=(row, MAX)`. -/
def row (pending : PendingDelta) (seg row : Nat) : List (Nat × Int) :=
  ((pending.segment seg).terms.filter fun e => e.1.1 = row).map fun e => (e.1.2, e.2)

/-- One step of `as_row_deltas`: the last row grows, or a new one begins. -/
def pushCell (out : SegmentRowDeltas) (e : (Nat × Nat) × Int) : SegmentRowDeltas :=
  match out.getLast? with
  | some (lastRow, cells) =>
      if lastRow = e.1.1 then out.dropLast ++ [(lastRow, cells ++ [(e.1.2, e.2)])]
      else out ++ [(e.1.1, [(e.1.2, e.2)])]
  | none => out ++ [(e.1.1, [(e.1.2, e.2)])]

def asRowDeltas (pending : PendingDelta) (seg : Nat) : SegmentRowDeltas :=
  (pending.segment seg).terms.foldl pushCell []

/-- The delta of segment `j` at cell `(row, offset)`. -/
def «at» (pending : PendingDelta) (j row offset : Nat) : Int := (pending.segment j).at row offset

/-- `PendingDelta::ingest`, with the accumulator it leaves behind in either case. -/
def ingest (pending : PendingDelta) (d : BlockDelta) : PendingDelta × Except ClientError Unit :=
  if d.block ≤ pending.head then (pending, .error (.nonContiguousDelta pending.head d.block))
  else if d.perSegment.length ≠ pending.perSegment.length then
    (pending, .error (.segmentCountMismatch pending.perSegment.length d.perSegment.length))
  else
    match ingestSegments pending.perSegment d.perSegment with
    | (ms, .error err) => (⟨ms, pending.head⟩, .error err)
    | (ms, .ok ()) => (⟨ms, d.block⟩, .ok ())

end PendingDelta

/-- The map stores no zero. -/
def SegmentDelta.NoZeros (m : SegmentDelta) : Prop := ∀ k : CellKey, m[k]? ≠ some 0

theorem noZeros_empty : SegmentDelta.NoZeros ∅ := fun k => by simp

@[simp] theorem at_empty (row offset : Nat) : SegmentDelta.at ∅ row offset = 0 := by
  simp [SegmentDelta.at]

section Cells

private theorem at_insert (m : SegmentDelta) (e : Nat × Nat) (v : Int) (row offset : Nat) :
    SegmentDelta.at (m.insert (toLex e) v) row offset =
      if e = (row, offset) then v else m.at row offset := by
  rw [SegmentDelta.at, ExtTreeMap.getElem?_insert]
  by_cases h : e = (row, offset)
  · simp [h]
  · have hne : ¬ compare (toLex e) (toLex (row, offset)) = .eq :=
      fun heq => h (toLex_inj.mp (LawfulEqOrd.eq_of_compare heq))
    rw [if_neg hne, if_neg h]
    rfl

private theorem at_erase (m : SegmentDelta) (e : Nat × Nat) (row offset : Nat) :
    SegmentDelta.at (m.erase (toLex e)) row offset =
      if e = (row, offset) then 0 else m.at row offset := by
  rw [SegmentDelta.at, ExtTreeMap.getElem?_erase]
  by_cases h : e = (row, offset)
  · simp [h]
  · have hne : ¬ compare (toLex e) (toLex (row, offset)) = .eq :=
      fun heq => h (toLex_inj.mp (LawfulEqOrd.eq_of_compare heq))
    rw [if_neg hne, if_neg h]
    rfl

theorem noZeros_insert {m : SegmentDelta} (h : m.NoZeros) (k : CellKey) {v : Int}
    (hv : v ≠ 0) : SegmentDelta.NoZeros (m.insert k v) := by
  intro k'
  rw [ExtTreeMap.getElem?_insert]
  split
  · simpa using hv
  · exact h k'

theorem noZeros_erase {m : SegmentDelta} (h : m.NoZeros) (k : CellKey) :
    SegmentDelta.NoZeros (m.erase k) := by
  intro k'
  rw [ExtTreeMap.getElem?_erase]
  split
  · simp
  · exact h k'

/-- One cell within `i64` is added to its sum and leaves every other sum alone. -/
theorem ingestCell_ok {m : SegmentDelta} (hm : m.NoZeros) {e : (Nat × Nat) × Int}
    (fit : InI64 (m.at e.1.1 e.1.2 + e.2)) : ∃ m', ingestCell m e = .ok m' ∧ m'.NoZeros ∧
      ∀ r k, m'.at r k = m.at r k + if e.1 = (r, k) then e.2 else 0 := by
  rw [ingestCell]
  cases hget : m[toLex e.1]? with
  | none =>
      have zero : m.at e.1.1 e.1.2 = 0 := by
        rw [SegmentDelta.at, Prod.mk.eta, hget]
        rfl
      dsimp only
      by_cases hd : e.2 = 0
      · refine ⟨m, by rw [if_neg (by simp [hd])], hm, fun r k => ?_⟩
        simp [hd]
      · refine ⟨_, by rw [if_pos hd], noZeros_insert hm _ hd, fun r k => ?_⟩
        rw [at_insert]
        by_cases h : e.1 = (r, k)
        · rw [if_pos h, if_pos h, ← show m.at e.1.1 e.1.2 = m.at r k by rw [h], zero, zero_add]
        · rw [if_neg h, if_neg h, add_zero]
  | some value =>
      have hvalue : m.at e.1.1 e.1.2 = value := by
        rw [SegmentDelta.at, Prod.mk.eta, hget]
        rfl
      rw [hvalue] at fit
      dsimp only
      rw [if_pos fit]
      have other : ∀ r k, e.1 = (r, k) → m.at r k = value := by
        intro r k h
        rw [← hvalue, h]
      by_cases hsum : value + e.2 = 0
      · refine ⟨_, by rw [if_pos hsum], noZeros_erase hm _, fun r k => ?_⟩
        rw [at_erase]
        by_cases h : e.1 = (r, k)
        · rw [if_pos h, if_pos h, other r k h, hsum]
        · rw [if_neg h, if_neg h, add_zero]
      · refine ⟨_, by rw [if_neg hsum], noZeros_insert hm _ hsum, fun r k => ?_⟩
        rw [at_insert]
        by_cases h : e.1 = (r, k)
        · rw [if_pos h, if_pos h, other r k h]
        · rw [if_neg h, if_neg h, add_zero]

theorem ingestCells_ok {m : SegmentDelta} (hm : m.NoZeros) {es : List ((Nat × Nat) × Int)}
    (fit : RunningSumsFit (fun i => m.at i.1 i.2) es) : ∃ m', ingestCells m es = (m', .ok ()) ∧
      m'.NoZeros ∧ ∀ r k, m'.at r k = m.at r k + total es (r, k) := by
  induction es generalizing m with
  | nil => exact ⟨m, rfl, hm, by simp⟩
  | cons e es ih =>
      obtain ⟨m₁, h₁, hm₁, sum₁⟩ := ingestCell_ok hm fit.head
      have split : RunningSumsFit (fun i : Nat × Nat => m.at i.1 i.2) ([e] ++ es) := fit
      have rest : RunningSumsFit (fun i : Nat × Nat => m₁.at i.1 i.2) es :=
        split.append_right fun i => by simp [sum₁, total_cons]
      obtain ⟨m', h', hm', sum'⟩ := ih hm₁ rest
      refine ⟨m', by rw [ingestCells, h₁]; exact h', hm', fun r k => ?_⟩
      rw [sum', sum₁, total_cons, add_assoc]

theorem ingestSegments_ok {ms : List SegmentDelta} (hms : ∀ m ∈ ms, m.NoZeros)
    {segs : List SegmentRowDeltas} (length : segs.length = ms.length)
    (fit : ∀ j, RunningSumsFit (fun i => (ms.getD j ∅ : SegmentDelta).at i.1 i.2)
      (entries (segs.getD j []))) :
    ∃ ms', ingestSegments ms segs = (ms', .ok ()) ∧ ms'.length = ms.length ∧
      (∀ m ∈ ms', m.NoZeros) ∧
      ∀ j r k, (ms'.getD j ∅ : SegmentDelta).at r k =
        (ms.getD j ∅ : SegmentDelta).at r k + cellAt (segs.getD j []) r k := by
  induction ms generalizing segs with
  | nil =>
      obtain rfl : segs = [] := List.length_eq_zero_iff.mp length
      exact ⟨[], rfl, rfl, by simp, by simp⟩
  | cons m ms ih =>
      cases segs with
      | nil => simp at length
      | cons seg segs =>
          have first := fit 0
          simp only [List.getD_cons_zero] at first
          obtain ⟨m', h', hm', sum'⟩ := ingestCells_ok (hms m (by simp)) first
          obtain ⟨ms', hs, hlen, hnz, sums⟩ := ih (fun x hx => hms x (List.mem_cons_of_mem m hx))
            (by simpa using length) fun j => by simpa using fit (j + 1)
          refine ⟨m' :: ms', by rw [ingestSegments, h']; simp [hs], by simp [hlen], ?_, ?_⟩
          · intro x hx
            rcases List.mem_cons.mp hx with rfl | hx
            · exact hm'
            · exact hnz x hx
          · intro j r k
            cases j with
            | zero => exact sum' r k
            | succ j => simpa using sums j r k

end Cells

namespace PendingDelta

/-- No segment stores a zero. -/
def NoZeros (pending : PendingDelta) : Prop := ∀ m ∈ pending.perSegment, m.NoZeros

theorem new_noZeros (arity head : Nat) : (new arity head).NoZeros := by
  intro m hm
  rw [List.eq_of_mem_replicate hm]
  exact noZeros_empty

theorem at_new (arity head j row offset : Nat) : (new arity head).at j row offset = 0 := by
  have : (new arity head).segment j = ∅ := by
    rw [segment, new, List.getD_eq_getElem?_getD, List.getElem?_replicate]
    split <;> rfl
  rw [«at», this, at_empty]

/-- A canonical delta whose sums stay within `i64` is ingested whole. -/
theorem ingest_ok {pending : PendingDelta} (hp : pending.NoZeros) {d : BlockDelta}
    (ascends : pending.head < d.block) (segments : d.perSegment.length = pending.perSegment.length)
    (canonical : d.IsCanonical) (before : ∀ j r k, InI64 (pending.at j r k))
    (after : ∀ j r k, InI64 (pending.at j r k + d.at j r k)) :
    ∃ pending', pending.ingest d = (pending', .ok ()) ∧ pending'.head = d.block ∧
      pending'.perSegment.length = pending.perSegment.length ∧ pending'.NoZeros ∧
      ∀ j r k, pending'.at j r k = pending.at j r k + d.at j r k := by
  obtain ⟨ms, hms, hlen, hnz, sums⟩ := ingestSegments_ok hp segments fun j =>
    runningSumsFit_of_canonical (canonical.segment j) (fun i => before j i.1 i.2)
      fun i => after j i.1 i.2
  refine ⟨⟨ms, d.block⟩, ?_, rfl, hlen, hnz, sums⟩
  rw [ingest, if_neg (by omega), if_neg (by simp [segments]), hms]

end PendingDelta

section Terms

private theorem terms_nodup (m : SegmentDelta) : (m.terms.map Prod.fst).Nodup := by
  have keys : (m.toList.map Prod.fst).Nodup := (keys_ascending m).imp fun h => h.ne
  have eq : m.terms.map Prod.fst = (m.toList.map Prod.fst).map ofLex := by
    rw [SegmentDelta.terms, List.map_map, List.map_map]
    rfl
  rw [eq]
  exact keys.map ofLex.injective

theorem mem_terms {m : SegmentDelta} {row offset : Nat} {v : Int} :
    ((row, offset), v) ∈ m.terms ↔ m[toLex (row, offset)]? = some v := by
  rw [← ExtTreeMap.mem_toList_iff_getElem?_eq_some, SegmentDelta.terms, List.mem_map]
  constructor
  · rintro ⟨⟨k, w⟩, hmem, heq⟩
    obtain ⟨hk, rfl⟩ := Prod.mk.inj heq
    rw [← hk]
    exact hmem
  · intro hmem
    exact ⟨_, hmem, rfl⟩

/-- The entries sum to the map's value at each cell. -/
theorem total_terms (m : SegmentDelta) (row offset : Nat) :
    total m.terms (row, offset) = m.at row offset := by
  cases h : m[toLex (row, offset)]? with
  | none =>
      rw [SegmentDelta.at, h, total_eq_zero]
      · rfl
      · rintro ⟨k, v⟩ hmem rfl
        rw [mem_terms.mp hmem] at h
        cases h
  | some v =>
      rw [SegmentDelta.at, h, total_of_mem (terms_nodup m) (mem_terms.mpr h)]
      rfl

theorem at_of_mem_terms {m : SegmentDelta} {e : (Nat × Nat) × Int} (h : e ∈ m.terms) :
    m.at e.1.1 e.1.2 = e.2 := by
  have := mem_terms.mp (show ((e.1.1, e.1.2), e.2) ∈ m.terms from h)
  rw [SegmentDelta.at, this]
  rfl

theorem ne_zero_of_mem_terms {m : SegmentDelta} (hm : m.NoZeros) {e : (Nat × Nat) × Int}
    (h : e ∈ m.terms) : e.2 ≠ 0 := by
  intro hzero
  have := mem_terms.mp (show ((e.1.1, e.1.2), e.2) ∈ m.terms from h)
  exact hm _ (hzero ▸ this)

theorem entries_pushCell (out : SegmentRowDeltas) (e : (Nat × Nat) × Int) :
    entries (PendingDelta.pushCell out e) = entries out ++ [e] := by
  unfold PendingDelta.pushCell
  split
  · rename_i lastRow cells hlast
    obtain ⟨init, rfl⟩ : ∃ init, out = init ++ [(lastRow, cells)] :=
      ⟨_, (List.dropLast_append_getLast? _ hlast).symm⟩
    split
    · rename_i hrow
      subst hrow
      simp
    · simp
  · simp

/-- Grouping by rows keeps the entries and their order. -/
theorem entries_asRowDeltas (pending : PendingDelta) (seg : Nat) :
    entries (pending.asRowDeltas seg) = (pending.segment seg).terms := by
  have fold : ∀ (es : List ((Nat × Nat) × Int)) (out : SegmentRowDeltas),
      entries (es.foldl PendingDelta.pushCell out) = entries out ++ es := by
    intro es
    induction es with
    | nil => simp
    | cons e es ih =>
        intro out
        rw [List.foldl_cons, ih, entries_pushCell, List.append_assoc, List.singleton_append]
  exact fold _ []

/-- `as_row_deltas` represents the map's sums. -/
theorem cellAt_asRowDeltas (pending : PendingDelta) (seg row offset : Nat) :
    cellAt (pending.asRowDeltas seg) row offset = pending.at seg row offset := by
  rw [cellAt, entries_asRowDeltas, total_terms]
  rfl

/-- `row` lists exactly the row's entries, each offset once. -/
theorem mem_row {pending : PendingDelta} {seg row offset : Nat} {v : Int} :
    (offset, v) ∈ pending.row seg row ↔ ((row, offset), v) ∈ (pending.segment seg).terms := by
  simp only [PendingDelta.row, List.mem_map, List.mem_filter, decide_eq_true_eq]
  constructor
  · rintro ⟨⟨⟨r, o⟩, w⟩, ⟨hmem, rfl⟩, heq⟩
    obtain ⟨rfl, rfl⟩ := Prod.mk.inj heq
    exact hmem
  · intro hmem
    exact ⟨_, ⟨hmem, rfl⟩, rfl⟩

theorem row_nodup (pending : PendingDelta) (seg row : Nat) :
    ((pending.row seg row).map Prod.fst).Nodup := by
  have keys := (terms_nodup (pending.segment seg)).sublist
    (List.filter_sublist.map Prod.fst :
      (((pending.segment seg).terms.filter fun e => e.1.1 = row).map Prod.fst).Sublist _)
  rw [PendingDelta.row, List.map_map]
  rw [List.nodup_map_iff_inj_on (List.Nodup.of_map _ keys)]
  intro a ha b hb heq
  have ha' := of_decide_eq_true (List.mem_filter.mp ha).2
  have hb' := of_decide_eq_true (List.mem_filter.mp hb).2
  have key : a.1 = b.1 := Prod.ext (ha'.trans hb'.symm) heq
  exact List.inj_on_of_nodup_map keys ha hb key

end Terms

end RisePir.Client.Delta
