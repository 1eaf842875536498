import Mathlib.Algebra.BigOperators.Group.List.Basic
import Mathlib.Algebra.BigOperators.Ring.List
import Mathlib.Data.List.Sort
import Mathlib.Order.Compare
import Mathlib.Order.Std
import Std.Data.ExtTreeMap.Lemmas

set_option autoImplicit false
set_option relaxedAutoImplicit false

/-! Finitely many indexed terms as the function they sum to, and the two-level
ordered accumulator that collects such terms row by row. -/

namespace RisePir.Lib.Sparse

open Std (ExtTreeMap)

section Total

variable {ι M : Type} [DecidableEq ι] [AddCommMonoid M]

/-- The value at `i` of the function that a list of indexed terms sums to. -/
def total (l : List (ι × M)) (i : ι) : M :=
  (l.map fun e => if e.1 = i then e.2 else 0).sum

@[simp] theorem total_nil (i : ι) : total ([] : List (ι × M)) i = 0 := rfl

theorem total_cons (e : ι × M) (l : List (ι × M)) (i : ι) :
    total (e :: l) i = (if e.1 = i then e.2 else 0) + total l i := by
  simp [total]

@[simp] theorem total_append (l l' : List (ι × M)) (i : ι) :
    total (l ++ l') i = total l i + total l' i := by
  simp [total]

theorem total_flatMap {α : Type} (f : α → List (ι × M)) (l : List α) (i : ι) :
    total (l.flatMap f) i = (l.map fun a => total (f a) i).sum := by
  induction l with
  | nil => rfl
  | cons a l ih => simp [ih]

theorem total_eq_zero {l : List (ι × M)} {i : ι} (h : ∀ e ∈ l, e.1 ≠ i) : total l i = 0 := by
  induction l with
  | nil => rfl
  | cons e l ih =>
      rw [total_cons, if_neg (h e (by simp)), zero_add]
      exact ih fun e' he => h e' (List.mem_cons_of_mem e he)

theorem total_of_mem {l : List (ι × M)} (nodup : (l.map Prod.fst).Nodup) {i : ι} {m : M}
    (h : (i, m) ∈ l) : total l i = m := by
  induction l with
  | nil => simp at h
  | cons e l ih =>
      simp only [List.map_cons, List.nodup_cons] at nodup
      rcases List.mem_cons.mp h with rfl | h
      · have rest : total l i = 0 := total_eq_zero fun e he hi =>
          nodup.1 (hi ▸ List.mem_map.mpr ⟨_, he, rfl⟩)
        rw [total_cons, if_pos rfl, rest, add_zero]
      · have hne : e.1 ≠ i := fun hi => nodup.1 (hi ▸ List.mem_map.mpr ⟨_, h, rfl⟩)
        rw [total_cons, if_neg hne, zero_add]
        exact ih nodup.2 h

theorem total_filter_ne_zero [DecidableEq M] (l : List (ι × M)) (i : ι) :
    total (l.filter fun e => e.2 ≠ 0) i = total l i := by
  induction l with
  | nil => rfl
  | cons e l ih =>
      by_cases h : e.2 = 0
      · rw [List.filter_cons_of_neg (by simp [h]), ih, total_cons, h]
        simp
      · rw [List.filter_cons_of_pos (by simp [h]), total_cons, total_cons, ih]

theorem total_filter (keep : ι → Bool) (l : List (ι × M)) (i : ι) :
    total (l.filter fun e => keep e.1) i = if keep i then total l i else 0 := by
  induction l with
  | nil => simp
  | cons e l ih =>
      by_cases kept : keep e.1 = true
      · rw [List.filter_cons_of_pos (by exact kept), total_cons, total_cons, ih]
        by_cases here : e.1 = i
        · subst here
          rw [if_pos kept, if_pos kept]
        · rw [if_neg here, zero_add, zero_add]
      · rw [List.filter_cons_of_neg (by exact kept), ih, total_cons]
        by_cases here : e.1 = i
        · subst here
          rw [if_neg kept, if_neg kept]
        · rw [if_neg here, zero_add]

/-- A renaming of the indices that keeps `i` apart from the others. -/
theorem total_map {κ : Type} [DecidableEq κ] {f : ι → κ} {l : List (ι × M)} {i : ι}
    (apart : ∀ e ∈ l, f e.1 = f i → e.1 = i) :
    total (l.map fun e => (f e.1, e.2)) (f i) = total l i := by
  induction l with
  | nil => rfl
  | cons e l ih =>
      have here : f e.1 = f i ↔ e.1 = i := ⟨apart e List.mem_cons_self, congrArg f⟩
      rw [List.map_cons, total_cons, total_cons, ih fun e' he => apart e' (List.mem_cons_of_mem e he)]
      simp only [here]

theorem total_map_of_injective {κ : Type} [DecidableEq κ] {f : ι → κ}
    (hf : Function.Injective f) (l : List (ι × M)) (i : ι) :
    total (l.map fun e => (f e.1, e.2)) (f i) = total l i := total_map fun _ _ h => hf h

/-- A homomorphism applied to every term is applied to the sum. -/
theorem total_mapValues {N : Type} [AddCommMonoid N] (φ : M →+ N) (l : List (ι × M)) (i : ι) :
    total (l.map fun e => (e.1, φ e.2)) i = φ (total l i) := by
  induction l with
  | nil => simp
  | cons e l ih =>
      rw [List.map_cons, total_cons, total_cons, ih, map_add]
      split <;> simp

end Total

section Rows

variable {ρ κ M : Type}

/-- The terms of a row-by-row list, each under its row and its column. -/
def entries (rows : List (ρ × List (κ × M))) : List ((ρ × κ) × M) :=
  rows.flatMap fun row => row.2.map fun e => ((row.1, e.1), e.2)

@[simp] theorem entries_nil : entries ([] : List (ρ × List (κ × M))) = [] := rfl

@[simp] theorem entries_cons (row : ρ × List (κ × M)) (rows : List (ρ × List (κ × M))) :
    entries (row :: rows) = (row.2.map fun e => ((row.1, e.1), e.2)) ++ entries rows := by
  simp [entries]

@[simp] theorem entries_append (rows rows' : List (ρ × List (κ × M))) :
    entries (rows ++ rows') = entries rows ++ entries rows' := by
  simp [entries]

theorem mem_entries {rows : List (ρ × List (κ × M))} {r : ρ} {k : κ} {m : M} :
    ((r, k), m) ∈ entries rows ↔ ∃ cells, (r, cells) ∈ rows ∧ (k, m) ∈ cells := by
  simp only [entries, List.mem_flatMap, List.mem_map, Prod.mk.injEq, Prod.exists]
  constructor
  · rintro ⟨_, cells, hr, _, _, hc, ⟨rfl, rfl⟩, rfl⟩
    exact ⟨cells, hr, hc⟩
  · rintro ⟨cells, hr, hc⟩
    exact ⟨r, cells, hr, k, m, hc, ⟨rfl, rfl⟩, rfl⟩

variable [DecidableEq ρ] [DecidableEq κ] [AddCommMonoid M]

theorem total_row (row : ρ) (cells : List (κ × M)) (r : ρ) (k : κ) :
    total (cells.map fun e => ((row, e.1), e.2)) (r, k) =
      if row = r then total cells k else 0 := by
  induction cells with
  | nil => simp
  | cons e cells ih =>
      rw [List.map_cons, total_cons, ih, total_cons]
      by_cases h : row = r <;> simp [h]

/-- The value at `(r, k)` of the function that a row-by-row list sums to. -/
def cellAt (rows : List (ρ × List (κ × M))) (r : ρ) (k : κ) : M :=
  total (entries rows) (r, k)

@[simp] theorem cellAt_nil (r : ρ) (k : κ) :
    cellAt ([] : List (ρ × List (κ × M))) r k = 0 := rfl

theorem cellAt_cons (row : ρ × List (κ × M)) (rows : List (ρ × List (κ × M))) (r : ρ) (k : κ) :
    cellAt (row :: rows) r k =
      (if row.1 = r then total row.2 k else 0) + cellAt rows r k := by
  simp [cellAt, total_row]

end Rows

section Canonical

variable {ρ κ M : Type} [LinearOrder ρ] [LinearOrder κ] [AddCommMonoid M]

/-- Rows strictly ascending, columns strictly ascending within each row, no row
without a term and no zero term. -/
structure Canonical (rows : List (ρ × List (κ × M))) : Prop where
  rows_ascending : (rows.map Prod.fst).Pairwise (· < ·)
  columns_ascending : ∀ row ∈ rows, (row.2.map Prod.fst).Pairwise (· < ·)
  rows_nonempty : ∀ row ∈ rows, row.2 ≠ []
  terms_ne_zero : ∀ row ∈ rows, ∀ e ∈ row.2, e.2 ≠ 0

theorem Canonical.entries_nodup {rows : List (ρ × List (κ × M))} (h : Canonical rows) :
    ((entries rows).map Prod.fst).Nodup := by
  obtain ⟨hrows, hcols, -, -⟩ := h
  induction rows with
  | nil => simp
  | cons row rows ih =>
      simp only [List.map_cons, List.pairwise_cons] at hrows
      simp only [entries_cons, List.map_append, List.map_map]
      refine List.Nodup.append ?_ (ih hrows.2 fun r hr => hcols r (List.mem_cons_of_mem row hr)) ?_
      · have columns := hcols row (by simp)
        have hmap : (Prod.fst ∘ fun e : κ × M => ((row.1, e.1), e.2)) =
            (fun k => (row.1, k)) ∘ Prod.fst := rfl
        rw [hmap, ← List.map_map]
        exact (columns.imp fun hlt => ne_of_lt hlt).map _ fun a b hab => by simpa using hab
      · rintro ⟨r, k⟩ hleft hright
        simp only [List.mem_map, Function.comp_apply, Prod.mk.injEq] at hleft
        obtain ⟨_, _, rfl, rfl⟩ := hleft
        obtain ⟨⟨⟨_, _⟩, m⟩, hm, heq⟩ := List.mem_map.mp hright
        simp only [Prod.mk.injEq] at heq
        obtain ⟨rfl, rfl⟩ := heq
        obtain ⟨cells, hcells, -⟩ := mem_entries.mp hm
        exact lt_irrefl _ (hrows.1 row.1 (List.mem_map.mpr ⟨_, hcells, rfl⟩))

theorem Canonical.cellAt_of_mem {rows : List (ρ × List (κ × M))} (h : Canonical rows)
    {r : ρ} {k : κ} {m : M} (hm : ((r, k), m) ∈ entries rows) : cellAt rows r k = m :=
  total_of_mem h.entries_nodup hm

theorem cellAt_eq_zero_of_notMem {rows : List (ρ × List (κ × M))} {r : ρ} {k : κ}
    (h : ∀ m, ((r, k), m) ∉ entries rows) : cellAt rows r k = 0 :=
  total_eq_zero fun e he heq => h e.2 (heq ▸ he)

/-- In a canonical list exactly the terms of the represented function's support stand. -/
theorem Canonical.mem_entries_iff {rows : List (ρ × List (κ × M))} (h : Canonical rows)
    {r : ρ} {k : κ} {m : M} : ((r, k), m) ∈ entries rows ↔ cellAt rows r k = m ∧ m ≠ 0 := by
  constructor
  · intro hm
    refine ⟨h.cellAt_of_mem hm, ?_⟩
    obtain ⟨cells, hcells, hk⟩ := mem_entries.mp hm
    exact h.terms_ne_zero _ hcells _ hk
  · rintro ⟨hcell, hne⟩
    by_contra hnot
    refine hne (hcell ▸ cellAt_eq_zero_of_notMem fun m' hm' => ?_)
    have : m' = m := (h.cellAt_of_mem hm').symm.trans hcell
    exact hnot (this ▸ hm')

omit [AddCommMonoid M] in
/-- A list of keyed values under strictly ascending keys is the set of its members. -/
theorem keyed_ext {β : Type} {l l' : List (κ × β)} (h : (l.map Prod.fst).Pairwise (· < ·))
    (h' : (l'.map Prod.fst).Pairwise (· < ·)) (mem : ∀ e, e ∈ l ↔ e ∈ l') : l = l' := by
  have nodup {l : List (κ × β)} (h : (l.map Prod.fst).Pairwise (· < ·)) : l.Nodup :=
    List.Nodup.of_map Prod.fst (h.imp fun hlt => ne_of_lt hlt)
  have perm : l.Perm l' := (List.perm_ext_iff_of_nodup (nodup h) (nodup h')).mpr mem
  exact perm.eq_of_pairwise (fun a b _ _ hab hba => absurd hba (lt_asymm hab))
    (List.pairwise_map.mp h) (List.pairwise_map.mp h')

omit [LinearOrder κ] [AddCommMonoid M] in
private theorem row_unique {rows : List (ρ × List (κ × M))}
    (ascending : (rows.map Prod.fst).Pairwise (· < ·)) {r : ρ} {cells cells' : List (κ × M)}
    (h : (r, cells) ∈ rows) (h' : (r, cells') ∈ rows) : cells = cells' := by
  have nodup : (rows.map Prod.fst).Nodup := ascending.imp fun hlt => ne_of_lt hlt
  exact (Prod.mk.inj (List.inj_on_of_nodup_map nodup h h' rfl)).2

omit [LinearOrder κ] [AddCommMonoid M] in
/-- A row lists exactly its terms. -/
theorem mem_cells_iff {rows : List (ρ × List (κ × M))}
    (ascending : (rows.map Prod.fst).Pairwise (· < ·)) {r : ρ} {cells : List (κ × M)}
    (h : (r, cells) ∈ rows) {k : κ} {m : M} : (k, m) ∈ cells ↔ ((r, k), m) ∈ entries rows := by
  constructor
  · intro hk
    exact mem_entries.mpr ⟨cells, h, hk⟩
  · intro hm
    obtain ⟨cells', h', hk⟩ := mem_entries.mp hm
    exact row_unique ascending h h' ▸ hk

private theorem Canonical.mem_of_mem {rows rows' : List (ρ × List (κ × M))} (h : Canonical rows)
    (h' : Canonical rows') (same : ∀ e, e ∈ entries rows ↔ e ∈ entries rows')
    {row : ρ × List (κ × M)} (hrow : row ∈ rows) : row ∈ rows' := by
  obtain ⟨r, cells⟩ := row
  obtain ⟨⟨k, m⟩, hk⟩ := List.exists_mem_of_ne_nil _ (h.rows_nonempty _ hrow)
  obtain ⟨cells', hrow', -⟩ := mem_entries.mp ((same _).mp (mem_entries.mpr ⟨cells, hrow, hk⟩))
  have cells_eq : cells = cells' := by
    refine keyed_ext (h.columns_ascending _ hrow) (h'.columns_ascending _ hrow') fun e => ?_
    rw [mem_cells_iff h.rows_ascending hrow, mem_cells_iff h'.rows_ascending hrow', same]
  exact cells_eq ▸ hrow'

/-- A function has one canonical list: the represented cells determine rows, columns and
order. -/
theorem Canonical.ext {rows rows' : List (ρ × List (κ × M))} (h : Canonical rows)
    (h' : Canonical rows') (cells : ∀ r k, cellAt rows r k = cellAt rows' r k) : rows = rows' := by
  have same : ∀ e, e ∈ entries rows ↔ e ∈ entries rows' := by
    rintro ⟨⟨r, k⟩, m⟩
    rw [h.mem_entries_iff, h'.mem_entries_iff, cells]
  refine keyed_ext h.rows_ascending h'.rows_ascending fun row => ⟨?_, ?_⟩
  · exact h.mem_of_mem h' same
  · exact h'.mem_of_mem h fun e => (same e).symm

omit [LinearOrder κ] [AddCommMonoid M] in
/-- The terms of one row, read off the whole list. -/
theorem entries_filter_row {rows : List (ρ × List (κ × M))}
    (ascending : (rows.map Prod.fst).Pairwise (· < ·)) (r : ρ) :
    (((entries rows).filter fun e => e.1.1 = r).map fun e => (e.1.2, e.2)) =
      (rows.lookup r).getD [] := by
  induction rows with
  | nil => rfl
  | cons row rows ih =>
      obtain ⟨r', cells⟩ := row
      simp only [List.map_cons, List.pairwise_cons] at ascending
      rw [entries_cons, List.filter_append, List.map_append, ih ascending.2, List.lookup_cons]
      by_cases here : r = r'
      · subst here
        have later : (rows.lookup r).getD [] = [] := by
          cases found : rows.lookup r with
          | none => rfl
          | some cells' =>
              obtain ⟨l₁, l₂, rfl, -⟩ := List.lookup_eq_some_iff.mp found
              exact absurd (ascending.1 r (by simp)) (lt_irrefl r)
        rw [later]
        simp [List.filter_map, Function.comp_def]
      · have differ : ¬ r' = r := fun eq => here eq.symm
        have skip : (r == r') = false := beq_eq_false_iff_ne.mpr here
        rw [skip]
        simp [List.filter_map, Function.comp_def, differ]

theorem canonical_nil : Canonical ([] : List (ρ × List (κ × M))) :=
  ⟨by simp, by simp, by simp, by simp⟩

end Canonical

section Accumulator

variable {ρ κ M : Type} [LinearOrder ρ] [LinearOrder κ] [AddCommMonoid M] [DecidableEq M]

/-- An ordered map of ordered rows of running sums. -/
abbrev Accumulator (ρ κ M : Type) [LinearOrder ρ] [LinearOrder κ] : Type :=
  ExtTreeMap ρ (ExtTreeMap κ M)

/-- The running sum at one cell; zero where nothing was collected. -/
def Accumulator.cell (t : Accumulator ρ κ M) (r : ρ) (k : κ) : M :=
  ((t[r]?.getD ∅)[k]?).getD 0

/-- Add a term to a row. -/
def bump (row : ExtTreeMap κ M) (k : κ) (m : M) : ExtTreeMap κ M :=
  row.insert k (row[k]?.getD 0 + m)

/-- One row's nonzero sums, in column order; nothing where none is left. -/
def emitRow (row : ρ × ExtTreeMap κ M) : Option (ρ × List (κ × M)) :=
  let cells := row.2.toList.filter fun e => e.2 ≠ 0
  if cells.isEmpty then none else some (row.1, cells)

/-- The accumulator as a row-by-row list, zero sums and empty rows dropped. -/
def Accumulator.toRows (t : Accumulator ρ κ M) : List (ρ × List (κ × M)) :=
  t.toList.filterMap emitRow

omit [DecidableEq M] in
theorem bump_getD (row : ExtTreeMap κ M) (k k' : κ) (m : M) :
    (bump row k m)[k']?.getD 0 = row[k']?.getD 0 + if k = k' then m else 0 := by
  rw [bump, ExtTreeMap.getElem?_insert]
  by_cases h : k = k'
  · subst h
    simp
  · simp [h]

omit [DecidableEq M] in
@[simp] theorem Accumulator.cell_empty (r : ρ) (k : κ) :
    Accumulator.cell (∅ : Accumulator ρ κ M) r k = 0 := by
  simp [Accumulator.cell]

omit [DecidableEq M] in
theorem Accumulator.cell_insert (t : Accumulator ρ κ M) (r r' : ρ) (row : ExtTreeMap κ M) (k : κ) :
    Accumulator.cell (t.insert r row) r' k =
      if r = r' then row[k]?.getD 0 else Accumulator.cell t r' k := by
  rw [Accumulator.cell, ExtTreeMap.getElem?_insert]
  by_cases h : r = r'
  · simp [h]
  · simp [h, Accumulator.cell]

omit [AddCommMonoid M] [DecidableEq M] in
theorem keys_ascending (row : ExtTreeMap κ M) : (row.toList.map Prod.fst).Pairwise (· < ·) := by
  rw [List.pairwise_map]
  exact ExtTreeMap.ordered_keys_toList.imp fun h => compare_lt_iff_lt.mp h

omit [DecidableEq M] in
theorem total_toList (row : ExtTreeMap κ M) (k : κ) : total row.toList k = row[k]?.getD 0 := by
  cases h : row[k]? with
  | none =>
      refine total_eq_zero fun e he hk => ?_
      rw [← hk, ExtTreeMap.mem_toList_iff_getElem?_eq_some.mp he] at h
      cases h
  | some m =>
      refine total_of_mem ?_ (ExtTreeMap.mem_toList_iff_getElem?_eq_some.mpr h)
      exact (keys_ascending row).imp fun hlt => ne_of_lt hlt

omit [LinearOrder ρ] in
theorem emitRow_eq_some {row : ρ × ExtTreeMap κ M} {out : ρ × List (κ × M)}
    (h : emitRow row = some out) :
    out.1 = row.1 ∧ out.2 = row.2.toList.filter (fun e => e.2 ≠ 0) ∧ out.2 ≠ [] := by
  unfold emitRow at h
  dsimp only at h
  split at h
  · cases h
  · rename_i hne
    obtain rfl := Option.some.inj h
    exact ⟨rfl, rfl, fun hempty => hne (List.isEmpty_iff.mpr hempty)⟩

omit [LinearOrder ρ] in
theorem emitRow_eq_none {row : ρ × ExtTreeMap κ M} (h : emitRow row = none) :
    row.2.toList.filter (fun e => e.2 ≠ 0) = [] := by
  unfold emitRow at h
  dsimp only at h
  split at h
  · rename_i hempty
    exact List.isEmpty_iff.mp hempty
  · cases h

omit [LinearOrder ρ] in
private theorem emitted_rows_sublist (l : List (ρ × ExtTreeMap κ M)) :
    ((l.filterMap emitRow).map Prod.fst).Sublist (l.map Prod.fst) := by
  induction l with
  | nil => simp
  | cons row l ih =>
      cases h : emitRow row with
      | none =>
          rw [List.filterMap_cons_none h]
          exact ih.cons _
      | some out =>
          rw [List.filterMap_cons_some h, List.map_cons, List.map_cons, (emitRow_eq_some h).1]
          exact ih.cons_cons _

theorem Accumulator.toRows_canonical (t : Accumulator ρ κ M) : Canonical t.toRows := by
  have mem {out : ρ × List (κ × M)} (h : out ∈ t.toRows) : ∃ m : ExtTreeMap κ M,
      out.2 = m.toList.filter (fun e => e.2 ≠ 0) ∧ out.2 ≠ [] := by
    obtain ⟨row, -, hrow⟩ := List.mem_filterMap.mp h
    exact ⟨row.2, (emitRow_eq_some hrow).2⟩
  refine ⟨(keys_ascending t).sublist (emitted_rows_sublist t.toList), ?_, ?_, ?_⟩
  · intro row h
    obtain ⟨m, hm, -⟩ := mem h
    rw [hm]
    exact (keys_ascending m).sublist (List.filter_sublist.map _)
  · intro row h
    exact (mem h).choose_spec.2
  · intro row h e he
    obtain ⟨m, hm, -⟩ := mem h
    rw [hm] at he
    simpa using (List.mem_filter.mp he).2

private theorem cellAt_emitted (l : List (ρ × ExtTreeMap κ M)) (r : ρ) (k : κ) :
    cellAt (l.filterMap emitRow) r k =
      total (l.map fun row => (row.1, (row.2[k]?.getD 0 : M))) r := by
  induction l with
  | nil => rfl
  | cons row l ih =>
      have value : total (row.2.toList.filter fun e => e.2 ≠ 0) k = row.2[k]?.getD 0 := by
        rw [total_filter_ne_zero, total_toList]
      rw [List.map_cons, total_cons, ← ih, ← value]
      cases h : emitRow row with
      | none =>
          rw [List.filterMap_cons_none h, emitRow_eq_none h]
          simp
      | some out =>
          obtain ⟨hrow, hcells, -⟩ := emitRow_eq_some h
          rw [List.filterMap_cons_some h, cellAt_cons, hrow, hcells]

/-- Emission loses nothing: the emitted list sums to the collected sums. -/
theorem Accumulator.cellAt_toRows (t : Accumulator ρ κ M) (r : ρ) (k : κ) :
    cellAt t.toRows r k = Accumulator.cell t r k := by
  rw [Accumulator.toRows, cellAt_emitted]
  cases h : t[r]? with
  | none =>
      rw [Accumulator.cell, h, total_eq_zero]
      · simp
      · intro e he hr
        obtain ⟨row, hrow, rfl⟩ := List.mem_map.mp he
        have found : t[row.1]? = some row.2 := ExtTreeMap.mem_toList_iff_getElem?_eq_some.mp hrow
        rw [show row.1 = r from hr, h] at found
        cases found
  | some row =>
      rw [Accumulator.cell, h, Option.getD_some]
      refine total_of_mem ?_ (List.mem_map.mpr
        ⟨(r, row), ExtTreeMap.mem_toList_iff_getElem?_eq_some.mpr h, rfl⟩)
      rw [List.map_map]
      exact (keys_ascending t).imp fun hlt => ne_of_lt hlt

/-- The running sums of a list of terms, collected in their order. -/
def collect (l : List ((ρ × κ) × M)) : Accumulator ρ κ M :=
  l.foldl (fun t e => t.insert e.1.1 (bump (t[e.1.1]?.getD ∅) e.1.2 e.2)) ∅

omit [DecidableEq M] in
theorem collect_cell (l : List ((ρ × κ) × M)) (r : ρ) (k : κ) :
    Accumulator.cell (collect l) r k = total l (r, k) := by
  have fold : ∀ (l : List ((ρ × κ) × M)) (t : Accumulator ρ κ M), Accumulator.cell
      (l.foldl (fun t e => t.insert e.1.1 (bump (t[e.1.1]?.getD ∅) e.1.2 e.2)) t) r k =
        Accumulator.cell t r k + total l (r, k) := by
    intro l
    induction l with
    | nil => simp
    | cons e l ih =>
        intro t
        rw [List.foldl_cons, ih, Accumulator.cell_insert, bump_getD, total_cons, ← add_assoc]
        congr 1
        obtain ⟨⟨r', k'⟩, m⟩ := e
        by_cases hr : r' = r
        · subst hr
          simp [Accumulator.cell]
        · simp [hr]
  rw [collect, fold, Accumulator.cell_empty, zero_add]

/-- The canonical cellwise sum of two row-by-row lists. -/
def canonicalSum (a b : List (ρ × List (κ × M))) : List (ρ × List (κ × M)) :=
  (collect (entries a ++ entries b)).toRows

theorem canonicalSum_canonical (a b : List (ρ × List (κ × M))) : Canonical (canonicalSum a b) :=
  Accumulator.toRows_canonical _

theorem cellAt_canonicalSum (a b : List (ρ × List (κ × M))) (r : ρ) (k : κ) :
    cellAt (canonicalSum a b) r k = cellAt a r k + cellAt b r k := by
  rw [canonicalSum, Accumulator.cellAt_toRows, collect_cell, total_append]
  rfl

end Accumulator

end RisePir.Lib.Sparse
