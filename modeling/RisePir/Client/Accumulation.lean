import RisePir.Client.Delta

set_option autoImplicit false
set_option relaxedAutoImplicit false

/-! The client's accumulator against the server's coalescing: whatever chunks a run of
deltas arrives in, the same rows, offsets and sums stand in the same order; and what a
refused delta leaves behind. -/

namespace RisePir.Client.Accumulation

open Std
open RisePir.Lib.Sparse
open RisePir.Proto.Types
open RisePir.Client.Delta

section Rows

/-- Appending a later entry keeps a row-by-row list canonical. -/
private theorem pushCell_canonical {out : SegmentRowDeltas} (canonical : Canonical out)
    {e : (Nat × Nat) × Int} (later : ∀ e' ∈ entries out, toLex e'.1 < toLex e.1)
    (nonzero : e.2 ≠ 0) : Canonical (PendingDelta.pushCell out e) := by
  have earlier : ∀ row ∈ out, ∀ cell ∈ row.2,
      row.1 < e.1.1 ∨ row.1 = e.1.1 ∧ cell.1 < e.1.2 := by
    intro row hrow cell hcell
    have below := later _ (mem_entries.mpr ⟨row.2, hrow, hcell⟩)
    exact Prod.Lex.toLex_lt_toLex.mp below
  have rowsBelow : ∀ row ∈ out, row.1 ≤ e.1.1 := by
    intro row hrow
    obtain ⟨cell, hcell⟩ := List.exists_mem_of_ne_nil _ (canonical.rows_nonempty row hrow)
    rcases earlier row hrow cell hcell with below | ⟨same, -⟩
    · exact below.le
    · exact same.le
  have fresh : (∀ row ∈ out, row.1 < e.1.1) →
      Canonical (out ++ [(e.1.1, [(e.1.2, e.2)])]) := by
    intro below
    refine ⟨?_, ?_, ?_, ?_⟩
    · rw [List.map_append, List.pairwise_append]
      refine ⟨canonical.rows_ascending, by simp, ?_⟩
      intro r hr r' hr'
      obtain ⟨row, hrow, rfl⟩ := List.mem_map.mp hr
      obtain rfl : r' = e.1.1 := by simpa using hr'
      exact below row hrow
    · intro row hrow
      rcases List.mem_append.mp hrow with hrow | hrow
      · exact canonical.columns_ascending row hrow
      · obtain rfl := List.mem_singleton.mp hrow
        simp
    · intro row hrow
      rcases List.mem_append.mp hrow with hrow | hrow
      · exact canonical.rows_nonempty row hrow
      · obtain rfl := List.mem_singleton.mp hrow
        simp
    · intro row hrow cell hcell
      rcases List.mem_append.mp hrow with hrow | hrow
      · exact canonical.terms_ne_zero row hrow cell hcell
      · obtain rfl := List.mem_singleton.mp hrow
        obtain rfl := List.mem_singleton.mp hcell
        exact nonzero
  unfold PendingDelta.pushCell
  cases hlast : out.getLast? with
  | none =>
      obtain rfl : out = [] := List.getLast?_eq_none_iff.mp hlast
      exact fresh (by simp)
  | some last =>
      obtain ⟨lastRow, cells⟩ := last
      obtain ⟨init, rfl⟩ : ∃ init, out = init ++ [(lastRow, cells)] :=
        ⟨_, (List.dropLast_append_getLast? _ hlast).symm⟩
      have ascending := canonical.rows_ascending
      rw [List.map_append, List.pairwise_append] at ascending
      have initBelow : ∀ row ∈ init, row.1 < lastRow := fun row hrow =>
        ascending.2.2 row.1 (List.mem_map.mpr ⟨row, hrow, rfl⟩) lastRow (by simp)
      have lastMem : (lastRow, cells) ∈ init ++ [(lastRow, cells)] := by simp
      by_cases same : lastRow = e.1.1
      · -- the entry joins the last row, past its last offset
        subst same
        simp only [if_true, List.dropLast_concat]
        have columns := canonical.columns_ascending _ lastMem
        have past : ∀ cell ∈ cells, cell.1 < e.1.2 := by
          intro cell hcell
          rcases earlier _ lastMem cell hcell with below | ⟨-, below⟩
          · exact absurd below (lt_irrefl _)
          · exact below
        refine ⟨?_, ?_, ?_, ?_⟩
        · simpa only [List.map_append, List.map_cons, List.map_nil] using canonical.rows_ascending
        · intro row hrow
          rcases List.mem_append.mp hrow with hrow | hrow
          · exact canonical.columns_ascending row (List.mem_append_left _ hrow)
          · obtain rfl := List.mem_singleton.mp hrow
            rw [List.map_append, List.pairwise_append]
            refine ⟨columns, by simp, ?_⟩
            intro k hk k' hk'
            obtain ⟨cell, hcell, rfl⟩ := List.mem_map.mp hk
            obtain rfl : k' = e.1.2 := by simpa using hk'
            exact past cell hcell
        · intro row hrow
          rcases List.mem_append.mp hrow with hrow | hrow
          · exact canonical.rows_nonempty row (List.mem_append_left _ hrow)
          · obtain rfl := List.mem_singleton.mp hrow
            simp
        · intro row hrow cell hcell
          rcases List.mem_append.mp hrow with hrow | hrow
          · exact canonical.terms_ne_zero row (List.mem_append_left _ hrow) cell hcell
          · obtain rfl := List.mem_singleton.mp hrow
            rcases List.mem_append.mp hcell with hcell | hcell
            · exact canonical.terms_ne_zero _ lastMem cell hcell
            · obtain rfl := List.mem_singleton.mp hcell
              exact nonzero
      · simp only [if_neg same]
        have lastBelow : lastRow < e.1.1 := (rowsBelow _ lastMem).lt_of_ne same
        refine fresh fun row hrow => ?_
        rcases List.mem_append.mp hrow with hrow | hrow
        · exact (initBelow row hrow).trans lastBelow
        · obtain rfl := List.mem_singleton.mp hrow
          exact lastBelow

/-- Grouping ascending nonzero entries row by row is canonical. -/
private theorem pushCells_canonical {es : List ((Nat × Nat) × Int)} {out : SegmentRowDeltas}
    (canonical : Canonical out)
    (ascending : (entries out ++ es).Pairwise fun a b => toLex a.1 < toLex b.1)
    (nonzero : ∀ e ∈ es, e.2 ≠ 0) : Canonical (es.foldl PendingDelta.pushCell out) := by
  induction es generalizing out with
  | nil => exact canonical
  | cons e es ih =>
      have later : ∀ e' ∈ entries out, toLex e'.1 < toLex e.1 := fun e' he' =>
        (List.pairwise_append.mp ascending).2.2 e' he' e List.mem_cons_self
      rw [List.foldl_cons]
      refine ih (pushCell_canonical canonical later (nonzero e List.mem_cons_self)) ?_
        fun e' he' => nonzero e' (List.mem_cons_of_mem e he')
      rwa [entries_pushCell, List.append_assoc, List.singleton_append]

private theorem terms_ascending (m : SegmentDelta) :
    m.terms.Pairwise fun a b => toLex a.1 < toLex b.1 := by
  rw [SegmentDelta.terms, List.pairwise_map]
  exact List.pairwise_map.mp (keys_ascending m)

theorem segment_noZeros {pending : PendingDelta} (h : pending.NoZeros) (seg : Nat) :
    (pending.segment seg).NoZeros := by
  rw [PendingDelta.segment, List.getD_eq_getElem?_getD]
  cases hseg : pending.perSegment[seg]? with
  | none => exact noZeros_empty
  | some m => exact h m (List.mem_of_getElem? hseg)

/-- `as_row_deltas` is canonical: the map holds no zero and walks its cells in order. -/
theorem asRowDeltas_canonical {pending : PendingDelta} (h : pending.NoZeros) (seg : Nat) :
    Canonical (pending.asRowDeltas seg) := by
  refine pushCells_canonical canonical_nil (by simpa using terms_ascending _) fun e he => ?_
  exact ne_zero_of_mem_terms (segment_noZeros h seg) he

/-- `row` reads one row of `as_row_deltas`. -/
theorem row_eq_lookup {pending : PendingDelta} (h : pending.NoZeros) (seg row : Nat) :
    pending.row seg row = ((pending.asRowDeltas seg).lookup row).getD [] := by
  rw [← entries_filter_row (asRowDeltas_canonical h seg).rows_ascending, entries_asRowDeltas]
  rfl

end Rows

section Chunks

/-- Deltas ingested one after the other, up to the first refusal. -/
def ingestAll : PendingDelta → List BlockDelta → PendingDelta × Except ClientError Unit
  | pending, [] => (pending, .ok ())
  | pending, d :: ds =>
      match pending.ingest d with
      | (pending', .error err) => (pending', .error err)
      | (pending', .ok ()) => ingestAll pending' ds

theorem sumsFit_prefix {a b : List BlockDelta} (fit : SumsFit (a ++ b)) (j r k : Nat) :
    InI64 (sumAt a j r k) := by
  have whole := fit j (termsOf a j) (by simp) (r, k)
  rwa [total_termsOf, zero_add] at whole

/-- Block `head`, then the chunks of a run: what was ingested before, `done`, and the
chunks still to come. -/
private theorem ingest_chunks {segments start : Nat} {chunks : List (List BlockDelta)}
    (full : ∀ chunk ∈ chunks, chunk ≠ [])
    (run : Consecutive segments start chunks.flatten)
    (fits : ∀ chunk ∈ chunks, SumsFit chunk) {done : List BlockDelta}
    (fit : SumsFit (done ++ chunks.flatten)) {pending : PendingDelta} (clean : pending.NoZeros)
    (arity : pending.perSegment.length = segments) (below : pending.head < start)
    (sums : ∀ j r k, pending.at j r k = sumAt done j r k) :
    ∃ parts pending', chunks.map coalesce = parts.map .ok ∧
      ingestAll pending parts = (pending', .ok ()) ∧ pending'.NoZeros ∧
      pending'.perSegment.length = segments ∧
      (∀ j r k, pending'.at j r k = sumAt (done ++ chunks.flatten) j r k) ∧
      (chunks = [] ∧ pending' = pending ∨ pending'.head + 1 = start + chunks.flatten.length) := by
  induction chunks generalizing start done pending with
  | nil =>
      refine ⟨[], pending, rfl, rfl, clean, arity, ?_, .inl ⟨rfl, rfl⟩⟩
      simpa using sums
  | cons chunk chunks ih =>
      rw [List.flatten_cons] at run fit
      have hne : chunk ≠ [] := full chunk List.mem_cons_self
      obtain ⟨part, hpart, block, length, canonical, partSums⟩ :=
        coalesce_sums hne run.append_left (fits chunk List.mem_cons_self)
      have last := run.append_left.getLast_block hne
      have chunkLength := List.length_pos_iff.mpr hne
      rw [← List.append_assoc] at fit
      have before : ∀ j r k, InI64 (pending.at j r k) := fun j r k => by
        rw [sums]
        exact sumsFit_prefix (List.append_assoc done chunk _ ▸ fit) j r k
      have after : ∀ j r k, InI64 (pending.at j r k + part.at j r k) := fun j r k => by
        rw [sums, partSums, ← sumAt_append]
        exact sumsFit_prefix fit j r k
      obtain ⟨pending₁, step, head₁, length₁, clean₁, sums₁⟩ := PendingDelta.ingest_ok clean
        (by omega) (length.trans arity.symm) canonical before after
      obtain ⟨parts, pending', hparts, hrun, clean', arity', sums', head'⟩ :=
        ih (fun c hc => full c (List.mem_cons_of_mem chunk hc)) run.append_right
          (fun c hc => fits c (List.mem_cons_of_mem chunk hc)) fit clean₁ (length₁.trans arity)
          (by omega) fun j r k => by rw [sums₁, sums, partSums, sumAt_append]
      refine ⟨part :: parts, pending', ?_, ?_, clean', arity', ?_, ?_⟩
      · rw [List.map_cons, hpart, hparts, List.map_cons]
      · rw [ingestAll, step]
        exact hrun
      · intro j r k
        rw [sums', List.flatten_cons, List.append_assoc]
      · right
        rw [List.flatten_cons, List.length_append]
        rcases head' with ⟨rfl, rfl⟩ | head'
        · simp only [List.flatten_nil, List.length_nil]
          omega
        · omega

/-- Whatever chunks a contiguous run arrives in, a fresh accumulator ends up holding the
whole run's coalesced delta: same rows, offsets, values and order. -/
theorem chunks_agree {segments start head : Nat} {ds : List BlockDelta} (hne : ds ≠ [])
    (run : Consecutive segments start ds) (fit : SumsFit ds) (fresh : head < start)
    {chunks : List (List BlockDelta)} (partition : chunks.flatten = ds)
    (full : ∀ chunk ∈ chunks, chunk ≠ []) (fits : ∀ chunk ∈ chunks, SumsFit chunk) :
    ∃ whole parts pending, coalesce ds = .ok whole ∧ chunks.map coalesce = parts.map .ok ∧
      ingestAll (.new segments head) parts = (pending, .ok ()) ∧
      pending.head = (ds.getLast hne).block ∧
      (∀ seg, pending.asRowDeltas seg = whole.perSegment.getD seg []) ∧
      ∀ seg row, pending.row seg row = ((whole.perSegment.getD seg []).lookup row).getD [] := by
  subst partition
  obtain ⟨whole, hwhole, block, length, canonical, sums⟩ := coalesce_sums hne run fit
  obtain ⟨parts, pending, hparts, hrun, clean, -, sums', head'⟩ :=
    ingest_chunks full run fits (show SumsFit ([] ++ chunks.flatten) from fit)
      (PendingDelta.new_noZeros segments head) List.length_replicate fresh
      fun j r k => PendingDelta.at_new _ _ _ _ _
  have rows : ∀ seg, pending.asRowDeltas seg = whole.perSegment.getD seg [] := fun seg => by
    refine (asRowDeltas_canonical clean seg).ext (canonical.segment seg) fun r k => ?_
    rw [cellAt_asRowDeltas, sums', List.nil_append, ← sums]
    rfl
  refine ⟨whole, parts, pending, hwhole, hparts, hrun, ?_, rows, fun seg row => ?_⟩
  · have last := run.getLast_block hne
    rcases head' with ⟨rfl, -⟩ | head'
    · exact absurd rfl hne
    · omega
  · rw [row_eq_lookup clean, rows]

/-- A cell that returns to its value, an empty block, and the cell moving again. -/
private def returning : List (List BlockDelta) :=
  [[⟨5, [[(2, [(5, 3)]), (0, [(1, 4)])]]⟩, ⟨6, [[(2, [(5, -3)])]]⟩], [⟨7, [[]]⟩],
    [⟨8, [[(2, [(5, 1)])]]⟩]]

theorem chunks_agree_returning : ∃ whole parts pending, coalesce returning.flatten = .ok whole ∧
    returning.map coalesce = parts.map .ok ∧ ingestAll (.new 1 4) parts = (pending, .ok ()) ∧
    pending.head = 8 ∧ pending.asRowDeltas 0 = whole.perSegment.getD 0 [] := by
  have small : ∀ chunk ∈ [returning.flatten] ++ returning, SumsFit chunk := by
    intro chunk hchunk
    refine sumsFit_of_small fun j => ?_
    cases j with
    | zero =>
        revert chunk
        decide
    | succ j =>
        simp only [returning, List.flatten_cons, List.flatten_nil, List.mem_cons,
          List.cons_append, List.nil_append, List.not_mem_nil, or_false] at hchunk
        rcases hchunk with rfl | rfl | rfl | rfl <;> simp [termsOf]
  have run : Consecutive 1 5 returning.flatten :=
    consecutive_iff.mpr (by decide)
  obtain ⟨whole, parts, pending, hwhole, hparts, hrun, head, rows, -⟩ :=
    chunks_agree (by decide) run (small _ List.mem_cons_self) (show 4 < 5 by decide) rfl
      (by decide)
      fun chunk hchunk => small chunk (List.mem_append_right _ hchunk)
  exact ⟨whole, parts, pending, hwhole, hparts, hrun, head, rows 0⟩

end Chunks

section Refused

variable {ι : Type} [DecidableEq ι]

/-- The terms that stand before the first one whose running sum leaves `i64`; `none` where
all sums stay inside. -/
def beforeOverflow (base : ι → Int) : List (ι × Int) → Option (List (ι × Int))
  | [] => none
  | e :: es =>
      if InI64 (base e.1 + e.2) then
        (beforeOverflow (fun i => base i + total [e] i) es).map (e :: ·)
      else some []

theorem beforeOverflow_append (base : ι → Int) (l l' : List (ι × Int)) :
    beforeOverflow base (l ++ l') = (beforeOverflow base l).or
      ((beforeOverflow (fun i => base i + total l i) l').map (l ++ ·)) := by
  induction l generalizing base with
  | nil => simp [beforeOverflow]
  | cons e l ih =>
      have shift : (fun i => base i + total [e] i + total l i) =
          fun i => base i + total (e :: l) i := by
        funext i
        rw [total_cons e [], total_cons e l, total_nil, add_zero, add_assoc]
      rw [List.cons_append, beforeOverflow, beforeOverflow]
      by_cases inside : InI64 (base e.1 + e.2)
      · rw [if_pos inside, if_pos inside, ih, shift]
        cases beforeOverflow (fun i => base i + total [e] i) l with
        | none => simp [Option.map_map, Function.comp_def]
        | some p => simp
      · rw [if_neg inside, if_neg inside]
        rfl

/-- Relabelled terms overflow where the terms do. -/
theorem beforeOverflow_map {κ : Type} [DecidableEq κ] {f : ι → κ} (hf : Function.Injective f)
    {base : ι → Int} {base' : κ → Int} (same : ∀ i, base' (f i) = base i) (l : List (ι × Int)) :
    beforeOverflow base' (l.map fun e => (f e.1, e.2)) =
      (beforeOverflow base l).map fun p => p.map fun e => (f e.1, e.2) := by
  induction l generalizing base base' with
  | nil => rfl
  | cons e l ih =>
      have same' : ∀ i, base' (f i) + total [(f e.1, e.2)] (f i) = base i + total [e] i := by
        intro i
        have label := total_map_of_injective hf [e] i
        rw [List.map_singleton] at label
        rw [same, label]
      rw [List.map_cons, beforeOverflow, beforeOverflow, same]
      by_cases inside : InI64 (base e.1 + e.2)
      · rw [if_pos inside, if_pos inside, ih same']
        simp [Option.map_map, Function.comp_def]
      · rw [if_neg inside, if_neg inside]
        rfl

end Refused

section Merge

/-- Every entry is one of the `i64` values the delta is made of. -/
def Words (es : List ((Nat × Nat) × Int)) : Prop := ∀ e ∈ es, InI64 e.2

private theorem ingestCell_overflow {m : SegmentDelta} {e : (Nat × Nat) × Int}
    (word : InI64 e.2) (outside : ¬ InI64 (m.at e.1.1 e.1.2 + e.2)) :
    ingestCell m e = .error .deltaOverflow := by
  rw [ingestCell]
  cases hget : m[toLex e.1]? with
  | none =>
      have zero : m.at e.1.1 e.1.2 = 0 := by
        rw [SegmentDelta.at, Prod.mk.eta, hget]
        rfl
      rw [zero, zero_add] at outside
      exact absurd word outside
  | some value =>
      have held : m.at e.1.1 e.1.2 = value := by
        rw [SegmentDelta.at, Prod.mk.eta, hget]
        rfl
      rw [held] at outside
      exact if_neg outside

/-- One segment: it is folded in whole, or up to the first sum outside `i64`. -/
private theorem ingestCells_stop {m : SegmentDelta} (clean : m.NoZeros)
    {es : List ((Nat × Nat) × Int)} (words : Words es) :
    ∃ m', m'.NoZeros ∧ match beforeOverflow (fun i => m.at i.1 i.2) es with
      | none => ingestCells m es = (m', .ok ()) ∧ ∀ i, m'.at i.1 i.2 = m.at i.1 i.2 + total es i
      | some p => ingestCells m es = (m', .error .deltaOverflow) ∧
          ∀ i, m'.at i.1 i.2 = m.at i.1 i.2 + total p i := by
  induction es generalizing m with
  | nil => exact ⟨m, clean, rfl, by simp⟩
  | cons e es ih =>
      rw [beforeOverflow]
      by_cases inside : InI64 (m.at e.1.1 e.1.2 + e.2)
      · obtain ⟨m₁, step, clean₁, sums₁⟩ := ingestCell_ok clean inside
        have base : (fun i : Nat × Nat => m.at i.1 i.2 + total [e] i) =
            fun i => m₁.at i.1 i.2 := by
          funext i
          rw [sums₁, total_cons, total_nil, add_zero]
        obtain ⟨m', clean', rest⟩ := ih clean₁ fun e' he' => words e' (List.mem_cons_of_mem e he')
        rw [if_pos inside, base]
        refine ⟨m', clean', ?_⟩
        rw [ingestCells, step]
        have merge : ∀ l i, m₁.at i.1 i.2 + total l i = m.at i.1 i.2 + total (e :: l) i := by
          intro l i
          rw [sums₁, total_cons, add_assoc]
        cases stop : beforeOverflow (fun i => m₁.at i.1 i.2) es with
        | none =>
            rw [stop] at rest
            exact ⟨rest.1, fun i => (rest.2 i).trans (merge es i)⟩
        | some p =>
            rw [stop] at rest
            exact ⟨rest.1, fun i => (rest.2 i).trans (merge p i)⟩
      · rw [if_neg inside]
        refine ⟨m, clean, ?_, by simp⟩
        rw [ingestCells, ingestCell_overflow (words e List.mem_cons_self) inside]

/-- The entries of all segments in the order `ingest` merges them, each under its segment. -/
def mergeOrder : List SegmentRowDeltas → List ((Nat × Nat × Nat) × Int)
  | [] => []
  | seg :: segs =>
      ((entries seg).map fun e => ((0, e.1), e.2)) ++
        (mergeOrder segs).map fun e => ((e.1.1 + 1, e.1.2), e.2)

private theorem first_injective : Function.Injective fun i : Nat × Nat => ((0, i) : Nat × Nat × Nat) :=
  fun _ _ h => (Prod.mk.inj h).2

private theorem later_injective :
    Function.Injective fun i : Nat × Nat × Nat => ((i.1 + 1, i.2) : Nat × Nat × Nat) := by
  rintro ⟨j, i⟩ ⟨j', i'⟩ h
  obtain ⟨hj, rfl⟩ := Prod.mk.inj h
  exact Prod.ext (Nat.succ_injective hj) rfl

private theorem total_first (l : List ((Nat × Nat) × Int)) (i : Nat × Nat) :
    total (l.map fun e => (((0, e.1) : Nat × Nat × Nat), e.2)) (0, i) = total l i :=
  total_map_of_injective first_injective l i

private theorem total_first_later (l : List ((Nat × Nat) × Int)) (j : Nat) (i : Nat × Nat) :
    total (l.map fun e => (((0, e.1) : Nat × Nat × Nat), e.2)) (j + 1, i) = 0 := by
  refine total_eq_zero fun e he here => ?_
  obtain ⟨e', -, rfl⟩ := List.mem_map.mp he
  cases here

private theorem total_later (l : List ((Nat × Nat × Nat) × Int)) (j : Nat) (i : Nat × Nat) :
    total (l.map fun e => (((e.1.1 + 1, e.1.2) : Nat × Nat × Nat), e.2)) (j + 1, i) =
      total l (j, i) :=
  total_map_of_injective later_injective l (j, i)

private theorem total_later_first (l : List ((Nat × Nat × Nat) × Int)) (i : Nat × Nat) :
    total (l.map fun e => (((e.1.1 + 1, e.1.2) : Nat × Nat × Nat), e.2)) (0, i) = 0 := by
  refine total_eq_zero fun e he here => ?_
  obtain ⟨e', -, rfl⟩ := List.mem_map.mp he
  cases here

/-- All segments: the merge stops at the first sum outside `i64`, with every entry before
it folded in. -/
theorem ingestSegments_stop {ms : List SegmentDelta} (clean : ∀ m ∈ ms, m.NoZeros)
    {segs : List SegmentRowDeltas} (length : segs.length = ms.length)
    (words : ∀ seg ∈ segs, Words (entries seg)) :
    ∃ ms', ms'.length = ms.length ∧ (∀ m ∈ ms', m.NoZeros) ∧
      match beforeOverflow (fun i => (ms.getD i.1 ∅ : SegmentDelta).at i.2.1 i.2.2)
          (mergeOrder segs) with
      | none => ingestSegments ms segs = (ms', .ok ()) ∧
          ∀ j i, (ms'.getD j ∅ : SegmentDelta).at i.1 i.2 =
            (ms.getD j ∅ : SegmentDelta).at i.1 i.2 + total (mergeOrder segs) (j, i)
      | some p => ingestSegments ms segs = (ms', .error .deltaOverflow) ∧
          ∀ j i, (ms'.getD j ∅ : SegmentDelta).at i.1 i.2 =
            (ms.getD j ∅ : SegmentDelta).at i.1 i.2 + total p (j, i) := by
  induction ms generalizing segs with
  | nil =>
      obtain rfl : segs = [] := List.length_eq_zero_iff.mp length
      exact ⟨[], rfl, nofun, rfl, fun j i => by simp [mergeOrder]⟩
  | cons m ms ih =>
      cases segs with
      | nil => simp at length
      | cons seg segs =>
          obtain ⟨m', clean', first⟩ := ingestCells_stop (clean m List.mem_cons_self)
            (words seg List.mem_cons_self)
          obtain ⟨ms', length', cleanRest, later⟩ := ih
            (fun m hm => clean m (List.mem_cons_of_mem _ hm))
            (Nat.succ_injective length) fun s hs => words s (List.mem_cons_of_mem seg hs)
          have cleanAll : ∀ l : List SegmentDelta, (∀ x ∈ l, x.NoZeros) → ∀ x ∈ m' :: l, x.NoZeros := by
            intro l hl x hx
            rcases List.mem_cons.mp hx with rfl | hx
            · exact clean'
            · exact hl x hx
          have head : beforeOverflow
              (fun i => ((m :: ms).getD i.1 ∅ : SegmentDelta).at i.2.1 i.2.2)
              ((entries seg).map fun e => (((0, e.1) : Nat × Nat × Nat), e.2)) =
              (beforeOverflow (fun i => m.at i.1 i.2) (entries seg)).map _ :=
            beforeOverflow_map first_injective (fun i => rfl) (entries seg)
          have tail : beforeOverflow
              (fun i => ((m :: ms).getD i.1 ∅ : SegmentDelta).at i.2.1 i.2.2 +
                total ((entries seg).map fun e => (((0, e.1) : Nat × Nat × Nat), e.2)) i)
              ((mergeOrder segs).map fun e => (((e.1.1 + 1, e.1.2) : Nat × Nat × Nat), e.2)) =
              (beforeOverflow (fun i => (ms.getD i.1 ∅ : SegmentDelta).at i.2.1 i.2.2)
                (mergeOrder segs)).map _ :=
            beforeOverflow_map later_injective
              (fun i => by rw [total_first_later, add_zero]; rfl) (mergeOrder segs)
          -- a part of the first segment, then a part of the later ones
          have sums : ∀ l l', (∀ i, m'.at i.1 i.2 = m.at i.1 i.2 + total l i) →
              (∀ j i, (ms'.getD j ∅ : SegmentDelta).at i.1 i.2 =
                (ms.getD j ∅ : SegmentDelta).at i.1 i.2 + total l' (j, i)) →
              ∀ j i, ((m' :: ms').getD j ∅ : SegmentDelta).at i.1 i.2 =
                ((m :: ms).getD j ∅ : SegmentDelta).at i.1 i.2 +
                  total (l.map (fun e => (((0, e.1) : Nat × Nat × Nat), e.2)) ++
                    l'.map fun e => (((e.1.1 + 1, e.1.2) : Nat × Nat × Nat), e.2)) (j, i) := by
            intro l l' here there j i
            rw [total_append]
            cases j with
            | zero =>
                rw [total_first, total_later_first, add_zero]
                exact here i
            | succ j =>
                rw [total_first_later, total_later, zero_add]
                exact there j i
          rw [mergeOrder, beforeOverflow_append, head, tail]
          cases stop : beforeOverflow (fun i => m.at i.1 i.2) (entries seg) with
          | some p =>
              rw [stop] at first
              refine ⟨m' :: ms, rfl, cleanAll ms fun x hx => clean x (List.mem_cons_of_mem m hx), ?_, ?_⟩
              · rw [ingestSegments, first.1]
              · intro j i
                cases j with
                | zero =>
                    rw [total_first]
                    exact first.2 i
                | succ j =>
                    rw [total_first_later, add_zero]
                    rfl
          | none =>
              rw [stop] at first
              refine ⟨m' :: ms', by simp [length'], cleanAll ms' cleanRest, ?_⟩
              cases stopLater : beforeOverflow
                  (fun i => (ms.getD i.1 ∅ : SegmentDelta).at i.2.1 i.2.2) (mergeOrder segs) with
              | none =>
                  rw [stopLater] at later
                  refine ⟨?_, sums _ _ first.2 later.2⟩
                  rw [ingestSegments, first.1, later.1]
              | some p =>
                  rw [stopLater] at later
                  refine ⟨?_, sums _ _ first.2 later.2⟩
                  rw [ingestSegments, first.1, later.1]

/-- What a call of `ingest` that gets as far as merging leaves. -/
theorem ingest_merges {pending : PendingDelta} (clean : pending.NoZeros) {d : BlockDelta}
    (ascends : pending.head < d.block) (count : d.perSegment.length = pending.perSegment.length)
    (words : ∀ seg ∈ d.perSegment, Words (entries seg)) :
    ∃ pending', pending'.perSegment.length = pending.perSegment.length ∧ pending'.NoZeros ∧
      match beforeOverflow (fun i => pending.at i.1 i.2.1 i.2.2) (mergeOrder d.perSegment) with
      | none => pending.ingest d = (pending', .ok ()) ∧ pending'.head = d.block ∧
          ∀ j i, pending'.at j i.1 i.2 = pending.at j i.1 i.2 + total (mergeOrder d.perSegment) (j, i)
      | some p => pending.ingest d = (pending', .error .deltaOverflow) ∧ pending'.head = pending.head ∧
          ∀ j i, pending'.at j i.1 i.2 = pending.at j i.1 i.2 + total p (j, i) := by
  obtain ⟨ms', length, clean', merge⟩ := ingestSegments_stop clean count words
  rw [show (fun i : Nat × Nat × Nat => pending.at i.1 i.2.1 i.2.2) =
    fun i => (pending.perSegment.getD i.1 ∅ : SegmentDelta).at i.2.1 i.2.2 from rfl]
  rw [PendingDelta.ingest, if_neg (by omega), if_neg (by simp [count])]
  cases stop : beforeOverflow (fun i => (pending.perSegment.getD i.1 ∅ : SegmentDelta).at i.2.1 i.2.2)
      (mergeOrder d.perSegment) with
  | none =>
      rw [stop] at merge
      refine ⟨⟨ms', d.block⟩, length, clean', ?_, rfl, merge.2⟩
      rw [merge.1]
  | some p =>
      rw [stop] at merge
      refine ⟨⟨ms', pending.head⟩, length, clean', ?_, rfl, merge.2⟩
      rw [merge.1]

end Merge

section Atomic

/-- What `new` and calls of `ingest`, refused ones among them, build. -/
inductive Accumulated : PendingDelta → Prop
  | new (arity head : Nat) : Accumulated (.new arity head)
  | ingest {pending : PendingDelta} (h : Accumulated pending) (d : BlockDelta) :
      Accumulated (pending.ingest d).1

private theorem ingestCell_clean {m m' : SegmentDelta} {e : (Nat × Nat) × Int}
    (clean : m.NoZeros) (h : ingestCell m e = .ok m') : m'.NoZeros := by
  rw [ingestCell] at h
  cases hget : m[toLex e.1]? with
  | none =>
      rw [hget] at h
      obtain rfl := Except.ok.inj h
      by_cases zero : e.2 = 0
      · rw [if_neg (by simp [zero])]
        exact clean
      · rw [if_pos zero]
        exact noZeros_insert clean _ zero
  | some value =>
      rw [hget] at h
      dsimp only at h
      by_cases inside : InI64 (value + e.2)
      · rw [if_pos inside] at h
        obtain rfl := Except.ok.inj h
        by_cases zero : value + e.2 = 0
        · rw [if_pos zero]
          exact noZeros_erase clean _
        · rw [if_neg zero]
          exact noZeros_insert clean _ zero
      · rw [if_neg inside] at h
        cases h

private theorem ingestCells_clean {m : SegmentDelta} (clean : m.NoZeros)
    (es : List ((Nat × Nat) × Int)) : (ingestCells m es).1.NoZeros := by
  induction es generalizing m with
  | nil => exact clean
  | cons e es ih =>
      rw [ingestCells]
      cases step : ingestCell m e with
      | error err => exact clean
      | ok m' => exact ih (ingestCell_clean clean step)

private theorem ingestSegments_clean {ms : List SegmentDelta} (clean : ∀ m ∈ ms, m.NoZeros)
    (segs : List SegmentRowDeltas) : ∀ m ∈ (ingestSegments ms segs).1, m.NoZeros := by
  induction ms generalizing segs with
  | nil =>
      cases segs <;> exact clean
  | cons m ms ih =>
      cases segs with
      | nil => exact clean
      | cons seg segs =>
          have head := ingestCells_clean (clean m List.mem_cons_self) (entries seg)
          have rest : ∀ x ∈ ms, x.NoZeros := fun x hx => clean x (List.mem_cons_of_mem m hx)
          rw [ingestSegments]
          rcases hcells : ingestCells m (entries seg) with ⟨m', err | ⟨⟩⟩ <;> rw [hcells] at head
          · intro x hx
            rcases List.mem_cons.mp hx with rfl | hx
            · exact head
            · exact rest x hx
          · intro x hx
            rcases List.mem_cons.mp hx with rfl | hx
            · exact head
            · exact ih rest segs x hx

/-- No call leaves a zero behind. -/
theorem Accumulated.noZeros {pending : PendingDelta} (h : Accumulated pending) :
    pending.NoZeros := by
  induction h with
  | new arity head => exact PendingDelta.new_noZeros arity head
  | @ingest pending h d ih =>
      rw [PendingDelta.ingest]
      split
      · exact ih
      · split
        · exact ih
        · have clean := ingestSegments_clean ih d.perSegment
          rcases hs : ingestSegments pending.perSegment d.perSegment with ⟨ms, err | ⟨⟩⟩ <;>
            rw [hs] at clean
          · exact clean
          · exact clean

theorem segmentDelta_ext {m m' : SegmentDelta} (clean : m.NoZeros) (clean' : m'.NoZeros)
    (same : ∀ i : Nat × Nat, m.at i.1 i.2 = m'.at i.1 i.2) : m = m' := by
  refine ExtTreeMap.ext_getElem? fun k => ?_
  have value : (m[k]?).getD 0 = (m'[k]?).getD 0 := same (ofLex k)
  cases hm : m[k]? with
  | none =>
      cases hm' : m'[k]? with
      | none => rfl
      | some v' =>
          rw [hm, hm'] at value
          obtain rfl : 0 = v' := value
          exact absurd hm' (clean' k)
  | some v =>
      cases hm' : m'[k]? with
      | none =>
          rw [hm, hm'] at value
          obtain rfl : v = 0 := value
          exact absurd hm (clean k)
      | some v' =>
          rw [hm, hm'] at value
          obtain rfl : v = v' := value
          rfl

private theorem segments_ext {ms ms' : List SegmentDelta} (clean : ∀ m ∈ ms, m.NoZeros)
    (clean' : ∀ m ∈ ms', m.NoZeros) (length : ms'.length = ms.length)
    (same : ∀ j (i : Nat × Nat), (ms'.getD j ∅ : SegmentDelta).at i.1 i.2 =
      (ms.getD j ∅ : SegmentDelta).at i.1 i.2) : ms' = ms := by
  refine List.ext_getElem length fun j hj hj' => ?_
  refine segmentDelta_ext (clean' _ (List.getElem_mem hj)) (clean _ (List.getElem_mem hj'))
    fun i => ?_
  have value := same j i
  rwa [List.getD_eq_getElem _ _ hj, List.getD_eq_getElem _ _ hj'] at value

/-- A refused delta leaves the accumulator as it was exactly when it is refused before the
merge, or the entries merged ahead of the first sum outside `i64` cancel at every cell. -/
theorem ingest_atomic_iff {pending : PendingDelta} (built : Accumulated pending) {d : BlockDelta}
    (words : ∀ seg ∈ d.perSegment, Words (entries seg)) :
    (∀ err, (pending.ingest d).2 = .error err → (pending.ingest d).1 = pending) ↔
      (pending.head < d.block → d.perSegment.length = pending.perSegment.length →
        ∀ p, beforeOverflow (fun i => pending.at i.1 i.2.1 i.2.2) (mergeOrder d.perSegment) =
          some p → ∀ i, total p i = 0) := by
  have clean := built.noZeros
  by_cases ascends : d.block ≤ pending.head
  · rw [PendingDelta.ingest, if_pos ascends]
    exact ⟨fun _ above => absurd above (by omega), fun _ _ _ => rfl⟩
  by_cases count : d.perSegment.length ≠ pending.perSegment.length
  · rw [PendingDelta.ingest, if_neg ascends, if_pos count]
    exact ⟨fun _ _ equal => absurd equal count, fun _ _ _ => rfl⟩
  have length := not_not.mp count
  obtain ⟨pending', length', clean', merge⟩ := ingest_merges clean (by omega) length words
  cases stop : beforeOverflow (fun i : Nat × Nat × Nat => pending.at i.1 i.2.1 i.2.2)
      (mergeOrder d.perSegment) with
  | none =>
      rw [stop] at merge
      refine ⟨fun _ _ _ p hp => (by cases hp), fun _ err herr => ?_⟩
      rw [merge.1] at herr
      cases herr
  | some p =>
      rw [stop] at merge
      obtain ⟨stopped, same_head, sums⟩ := merge
      rw [stopped]
      constructor
      · intro kept _ _ p' hp'
        obtain rfl := Option.some.inj hp'
        rintro ⟨j, i⟩
        have value := sums j i
        rw [show pending' = pending from kept _ rfl] at value
        omega
      · intro cancels err _
        have zero := cancels (by omega) length p rfl
        have whole : pending'.perSegment = pending.perSegment :=
          segments_ext clean clean' length' fun j i => by
            have value := sums j i
            rw [zero, add_zero] at value
            exact value
        cases pending
        cases pending'
        obtain rfl : _ = _ := whole
        obtain rfl : _ = _ := same_head
        rfl

/-- One cell at the largest `i64`. -/
private def brimming : PendingDelta := ((PendingDelta.new 1 0).ingest ⟨1, [[(0, [(0, 2 ^ 63 - 1)])]]⟩).1

/-- Five more on its neighbour, then one more on the full cell. -/
private def spilling : BlockDelta := ⟨2, [[(0, [(1, 5), (0, 1)])]]⟩

theorem ingest_atomic_iff_spilling :
    ¬ ∀ err, (brimming.ingest spilling).2 = .error err → (brimming.ingest spilling).1 = brimming := by
  have built : Accumulated brimming := .ingest (.new 1 0) _
  have words : ∀ seg ∈ spilling.perSegment, Words (entries seg) := by
    intro seg hseg
    obtain rfl := List.mem_singleton.mp hseg
    unfold Words
    decide
  intro kept
  have cancels := (ingest_atomic_iff built words).mp kept (by decide) (by decide)
    [((0, 0, 1), 5)] (by decide) (0, 0, 1)
  revert cancels
  decide

/-- The refused delta stays folded in, and the right delta for the same block then counts
twice. -/
theorem refused_delta_counts_twice :
    (brimming.ingest spilling).2 = .error .deltaOverflow ∧
      brimming.row 0 0 = [(0, 2 ^ 63 - 1)] ∧
      (brimming.ingest spilling).1.row 0 0 = [(0, 2 ^ 63 - 1), (1, 5)] ∧
      ((brimming.ingest spilling).1.ingest ⟨2, [[(0, [(1, 5)])]]⟩).1.row 0 0 =
        [(0, 2 ^ 63 - 1), (1, 10)] ∧
      (brimming.ingest ⟨2, [[(0, [(1, 5)])]]⟩).1.row 0 0 = [(0, 2 ^ 63 - 1), (1, 5)] := by
  decide

end Atomic

end RisePir.Client.Accumulation
