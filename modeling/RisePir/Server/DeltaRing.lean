import RisePir.Server.CellDelta

set_option autoImplicit false
set_option relaxedAutoImplicit false

/-! The server's sliding window over the latest block deltas, and the blocks a request for
a range selects from it. -/

namespace RisePir.Server.DeltaRing

open RisePir.Proto.Types
open RisePir.Upstream.Cuckoo
open RisePir.Server.CellDelta

/-- `DeltaRing`: the retained deltas, oldest first. -/
structure Ring where
  capacity : Nat
  buf : List BlockDelta
  capacity_pos : 0 < capacity
  buf_length : buf.length ≤ capacity

namespace Ring

def new (capacity : Nat) (capacity_pos : 0 < capacity) : Ring := ⟨capacity, [], capacity_pos, by simp⟩

/-- The buffer after `pop_front` at capacity and `push_back`. -/
def pushed (r : Ring) (d : BlockDelta) : List BlockDelta :=
  (if r.buf.length = r.capacity then r.buf.tail else r.buf) ++ [d]

def push (r : Ring) (d : BlockDelta) : Ring where
  capacity := r.capacity
  buf := r.pushed d
  capacity_pos := r.capacity_pos
  buf_length := by
    have bound := r.buf_length
    have pos := r.capacity_pos
    rw [pushed]
    split
    · rw [List.length_append, List.length_tail, List.length_singleton]
      omega
    · rw [List.length_append, List.length_singleton]
      omega

/-- The retained blocks in `(from, to]`. -/
def selected (r : Ring) (fromBlock toBlock : Nat) : List BlockDelta :=
  r.buf.filter fun d => decide (fromBlock < d.block ∧ d.block ≤ toBlock)

/-- `DeltaRing::range`: the coalesced delta of `(from, to]`, if every block of it is retained. -/
def range (r : Ring) (fromBlock toBlock : Nat) : Option BlockDelta :=
  if toBlock ≤ fromBlock then none
  else if (r.selected fromBlock toBlock).length ≠ toBlock - fromBlock then none
  else (coalesce (r.selected fromBlock toBlock)).toOption

/-- Oldest block currently retained. -/
def oldest (r : Ring) : Option Nat := r.buf.head?.map BlockDelta.block

theorem push_suffix {r : Ring} {ds : List BlockDelta} (h : r.buf <:+ ds) (d : BlockDelta) :
    (r.push d).buf <:+ ds ++ [d] := by
  obtain ⟨older, rfl⟩ := h
  change (if r.buf.length = r.capacity then r.buf.tail else r.buf) ++ [d] <:+ _
  split
  · obtain ⟨dropped, hdropped⟩ := List.tail_suffix r.buf
    refine ⟨older ++ dropped, ?_⟩
    rw [List.append_assoc, ← List.append_assoc dropped, hdropped, List.append_assoc]
  · exact ⟨older, by rw [List.append_assoc]⟩

end Ring

/-- Blocks strictly ascending. -/
abbrev Ascending (ds : List BlockDelta) : Prop := ds.Pairwise fun d d' => d.block < d'.block

/-- Ascending blocks from `start` on leave room for no more of them than there are numbers. -/
theorem Ascending.length_le {ds : List BlockDelta} (h : Ascending ds) {start stop : Nat}
    (above : ∀ d ∈ ds, start ≤ d.block) (below : ∀ d ∈ ds, d.block < stop) :
    ds.length ≤ stop - start := by
  induction ds generalizing start with
  | nil => simp
  | cons d ds ih =>
      obtain ⟨hd, htail⟩ := List.pairwise_cons.mp h
      have rest : ds.length ≤ stop - (d.block + 1) := ih htail (fun e he => hd e he)
        fun e he => below e (List.mem_cons_of_mem _ he)
      have first := above d (by simp)
      have last := below d (by simp)
      rw [List.length_cons]
      omega

/-- Ascending blocks that fill `[start, stop)` are consecutive. -/
theorem Ascending.consecutive {segments : Nat} {ds : List BlockDelta} (h : Ascending ds)
    {start stop : Nat} (above : ∀ d ∈ ds, start ≤ d.block) (below : ∀ d ∈ ds, d.block < stop)
    (full : ds.length = stop - start) (count : ∀ d ∈ ds, d.perSegment.length = segments) :
    Consecutive segments start ds := by
  induction ds generalizing start with
  | nil => exact .nil _
  | cons d ds ih =>
      obtain ⟨hd, htail⟩ := List.pairwise_cons.mp h
      have tailAbove : ∀ e ∈ ds, d.block + 1 ≤ e.block := fun e he => hd e he
      have tailBelow : ∀ e ∈ ds, e.block < stop := fun e he => below e (List.mem_cons_of_mem _ he)
      have rest : ds.length ≤ stop - (d.block + 1) := Ascending.length_le htail tailAbove tailBelow
      have first := above d (by simp)
      have last := below d (by simp)
      rw [List.length_cons] at full
      have start_eq : start = d.block := by omega
      rw [start_eq]
      exact .cons (count d (by simp)) (ih htail tailAbove tailBelow (by omega)
        fun e he => count e (List.mem_cons_of_mem _ he))

theorem Consecutive.blocks {segments start : Nat} {ds : List BlockDelta}
    (h : Consecutive segments start ds) : ds.map BlockDelta.block = List.range' start ds.length := by
  induction h with
  | nil start => rfl
  | cons count tail ih => rw [List.map_cons, ih, List.length_cons, List.range'_succ]

/-- The deltas published up to a block. -/
def upTo (ds : List BlockDelta) (block : Nat) : List BlockDelta := ds.filter (·.block ≤ block)

/-- The published deltas with blocks in `(from, to]`. -/
def between (ds : List BlockDelta) (fromBlock toBlock : Nat) : List BlockDelta :=
  ds.filter fun d => decide (fromBlock < d.block ∧ d.block ≤ toBlock)

/-- Whatever the blocks' order, the sum up to the later block is the sum up to the earlier
one and what lies between. -/
theorem sumAt_upTo (ds : List BlockDelta) {fromBlock toBlock : Nat} (h : fromBlock ≤ toBlock)
    (j row offset : Nat) :
    sumAt (upTo ds toBlock) j row offset = sumAt (upTo ds fromBlock) j row offset +
      sumAt (between ds fromBlock toBlock) j row offset := by
  induction ds with
  | nil => rfl
  | cons d ds ih =>
      unfold upTo between at ih ⊢
      by_cases hfrom : d.block ≤ fromBlock
      · rw [List.filter_cons_of_pos (by simp; omega), List.filter_cons_of_pos (by simpa using hfrom),
          List.filter_cons_of_neg (by simp; omega), sumAt_cons, sumAt_cons, ih, add_assoc]
      · by_cases hto : d.block ≤ toBlock
        · rw [List.filter_cons_of_pos (by simpa using hto), List.filter_cons_of_neg (by simpa using hfrom),
            List.filter_cons_of_pos (by simp; omega), sumAt_cons, sumAt_cons, ih]
          omega
        · rw [List.filter_cons_of_neg (by simpa using hto), List.filter_cons_of_neg (by simpa using hfrom),
            List.filter_cons_of_neg (by simp; omega), ih]

theorem upTo_of_le {ds : List BlockDelta} {block : Nat} (h : ∀ d ∈ ds, d.block ≤ block) :
    upTo ds block = ds :=
  List.filter_eq_self.mpr fun d hd => by simpa using h d hd

/-- Later blocks do not count. -/
theorem upTo_append_later {ds ds' : List BlockDelta} {block : Nat}
    (later : ∀ d ∈ ds', block < d.block) : upTo (ds ++ ds') block = upTo ds block := by
  have none : upTo ds' block = [] :=
    List.filter_eq_nil_iff.mpr fun d hd => by simpa using later d hd
  rw [upTo, List.filter_append, ← upTo, ← upTo, none, List.append_nil]

theorem upTo_append {ds ds' : List BlockDelta} {block : Nat} (h : ∀ d ∈ ds, d.block ≤ block)
    (h' : ∀ d ∈ ds', block < d.block) : upTo (ds ++ ds') block = ds := by
  rw [upTo_append_later h', upTo_of_le h]

/-- A split of consecutive blocks is a split by block number. -/
theorem consecutive_split {segments start : Nat} {ds ds' : List BlockDelta}
    (h : Consecutive segments start (ds ++ ds')) :
    (∀ d ∈ ds, d.block < start + ds.length) ∧ ∀ d ∈ ds', start + ds.length ≤ d.block := by
  induction ds generalizing start with
  | nil =>
      refine ⟨by simp, fun d hd => ?_⟩
      rw [List.length_nil, Nat.add_zero]
      rw [List.nil_append] at h
      induction h with
      | nil start => cases hd
      | cons count tail ih =>
          rcases List.mem_cons.mp hd with rfl | hd
          · exact Nat.le_refl _
          · have := ih hd
            omega
  | cons d ds ih =>
      rw [List.cons_append] at h
      cases h with
      | cons count tail =>
          obtain ⟨before, after⟩ := ih tail
          rw [List.length_cons]
          refine ⟨fun e he => ?_, fun e he => ?_⟩
          · rcases List.mem_cons.mp he with rfl | he
            · omega
            · have := before e he
              omega
          · have := after e he
            omega

/-- The last `n` deltas. -/
def latest (n : Nat) (ds : List BlockDelta) : List BlockDelta := ds.drop (ds.length - n)

theorem latest_append {n : Nat} {ds ds' : List BlockDelta} (h : ds'.length ≤ n) :
    latest n (ds ++ ds') = latest (n - ds'.length) ds ++ ds' := by
  have shorter : ds.length + ds'.length - n ≤ ds.length := by omega
  rw [latest, latest, List.length_append, List.drop_append_of_le_length shorter]
  congr 2
  omega

namespace Ring

/-- A ring holds the latest deltas pushed into it. -/
theorem push_latest {r : Ring} {ds : List BlockDelta} (h : r.buf = latest r.capacity ds)
    (d : BlockDelta) : (r.push d).buf = latest r.capacity (ds ++ [d]) := by
  have length : r.buf.length = ds.length - (ds.length - r.capacity) := by
    rw [h, latest, List.length_drop]
  have pos := r.capacity_pos
  rw [latest_append (by rw [List.length_singleton]; omega), List.length_singleton]
  change (if r.buf.length = r.capacity then r.buf.tail else r.buf) ++ [d] = _
  congr 1
  split
  · rename_i full
    rw [h, latest, latest, List.tail_drop]
    congr 1
    omega
  · rename_i room
    rw [h, latest, latest]
    congr 1
    omega

variable {p : CuckooParams} {r : Ring} {ds : List BlockDelta} {fromBlock toBlock : Nat}

/-- As many retained blocks as the range has numbers are all its published blocks. -/
theorem selected_eq (suffix : r.buf <:+ ds) (ascending : Ascending ds)
    (full : (r.selected fromBlock toBlock).length = toBlock - fromBlock) :
    r.selected fromBlock toBlock = between ds fromBlock toBlock := by
  refine (suffix.sublist.filter _).eq_of_length_le ?_
  have bound : (between ds fromBlock toBlock).length ≤ toBlock + 1 - (fromBlock + 1) := by
    refine Ascending.length_le (ascending.filter _) (fun d hd => ?_) fun d hd => ?_
    · have := (List.mem_filter.mp hd).2
      simp only [decide_eq_true_eq] at this
      omega
    · have := (List.mem_filter.mp hd).2
      simp only [decide_eq_true_eq] at this
      omega
  rw [selected] at full
  rw [full]
  rw [between] at bound
  omega

/-- A range that the ring serves is the coalesced sum of every published block of it. -/
theorem range_spec (suffix : r.buf <:+ ds) (ascending : Ascending ds) (fits : ∀ d ∈ ds, Fits p d)
    (bounded : ∀ b b', b ≤ b' → ∀ j row offset, InI64 (sumAt (between ds b b') j row offset))
    {d : BlockDelta} (h : r.range fromBlock toBlock = some d) :
    fromBlock < toBlock ∧ (between ds fromBlock toBlock).length = toBlock - fromBlock ∧
      d.block = toBlock ∧ d.perSegment.length = p.arity ∧ d.IsCanonical ∧
      ∀ j row offset, d.at j row offset = sumAt (between ds fromBlock toBlock) j row offset := by
  unfold range at h
  split at h
  · cases h
  rename_i hlt
  split at h
  · cases h
  rename_i hfull
  rw [not_not] at hfull
  rw [selected_eq suffix ascending hfull] at h hfull
  have inside : ∀ e ∈ between ds fromBlock toBlock,
      fromBlock + 1 ≤ e.block ∧ e.block < toBlock + 1 ∧ Fits p e := by
    intro e he
    obtain ⟨hmem, hrange⟩ := List.mem_filter.mp he
    simp only [decide_eq_true_eq] at hrange
    exact ⟨hrange.1, Nat.lt_succ_of_le hrange.2, fits e hmem⟩
  have run : Consecutive p.arity (fromBlock + 1) (between ds fromBlock toBlock) :=
    Ascending.consecutive (ascending.filter _) (fun e he => (inside e he).1)
      (fun e he => (inside e he).2.1) (hfull.trans (by omega)) fun e he => (inside e he).2.2.segments
  have sums : ∀ pre, pre <+: between ds fromBlock toBlock → ∀ j row offset,
      InI64 (sumAt pre j row offset) := by
    rintro pre ⟨post, hsplit⟩ j row offset
    rw [← hsplit] at run
    obtain ⟨before, after⟩ := consecutive_split run
    have stop : pre = between ds fromBlock (fromBlock + pre.length) := by
      have whole : between ds fromBlock (fromBlock + pre.length) =
          upTo (between ds fromBlock toBlock) (fromBlock + pre.length) := by
        rw [between, upTo, between, List.filter_filter]
        refine List.filter_congr fun e _ => ?_
        have length : pre.length ≤ toBlock - fromBlock := by
          rw [← hfull, ← hsplit, List.length_append]
          exact Nat.le_add_right _ _
        simp only [← Bool.decide_and, decide_eq_decide]
        omega
      rw [whole, ← hsplit, upTo_append (fun e he => ?_) fun e he => ?_]
      · have := before e he
        omega
      · have := after e he
        omega
    rw [stop]
    exact bounded _ _ (Nat.le_add_right _ _) j row offset
  have nonempty : between ds fromBlock toBlock ≠ [] := by
    intro hnil
    rw [hnil, List.length_nil] at hfull
    omega
  obtain ⟨out, hout, hblock, hsegments, hcanonical, hat⟩ :=
    coalesce_ok nonempty run (fun e he => (inside e he).2.2.canonical) sums
  rw [hout] at h
  cases h
  exact ⟨by omega, hfull, by omega, hsegments, hcanonical, hat⟩

end Ring

end RisePir.Server.DeltaRing
