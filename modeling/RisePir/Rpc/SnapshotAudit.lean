import RisePir.Feed.Mock
import RisePir.Lib.AlgorithmR
import RisePir.Lib.Pool
import RisePir.Rpc.Bootstrap
import RisePir.Rpc.HardRefresh
import RisePir.Rpc.Sidecar

set_option autoImplicit false
set_option relaxedAutoImplicit false

/-! The audit of a snapshot. A reservoir samples the rows while they are ingested, and a pool of
checks then reads every sampled account at all providers, at the block the snapshot is for. -/

namespace RisePir.Rpc.SnapshotAudit

open RisePir.Lib
open RisePir.Lib.Transitions
open RisePir.Lib.Pool
open RisePir.Proto.Types
open RisePir.Proto.Value
open RisePir.Upstream.Cuckoo
open RisePir.Upstream.ReferenceTable
open RisePir.Server.Core
open RisePir.Server.Small
open RisePir.Feed.Mock (SplitMix64 nextU64)
open RisePir.Feed.Snapshot
open RisePir.Rpc.Bootstrap
open RisePir.Rpc.HardRefresh
open RisePir.Rpc.Sidecar

/-- An address, and the balance ingested for it. -/
abbrev Row := List UInt8 × Balance

/-- The sampler over any generator `G` of words; the source's is `SplitMix64`. -/
structure ReservoirSampler (G : Type) where
  capacity : Nat
  seen : Nat
  reservoir : List Row
  rng : G

namespace ReservoirSampler

variable {G : Type}

def new (capacity : Nat) (rng : G) : ReservoirSampler G := ⟨capacity, 0, [], rng⟩

/-- `observe`. While there is room nothing is drawn. -/
def observe (next : G → BitVec 64 × G) (s : ReservoirSampler G) (addr20 : List UInt8)
    (balance : Balance) : ReservoirSampler G :=
  let s := { s with seen := s.seen + 1 }
  if s.capacity = 0 then s
  else if s.reservoir.length < s.capacity then
    { s with reservoir := s.reservoir ++ [(addr20, balance)] }
  else
    let (word, rng) := next s.rng
    let j := word.toNat % s.seen
    if j < s.capacity then { s with reservoir := s.reservoir.set j (addr20, balance), rng }
    else { s with rng }

def intoSample (s : ReservoirSampler G) : List Row := s.reservoir

/-- The sampler after a stream of rows. -/
def observeAll (next : G → BitVec 64 × G) (s : ReservoirSampler G) (rows : List Row) :
    ReservoirSampler G :=
  rows.foldl (fun s row => s.observe next row.1 row.2) s

/-- What a new sampler holds after a stream of rows. -/
def sampleOf (next : G → BitVec 64 × G) (capacity : Nat) (rng : G) (rows : List Row) : List Row :=
  (observeAll next (new capacity rng) rows).intoSample

/-- The generator once it has given so many words. -/
def after (next : G → BitVec 64 × G) (rng : G) : Nat → G
  | 0 => rng
  | k + 1 => (next (after next rng k)).2

/-- The first words of the generator, the latest first. -/
def generated (next : G → BitVec 64 × G) (rng : G) : Nat → List Nat
  | 0 => []
  | k + 1 => (next (after next rng k)).1.toNat :: generated next rng k

/-- The draws made for the rows behind the first `capacity`, the latest first: each the next word
of the generator modulo the number of rows seen. -/
def drawn (next : G → BitVec 64 × G) (capacity : Nat) (rng : G) (rows : List Row) : List Nat :=
  AlgorithmR.reduce capacity (generated next rng (rows.length - capacity))

/-- The sampler once it has seen `rows`. -/
structure Sampled (next : G → BitVec 64 × G) (capacity : Nat) (rng : G) (rows : List Row)
    (s : ReservoirSampler G) : Prop where
  sameCapacity : s.capacity = capacity
  counted : s.seen = rows.length
  reservoir : s.reservoir = AlgorithmR.sample capacity rows (drawn next capacity rng rows).reverse
  generator : capacity ≠ 0 → s.rng = after next rng (rows.length - capacity)

variable {next : G → BitVec 64 × G} {capacity : Nat} {rng : G} {rows : List Row}
  {s : ReservoirSampler G}

@[simp]
theorem generated_length (k : Nat) : (generated next rng k).length = k := by
  induction k with
  | zero => rfl
  | succ k ih => rw [generated, List.length_cons, ih]

theorem drawn_mem_draws (next : G → BitVec 64 × G) (capacity : Nat) (rng : G) (rows : List Row) :
    drawn next capacity rng rows ∈ AlgorithmR.draws capacity (rows.length - capacity) := by
  have mem := AlgorithmR.reduce_mem_draws capacity (generated next rng (rows.length - capacity))
  rwa [generated_length] at mem

theorem drawn_length (next : G → BitVec 64 × G) (capacity : Nat) (rng : G) (rows : List Row) :
    (drawn next capacity rng rows).length = rows.length - capacity :=
  AlgorithmR.length_of_mem_draws (drawn_mem_draws next capacity rng rows)

/-- A row behind the first `capacity` is drawn for with the generator's next word. -/
theorem drawn_append (full : capacity ≤ rows.length) (row : Row) :
    drawn next capacity rng (rows ++ [row]) =
      (next (after next rng (rows.length - capacity))).1.toNat % (rows.length + 1) ::
        drawn next capacity rng rows := by
  have longer : (rows ++ [row]).length - capacity = rows.length - capacity + 1 := by
    rw [List.length_append, List.length_singleton]
    omega
  have place : capacity + (rows.length - capacity) + 1 = rows.length + 1 := by omega
  rw [drawn, longer, generated, AlgorithmR.reduce, generated_length, place, drawn]

theorem sampled_new (next : G → BitVec 64 × G) (capacity : Nat) (rng : G) :
    Sampled next capacity rng [] (new capacity rng) := by
  refine ⟨rfl, rfl, ?_, fun _ => ?_⟩
  · rw [AlgorithmR.sample_filling (Nat.zero_le _)]
    rfl
  · rw [List.length_nil, Nat.zero_sub]
    rfl

theorem Sampled.filling (h : Sampled next capacity rng rows s) (room : rows.length < capacity)
    (addr20 : List UInt8) (balance : Balance) :
    Sampled next capacity rng (rows ++ [(addr20, balance)]) (s.observe next addr20 balance) := by
  have longer : (rows ++ [(addr20, balance)]).length = rows.length + 1 := by
    rw [List.length_append, List.length_singleton]
  have slots : s.reservoir = rows := by
    rw [h.reservoir, AlgorithmR.sample_filling (Nat.le_of_lt room)]
  have step : s.observe next addr20 balance =
      { s with seen := s.seen + 1, reservoir := rows ++ [(addr20, balance)] } := by
    rw [ReservoirSampler.observe, if_neg (by rw [h.sameCapacity]; omega),
      if_pos (by rw [slots, h.sameCapacity]; exact room), slots]
  rw [step]
  refine ⟨h.sameCapacity, by rw [longer, h.counted], ?_, fun kept => ?_⟩
  · rw [AlgorithmR.sample_filling (by rw [longer]; exact room)]
  · have none_drawn : rows.length + 1 - capacity = rows.length - capacity := by omega
    rw [longer, none_drawn]
    exact h.generator kept

theorem Sampled.replacing (h : Sampled next capacity rng rows s) (full : capacity ≤ rows.length)
    (addr20 : List UInt8) (balance : Balance) :
    Sampled next capacity rng (rows ++ [(addr20, balance)]) (s.observe next addr20 balance) := by
  have drawnLength := drawn_length next capacity rng rows
  have split : rows.length = capacity + (drawn next capacity rng rows).length := by omega
  have slots : s.reservoir.length = capacity := by
    rw [h.reservoir, AlgorithmR.sample_length split]
  have longer : (rows ++ [(addr20, balance)]).length = rows.length + 1 := by
    rw [List.length_append, List.length_singleton]
  have later : rows.length + 1 - capacity = rows.length - capacity + 1 := by omega
  have sampled : AlgorithmR.sample capacity (rows ++ [(addr20, balance)])
        (drawn next capacity rng (rows ++ [(addr20, balance)])).reverse =
      s.reservoir.set ((next (after next rng (rows.length - capacity))).1.toNat % (rows.length + 1))
        (addr20, balance) := by
    rw [drawn_append full, List.reverse_cons,
      AlgorithmR.sample_append (by rw [List.length_reverse]; exact split), ← h.reservoir]
  rw [ReservoirSampler.observe]
  dsimp only
  by_cases none_kept : s.capacity = 0
  · rw [if_pos none_kept]
    refine ⟨h.sameCapacity, by rw [longer, h.counted], ?_, fun kept => ?_⟩
    · rw [sampled, List.set_eq_of_length_le (by rw [slots, ← h.sameCapacity, none_kept]; omega)]
    · exact absurd (h.sameCapacity.symm.trans none_kept) kept
  · have generator := h.generator (by rw [← h.sameCapacity]; exact none_kept)
    rw [if_neg none_kept, if_neg (by rw [slots, h.sameCapacity]; exact lt_irrefl _), generator,
      h.counted]
    split_ifs with inside
    · refine ⟨h.sameCapacity, longer.symm, sampled.symm, fun _ => ?_⟩
      rw [longer, later]
      rfl
    · refine ⟨h.sameCapacity, longer.symm, ?_, fun _ => ?_⟩
      · rw [h.sameCapacity] at inside
        rw [sampled, List.set_eq_of_length_le (by rw [slots]; omega)]
      · rw [longer, later]
        rfl

theorem Sampled.observe (h : Sampled next capacity rng rows s) (addr20 : List UInt8)
    (balance : Balance) :
    Sampled next capacity rng (rows ++ [(addr20, balance)]) (s.observe next addr20 balance) := by
  rcases Nat.lt_or_ge rows.length capacity with room | full
  · exact h.filling room addr20 balance
  · exact h.replacing full addr20 balance

/-- Over any generator the sampler is Algorithm R with the draws that the generator's words give. -/
theorem sampled_observeAll (next : G → BitVec 64 × G) (capacity : Nat) (rng : G) (rows : List Row) :
    Sampled next capacity rng rows (observeAll next (new capacity rng) rows) := by
  have onwards : ∀ (seen later : List Row) (s : ReservoirSampler G),
      Sampled next capacity rng seen s →
        Sampled next capacity rng (seen ++ later) (observeAll next s later) := by
    intro seen later
    induction later generalizing seen with
    | nil =>
        intro s h
        rwa [List.append_nil]
    | cons row later ih =>
        intro s h
        have rest := ih (seen ++ [row]) _ (h.observe row.1 row.2)
        rwa [List.append_assoc] at rest
  exact onwards [] rows _ (sampled_new next capacity rng)

theorem Sampled.full_split (few : ¬ rows.length ≤ capacity) :
    rows.length = capacity + (drawn next capacity rng rows).length := by
  rw [drawn_length]
  omega

theorem Sampled.size (h : Sampled next capacity rng rows s) :
    s.intoSample.length = min capacity rows.length := by
  rw [intoSample, h.reservoir]
  by_cases few : rows.length ≤ capacity
  · rw [AlgorithmR.sample_filling few]
    omega
  · rw [AlgorithmR.sample_length (Sampled.full_split few)]
    omega

/-- No row is taken twice. -/
theorem Sampled.subperm (h : Sampled next capacity rng rows s) : s.intoSample.Subperm rows := by
  rw [intoSample, h.reservoir]
  by_cases few : rows.length ≤ capacity
  · rw [AlgorithmR.sample_filling few]
  · exact AlgorithmR.sample_subperm (Sampled.full_split few)

theorem sampleOf_eq (next : G → BitVec 64 × G) (capacity : Nat) (rng : G) (rows : List Row) :
    sampleOf next capacity rng rows =
      AlgorithmR.sample capacity rows (drawn next capacity rng rows).reverse :=
  (sampled_observeAll next capacity rng rows).reservoir

section Tape

/-- A generator that reads its words off a tape. -/
def readTape : List (BitVec 64) → BitVec 64 × List (BitVec 64)
  | [] => (0, [])
  | word :: tape => (word, tape)

/-- The tape of given words, which stand the latest first. -/
def tapeOf (ws : List Nat) : List (BitVec 64) := ws.reverse.map (BitVec.ofNat 64)

theorem after_readTape (tape : List (BitVec 64)) (k : Nat) : after readTape tape k = tape.drop k := by
  induction k with
  | zero => rfl
  | succ k ih =>
      rw [after, ih, ← List.tail_drop]
      cases tape.drop k <;> rfl

theorem generated_readTape {tape : List (BitVec 64)} {k : Nat} (enough : k ≤ tape.length) :
    generated readTape tape k = (tape.take k).reverse.map BitVec.toNat := by
  induction k with
  | zero => rfl
  | succ k ih =>
      have here : k < tape.length := enough
      have word : (readTape (tape.drop k)).1 = tape[k] := by
        rw [List.drop_eq_getElem_cons here]
        rfl
      rw [generated, ih (Nat.le_of_lt here), after_readTape, word,
        List.take_succ_eq_append_getElem here, List.reverse_append]
      rfl

/-- On a tape of words the sampler is Algorithm R with the words reduced. -/
theorem sampleOf_tape {capacity : Nat} {rows : List Row} {ws : List Nat}
    (fit : ws ∈ AlgorithmR.words (2 ^ 64) (rows.length - capacity)) :
    sampleOf readTape capacity (tapeOf ws) rows =
      AlgorithmR.sample capacity rows (AlgorithmR.reduce capacity ws).reverse := by
  have length := AlgorithmR.length_of_mem_sequences fit
  have all : generated readTape (tapeOf ws) (rows.length - capacity) = ws := by
    have tapeLength : (tapeOf ws).length = rows.length - capacity := by
      rw [tapeOf, List.length_map, List.length_reverse, length]
    rw [generated_readTape (le_of_eq tapeLength.symm), ← tapeLength, List.take_length, tapeOf,
      ← List.map_reverse, List.reverse_reverse, List.map_map]
    refine (List.map_congr_left fun w mem => ?_).trans (List.map_id ws)
    have below := AlgorithmR.lt_of_mem_words fit w mem
    exact Nat.mod_eq_of_lt below
  rw [sampleOf_eq, drawn, all]

/-- On a tape of draws in range it is Algorithm R with these draws. -/
theorem sampleOf_draws {capacity : Nat} {rows : List Row} {ds : List Nat}
    (countable : rows.length ≤ 2 ^ 64)
    (mem : ds ∈ AlgorithmR.draws capacity (rows.length - capacity)) :
    sampleOf readTape capacity (tapeOf ds) rows = AlgorithmR.sample capacity rows ds.reverse := by
  have fit : ds ∈ AlgorithmR.words (2 ^ 64) (rows.length - capacity) :=
    AlgorithmR.sequences_mono (fun k inside => by omega) mem
  rw [sampleOf_tape fit, AlgorithmR.reduce_of_mem_draws mem]

variable {capacity m : Nat} {rows : List Row} {S : Finset Row}

/-- Over tapes of draws in range, any rows of the sample's number are the sample equally often. -/
theorem tapes_uniform (split : rows.length = capacity + m) (countable : capacity + m ≤ 2 ^ 64)
    (once : rows.Nodup) (among : S ⊆ rows.toFinset) (full : S.card = capacity) :
    ((AlgorithmR.draws capacity m).filter fun ds =>
        (sampleOf readTape capacity (tapeOf ds) rows).toFinset = S).card *
      (capacity + m).choose capacity = (AlgorithmR.draws capacity m).card := by
  have drawnFor : rows.length - capacity = m := by omega
  rw [← AlgorithmR.sample_uniform once split among full, split]
  refine congrArg (· * _) (congrArg Finset.card (Finset.filter_congr fun ds mem => ?_))
  rw [sampleOf_draws (split ▸ countable) (drawnFor.symm ▸ mem)]

/-- Over all tapes of 64-bit words, they are the sample as often as remainders are even. -/
theorem word_tapes (split : rows.length = capacity + m) (once : rows.Nodup)
    (among : S ⊆ rows.toFinset) (full : S.card = capacity) :
    m.factorial * AlgorithmR.leastShare (2 ^ 64) capacity m ≤
        ((AlgorithmR.words (2 ^ 64) m).filter fun ws =>
          (sampleOf readTape capacity (tapeOf ws) rows).toFinset = S).card ∧
      ((AlgorithmR.words (2 ^ 64) m).filter fun ws =>
          (sampleOf readTape capacity (tapeOf ws) rows).toFinset = S).card ≤
        m.factorial * AlgorithmR.greatestShare (2 ^ 64) capacity m := by
  have drawnFor : rows.length - capacity = m := by omega
  have same : ((AlgorithmR.words (2 ^ 64) m).filter fun ws =>
        (sampleOf readTape capacity (tapeOf ws) rows).toFinset = S) =
      (AlgorithmR.words (2 ^ 64) m).filter fun ws =>
        (AlgorithmR.sample capacity rows (AlgorithmR.reduce capacity ws).reverse).toFinset = S :=
    Finset.filter_congr fun ws mem => by rw [sampleOf_tape (drawnFor.symm ▸ mem)]
  rw [same, ← AlgorithmR.sample_ways once split among full]
  exact AlgorithmR.card_words_bounds (2 ^ 64) capacity m fun ds =>
    (AlgorithmR.sample capacity rows ds.reverse).toFinset = S

end Tape

end ReservoirSampler

section Ingest

open ReservoirSampler

variable {p : CuckooParams} {C : SegmentedCuckoo p} {codec : ValueCodec}
  {debug : List Char → String} {keccak256 : List UInt8 → AddressHash}

/-- The closure that `spawn` hands to `ingest`: a row that is in the store is offered to the
sampler. -/
def auditedSink (C : SegmentedCuckoo p) (codec : ValueCodec) (addr20 : List UInt8)
    (key : AddressHash) (balance : Balance) (acc : Table C × ReservoirSampler SplitMix64) :
    Except String (Table C × ReservoirSampler SplitMix64) :=
  match snapshotSink C codec addr20 key balance acc.1 with
  | .error e => .error e
  | .ok t => .ok (t, acc.2.observe nextU64 addr20 balance)

theorem auditedSink_rows {rows : List Row} {t t' : Table C} {s s' : ReservoirSampler SplitMix64}
    (sunk : rows.foldlM (fun acc row => auditedSink C codec row.1 (keccak256 row.1) row.2 acc) (t, s) =
      .ok (t', s')) :
    sinkRows C codec keccak256 rows t = .ok t' ∧ s' = observeAll nextU64 s rows := by
  induction rows generalizing t s with
  | nil =>
      cases sunk
      exact ⟨rfl, rfl⟩
  | cons row rest ih =>
      rw [List.foldlM_cons] at sunk
      cases inserted : snapshotSink C codec row.1 (keccak256 row.1) row.2 t with
      | error e =>
          simp only [auditedSink, inserted] at sunk
          cases sunk
      | ok next =>
          simp only [auditedSink, inserted] at sunk
          obtain ⟨later, behind⟩ := ih sunk
          refine ⟨?_, behind⟩
          rw [sinkRows, List.foldlM_cons, inserted]
          exact later

variable {shards : List Shard} {t₀ t : Table C} {stats : SnapshotStats} {capacity : Nat}
  {seed : BitVec 64} {sampler : ReservoirSampler SplitMix64}

/-- The ingest leaves the store it makes without a sampler, and the sampler of its rows. -/
theorem sampled_of_ingest
    (accepted : ingest debug keccak256 (auditedSink C codec) shards (t₀, .new capacity seed) =
      .ok (stats, (t, sampler))) :
    sinkRows C codec keccak256 (sunkRows debug shards) t₀ = .ok t ∧
      sampler = observeAll nextU64 (.new capacity seed) (sunkRows debug shards) := by
  obtain ⟨-, -, -, sunk⟩ := ingest_ok accepted
  exact auditedSink_rows sunk

/-- The sample of a snapshot: as many of the ingested rows as there is room for, none of them taken
twice, each later row over the slot that the generator's next word names modulo the rows seen. Over
tapes of draws in range any rows of that number are what the same sampler holds equally often, and
over tapes of 64-bit words as often as their remainders allow. The store is the one that the ingest
makes without a sampler. -/
theorem sampled_uniformly
    (accepted : ingest debug keccak256 (auditedSink C codec) shards (t₀, .new capacity seed) =
      .ok (stats, (t, sampler))) :
    sinkRows C codec keccak256 (sunkRows debug shards) t₀ = .ok t ∧
      sampler.seen = (sunkRows debug shards).length ∧
      sampler.intoSample.length = min capacity (sunkRows debug shards).length ∧
      sampler.intoSample.Subperm (sunkRows debug shards) ∧
      sampler.intoSample = sampleOf nextU64 capacity seed (sunkRows debug shards) ∧
      sampler.intoSample = AlgorithmR.sample capacity (sunkRows debug shards)
        (drawn nextU64 capacity seed (sunkRows debug shards)).reverse ∧
      (capacity ≠ 0 →
        sampler.rng = after nextU64 seed ((sunkRows debug shards).length - capacity)) ∧
      ∀ m, (sunkRows debug shards).length = capacity + m → capacity + m ≤ 2 ^ 64 →
        (sunkRows debug shards).Nodup → ∀ S ⊆ (sunkRows debug shards).toFinset, S.card = capacity →
          ((AlgorithmR.draws capacity m).filter fun ds =>
              (sampleOf readTape capacity (tapeOf ds) (sunkRows debug shards)).toFinset = S).card *
            (capacity + m).choose capacity = (AlgorithmR.draws capacity m).card ∧
          (AlgorithmR.words (2 ^ 64) m).card = (2 ^ 64) ^ m ∧
          m.factorial * AlgorithmR.leastShare (2 ^ 64) capacity m ≤
            ((AlgorithmR.words (2 ^ 64) m).filter fun ws =>
              (sampleOf readTape capacity (tapeOf ws) (sunkRows debug shards)).toFinset = S).card ∧
          ((AlgorithmR.words (2 ^ 64) m).filter fun ws =>
              (sampleOf readTape capacity (tapeOf ws) (sunkRows debug shards)).toFinset = S).card ≤
            m.factorial * AlgorithmR.greatestShare (2 ^ 64) capacity m := by
  obtain ⟨sunk, rfl⟩ := sampled_of_ingest accepted
  have sampled := sampled_observeAll nextU64 capacity seed (sunkRows debug shards)
  refine ⟨sunk, sampled.counted, ?_, ?_, rfl, sampled.reservoir, sampled.generator, ?_⟩
  · exact sampled.size
  · exact sampled.subperm
  · intro m split countable once S among full
    exact ⟨tapes_uniform split countable once among full, AlgorithmR.card_words (2 ^ 64) m,
      word_tapes split once among full⟩

end Ingest

section Verification

/-- How many sampled accounts `verify` checks at a time. -/
def AUDIT_CONCURRENCY : Nat := 8

/-- The counts of `verify`. -/
structure Tally where
  checked : Nat
  disagreed : Nat
  deriving DecidableEq, Repr

/-- A check is back. Only an answer that all providers agree on counts. -/
def Tally.count (tally : Tally) (ingested : Balance) (q : Quorum) : Tally :=
  match q with
  | .agreed chainValue =>
      ⟨tally.checked + 1, if chainValue ≠ ingested then tally.disagreed + 1 else tally.disagreed⟩
  | _ => tally

/-- `verify` between two completions of its tasks. -/
structure Verifying where
  tasks : Tasks Row
  tally : Tally

def Verifying.start (sample : List Row) : Verifying := ⟨.start AUDIT_CONCURRENCY sample, ⟨0, 0⟩⟩

/-- The next check is back, with what the providers returned for it. -/
inductive Verifying.Step : Verifying → List (Row × List (Option Balance)) → Verifying → Prop
  | checked {tasks tasks' : Tasks Row} {tally : Tally} {row : Row} {results : List (Option Balance)}
      (back : Tasks.Step tasks [(row, results)] tasks') :
      Step ⟨tasks, tally⟩ [(row, results)] ⟨tasks', tally.count row.2 (quorum results)⟩

/-- The record that `verify` reports and files. -/
def Verifying.record (v : Verifying) (snapshotBlock : Nat) (seed : BitVec 64) : AuditRecord :=
  ⟨v.tally.checked, v.tally.disagreed, snapshotBlock, seed.toNat⟩

/-- The value that all providers returned for a check. -/
def agreedValue (results : List (Option Balance)) : Option Balance :=
  match quorum results with
  | .agreed value => some value
  | _ => none

/-- Providers that all return one value agree on it. -/
theorem agreedValue_of_all {results : List (Option Balance)} {value : Balance} (asked : results ≠ [])
    (all : ∀ r ∈ results, r = some value) : agreedValue results = some value := by
  have same : results = List.replicate results.length (some value) := List.eq_replicate_of_mem all
  obtain ⟨n, length⟩ := Nat.exists_eq_succ_of_ne_zero fun none => asked (List.length_eq_zero_iff.mp none)
  have answers : ∀ m, (List.replicate m (some value)).reduceOption = List.replicate m value := by
    intro m
    induction m with
    | zero => rfl
    | succ m ih => rw [List.replicate_succ, List.reduceOption_cons_of_some, ih, List.replicate_succ]
  have decided : quorum results = .agreed value := by
    rw [same, length, quorum, if_neg (by simp [List.mem_replicate]), answers, List.replicate_succ]
    dsimp only
    rw [if_pos fun v mem => (List.mem_replicate.mp mem).2]
  rw [agreedValue, decided]

/-- The providers agreed on a value for the row. -/
def Counted (check : Row × List (Option Balance)) : Bool := (agreedValue check.2).isSome

/-- They agreed on another value than was ingested. -/
def Differs (check : Row × List (Option Balance)) : Bool :=
  (agreedValue check.2).any fun value => value ≠ check.1.2

theorem Tally.count_eq (tally : Tally) (check : Row × List (Option Balance)) :
    tally.count check.1.2 (quorum check.2) =
      ⟨tally.checked + [check].countP Counted, tally.disagreed + [check].countP Differs⟩ := by
  rw [List.countP_singleton, List.countP_singleton, Counted, Differs, agreedValue]
  unfold Tally.count
  cases quorum check.2 with
  | agreed value => by_cases differs : value = check.1.2 <;> simp [differs]
  | disagreed => rfl
  | errored => rfl

variable {sample : List Row} {back : List (Row × List (Option Balance))} {v : Verifying}

/-- The tasks of `verify` are a pool's, and its counts those of the checks that are back. -/
theorem verifying_run (run : Run Verifying.Step (.start sample) back v) :
    Run Tasks.Step (.start AUDIT_CONCURRENCY sample) back v.tasks ∧
      v.tally = ⟨back.countP Counted, back.countP Differs⟩ := by
  induction run with
  | start => exact ⟨.start, rfl⟩
  | step run taken ih =>
      obtain ⟨pool, counts⟩ := ih
      cases taken with
      | checked step =>
          refine ⟨.step pool step, ?_⟩
          dsimp only at counts ⊢
          rw [counts, Tally.count_eq _ (_, _), List.countP_append, List.countP_append]

theorem countP_differs_le (back : List (Row × List (Option Balance))) :
    back.countP Differs ≤ back.countP Counted := by
  apply List.countP_mono_left
  intro check _ differs
  rw [Differs, Option.any_eq_true] at differs
  obtain ⟨value, agreed, -⟩ := differs
  rw [Counted, agreed]
  rfl

/-- Every audit can be brought to its end, whatever the providers return. -/
theorem verifying_ends (results : Row → List (Option Balance)) (v : Verifying) :
    ∃ back v', Run Verifying.Step v back v' ∧ v'.tasks.running = [] ∧
      ∀ check ∈ back, check.2 = results check.1 := by
  induction left : v.tasks.running.length + v.tasks.waiting.length using Nat.strong_induction_on
    generalizing v with
  | h n ih =>
      by_cases idle : v.tasks.running = []
      · exact ⟨[], v, .start, idle, nofun⟩
      · obtain ⟨row, out⟩ := Tasks.step_of_running (β := List (Option Balance)) idle
        obtain ⟨tasks', step⟩ := out (results row)
        have taken : Verifying.Step v [(row, results row)] ⟨tasks', _⟩ := .checked step
        have fewer := step.fewer
        obtain ⟨back, v', run, ends, given⟩ := ih _ (by rw [← left]; exact fewer) ⟨tasks', _⟩ rfl
        refine ⟨_, v', (Run.single taken).append run, ends, ?_⟩
        intro check mem
        rcases List.mem_append.mp mem with here | later
        · obtain rfl := List.mem_singleton.mp here
          rfl
        · exact given check later

/-- Any order in which the checks come back, and whatever the providers return: no more than
`AUDIT_CONCURRENCY` are out, every sampled row is checked once, the counts are those of its checks,
and the sidecar that is filed is reported by a restart. -/
theorem audit_accounted (debug : List Char → String) (run : Run Verifying.Step (.start sample) back v)
    {snapshotBlock : Nat} (height : snapshotBlock < 2 ^ 64) (seed : BitVec 64)
    (small : sample.length < 2 ^ 64) :
    v.tasks.running.length ≤ AUDIT_CONCURRENCY ∧
      (back.map Prod.fst ++ (v.tasks.running ++ v.tasks.waiting)).Perm sample ∧
      (v.tasks.running = [] → (back.map Prod.fst).Perm sample) ∧
      v.tally = ⟨back.countP Counted, back.countP Differs⟩ ∧
      v.tally.disagreed ≤ v.tally.checked ∧ v.tally.checked ≤ sample.length ∧
      readSidecar debug (some (sidecarText (v.record snapshotBlock seed))) =
        .known (v.record snapshotBlock seed) := by
  obtain ⟨pool, counts⟩ := verifying_run run
  have running := Tasks.running_run pool
  have ordered : v.tally.disagreed ≤ v.tally.checked := by
    rw [counts]
    exact countP_differs_le back
  have few : v.tally.checked ≤ sample.length := by
    have lengths := running.once.length_eq
    rw [List.length_append, List.length_map] at lengths
    have := List.countP_le_length (p := Counted) (l := back)
    rw [counts]
    dsimp only
    omega
  refine ⟨running.bounded, running.once, running.done (by decide), counts, ordered, few,
    readSidecar_written debug (fun key => ?_) ordered⟩
  cases key with
  | checked => exact lt_of_le_of_lt few small
  | disagreed => exact lt_of_le_of_lt (ordered.trans few) small
  | block => exact height
  | seed => exact seed.isLt

/-- Honest providers that all answer: every row is counted, and differs if it is wrong. -/
theorem honest_counts {chain : List UInt8 → Balance}
    (run : Run Verifying.Step (.start sample) back v) (ends : v.tasks.running = [])
    (honest : ∀ check ∈ back, check.2 ≠ [] ∧ ∀ r ∈ check.2, r = some (chain check.1.1)) :
    v.tally = ⟨sample.length, sample.countP fun row => chain row.1 ≠ row.2⟩ := by
  obtain ⟨pool, counts⟩ := verifying_run run
  have all := (Tasks.running_run pool).done (by decide) ends
  have agreed : ∀ check ∈ back, agreedValue check.2 = some (chain check.1.1) := by
    intro check mem
    exact agreedValue_of_all (honest check mem).1 (honest check mem).2
  rw [counts, ← all.countP_eq, List.countP_map, ← all.length_eq, List.length_map]
  congr 1
  · rw [List.countP_eq_length]
    intro check mem
    rw [Counted, agreed check mem]
    rfl
  · apply List.countP_congr
    intro check mem
    rw [Differs, agreed check mem]
    rfl

end Verification

section Estimate

open ReservoirSampler

variable {p : CuckooParams} {C : SegmentedCuckoo p} {codec : ValueCodec}
  {debug : List Char → String} {keccak256 : List UInt8 → AddressHash} {shards : List Shard}
  {t₀ t : Table C} {stats : SnapshotStats} {capacity m : Nat} {seed : BitVec 64}
  {sampler : ReservoirSampler SplitMix64}

/-- The audit estimates the snapshot's errors without bias. Honest providers that all answer count
every row that the sampler holds, and over tapes of draws in range the disagreements that are found
stand to the rows checked as the wrong rows of the snapshot to its rows, whatever order the checks
come back in. The process audits what the same sampler holds over its own generator. -/
theorem audit_unbiased
    (accepted : ingest debug keccak256 (auditedSink C codec) shards (t₀, .new capacity seed) =
      .ok (stats, (t, sampler)))
    (split : (sunkRows debug shards).length = capacity + m) (countable : capacity + m ≤ 2 ^ 64)
    (chain : List UInt8 → Balance) {audits : List Nat → Verifying}
    {back : List Nat → List (Row × List (Option Balance))}
    (ran : ∀ ds ∈ AlgorithmR.draws capacity m, Run Verifying.Step
      (.start (sampleOf readTape capacity (tapeOf ds) (sunkRows debug shards))) (back ds) (audits ds))
    (ended : ∀ ds ∈ AlgorithmR.draws capacity m, (audits ds).tasks.running = [])
    (honest : ∀ ds ∈ AlgorithmR.draws capacity m, ∀ check ∈ back ds,
      check.2 ≠ [] ∧ ∀ r ∈ check.2, r = some (chain check.1.1)) :
    sampler.intoSample = sampleOf nextU64 capacity seed (sunkRows debug shards) ∧
    sampler.intoSample = AlgorithmR.sample capacity (sunkRows debug shards)
      (drawn nextU64 capacity seed (sunkRows debug shards)).reverse ∧
    (∀ {own : Verifying} {owned : List (Row × List (Option Balance))},
      Run Verifying.Step (.start sampler.intoSample) owned own → own.tasks.running = [] →
      (∀ check ∈ owned, check.2 ≠ [] ∧ ∀ r ∈ check.2, r = some (chain check.1.1)) →
        own.tally = ⟨capacity, sampler.intoSample.countP fun row => chain row.1 ≠ row.2⟩) ∧
    (∀ ds ∈ AlgorithmR.draws capacity m, (audits ds).tally.checked = capacity) ∧
    (∑ ds ∈ AlgorithmR.draws capacity m, (audits ds).tally.disagreed) * (capacity + m) =
      (AlgorithmR.draws capacity m).card *
        (capacity * (sunkRows debug shards).countP fun row => chain row.1 ≠ row.2) := by
  obtain ⟨-, rfl⟩ := sampled_of_ingest accepted
  have sampled := sampled_observeAll nextU64 capacity seed (sunkRows debug shards)
  have drawnFor : (sunkRows debug shards).length - capacity = m := by omega
  have held : ∀ ds ∈ AlgorithmR.draws capacity m,
      sampleOf readTape capacity (tapeOf ds) (sunkRows debug shards) =
        AlgorithmR.sample capacity (sunkRows debug shards) ds.reverse :=
    fun ds mem => sampleOf_draws (split ▸ countable) (drawnFor.symm ▸ mem)
  have counts := fun ds mem => honest_counts (ran ds mem) (ended ds mem) (honest ds mem)
  refine ⟨rfl, sampled.reservoir, fun run ends truthful => ?_, fun ds mem => ?_, ?_⟩
  · have size := sampled.size
    rw [split, Nat.min_eq_left (Nat.le_add_right capacity m)] at size
    rw [honest_counts run ends truthful, size]
  · rw [counts ds mem, held ds mem]
    refine AlgorithmR.sample_length ?_
    rw [AlgorithmR.length_of_mem_draws mem]
    exact split
  · rw [← split, ← AlgorithmR.sample_unbiased split]
    refine congrArg (· * _) (Finset.sum_congr rfl fun ds mem => ?_)
    rw [counts ds mem, held ds mem]

end Estimate

section Rows

/-- An address by its last byte. -/
private def lastByte (last : UInt8) : List UInt8 := List.replicate 19 0 ++ [last]

private def digestOf (bytes : List UInt8) : AddressHash := smallKey (bytes.getLastD 0).toNat 1 0 0

private def inQuotes (text : List Char) : String := String.ofList text

/-- Two accounts with a balance and one without. -/
private def threeRows : Shard :=
  ⟨"a.csv", .ok (("0x000000000000000000000000000000000000000" ++ "1,5\n" ++
    "0x000000000000000000000000000000000000000" ++ "2,7\n" ++
    "0x000000000000000000000000000000000000000" ++ "3,0\n").toList, none)⟩

private def freshTable : Table (referenceTable smallParams) := ⟨draw 0, emptyStore smallParams⟩

/-- The snapshot's ingest with room for one row, and the seed it draws with. -/
private def sampledIngest (seed : BitVec 64) :=
  ingest inQuotes digestOf (auditedSink (referenceTable smallParams) smallCodec) [threeRows]
    (freshTable, .new 1 seed)

private theorem sampledIngest_ok :
    ∃ stats t sampler, sampledIngest 2#64 = .ok (stats, (t, sampler)) ∧
      sampler.intoSample = [(lastByte 2, 7)] := by
  have known : (sampledIngest 2#64).toOption.map (fun out => out.2.2.intoSample) =
      some [(lastByte 2, 7)] := by decide +kernel
  cases h : sampledIngest 2#64 with
  | error e =>
      rw [h] at known
      cases known
  | ok out =>
      rw [h] at known
      exact ⟨out.1, out.2.1, out.2.2, rfl, Option.some.inj known⟩

private theorem sunk_rows : sunkRows inQuotes [threeRows] = [(lastByte 1, 5), (lastByte 2, 7)] := by
  have listed : listedRows inQuotes [threeRows] =
      [(lastByte 1, 5), (lastByte 2, 7), (lastByte 3, 0)] := by decide +kernel
  rw [sunkRows, listed]
  rfl

/-- With this seed the second row takes the slot; over all draws the first has it as often, and
over 64-bit words at least half of the time. -/
theorem sampled_uniformly_rows : ∃ stats t sampler, sampledIngest 2#64 = .ok (stats, (t, sampler)) ∧
    sampler.intoSample = [(lastByte 2, 7)] ∧
    ((AlgorithmR.draws 1 1).filter fun ds => (ReservoirSampler.sampleOf ReservoirSampler.readTape 1
        (ReservoirSampler.tapeOf ds) [(lastByte 1, 5), (lastByte 2, 7)]).toFinset =
          {(lastByte 1, 5)}).card * 2 = (AlgorithmR.draws 1 1).card ∧
    2 ^ 63 ≤ ((AlgorithmR.words (2 ^ 64) 1).filter fun ws =>
      (ReservoirSampler.sampleOf ReservoirSampler.readTape 1 (ReservoirSampler.tapeOf ws)
        [(lastByte 1, 5), (lastByte 2, 7)]).toFinset = {(lastByte 1, 5)}).card := by
  obtain ⟨stats, t, sampler, accepted, kept⟩ := sampledIngest_ok
  obtain ⟨-, -, -, -, -, -, -, uniform⟩ := sampled_uniformly accepted
  rw [sunk_rows] at uniform
  obtain ⟨equally, -, least, -⟩ := uniform 1 rfl (by decide) (by decide) {(lastByte 1, 5)}
    (by decide) rfl
  exact ⟨stats, t, sampler, accepted, kept, equally, least⟩

/-- Two sampled rows, which all providers give the same balance. -/
theorem audit_accounted_two : ∃ back v,
    Run Verifying.Step (.start [(lastByte 1, 5), (lastByte 2, 7)]) back v ∧
      (back.map Prod.fst).Perm [(lastByte 1, 5), (lastByte 2, 7)] ∧
      readSidecar inQuotes (some (sidecarText (v.record 100 2#64))) = .known (v.record 100 2#64) := by
  obtain ⟨back, v, run, ends, -⟩ := verifying_ends (fun _ => [some 5, some 5])
    (.start [(lastByte 1, 5), (lastByte 2, 7)])
  obtain ⟨-, -, all, -, -, -, reported⟩ := audit_accounted inQuotes run
    (show 100 < 2 ^ 64 by decide) 2#64 (by decide)
  exact ⟨back, v, run, all ends, reported⟩

/-- The second row is wrong: one of two audits finds it. -/
theorem audit_unbiased_two : ∃ stats t sampler, ∃ audits : List Nat → Verifying,
    sampledIngest 2#64 = .ok (stats, (t, sampler)) ∧
      sampler.intoSample = ReservoirSampler.sampleOf nextU64 1 2#64
        [(lastByte 1, 5), (lastByte 2, 7)] ∧
      (∑ ds ∈ AlgorithmR.draws 1 1, (audits ds).tally.disagreed) * 2 = 2 := by
  obtain ⟨stats, t, sampler, accepted, -⟩ := sampledIngest_ok
  have ends := fun ds : List Nat => verifying_ends (fun _ => [some 5, some 5])
    (.start (ReservoirSampler.sampleOf ReservoirSampler.readTape 1 (ReservoirSampler.tapeOf ds)
      (sunkRows inQuotes [threeRows])))
  choose back audits run ended given using ends
  have honest : ∀ ds, ∀ check ∈ back ds, check.2 ≠ [] ∧ ∀ r ∈ check.2, r = some 5 := by
    intro ds check mem
    rw [given ds check mem]
    simp
  obtain ⟨own, -, -, -, estimate⟩ := audit_unbiased accepted
    (show _ = 1 + 1 by rw [sunk_rows]; rfl) (by decide) (fun _ => 5)
    (fun ds _ => run ds) (fun ds _ => ended ds) (fun ds _ => honest ds)
  rw [sunk_rows] at own estimate
  exact ⟨stats, t, sampler, audits, accepted, own, estimate.trans (by decide)⟩

end Rows

end RisePir.Rpc.SnapshotAudit
