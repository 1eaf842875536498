import Mathlib.Algebra.BigOperators.Ring.Finset
import Mathlib.Algebra.Group.Action.Defs
import Mathlib.Algebra.Order.BigOperators.Group.Finset
import Mathlib.Data.Int.CardIntervalMod
import Mathlib.Data.List.Nodup
import Mathlib.Data.Nat.Choose.Sum
import Mathlib.Order.Interval.Finset.Nat
import Mathlib.Tactic.Ring

set_option autoImplicit false
set_option relaxedAutoImplicit false

/-! Reservoir sampling. The places of a stream that a reservoir holds are a function of the draws
made for the items it had no room for, and over all draws in range every set of places is held
equally often. -/

namespace RisePir.Lib.AlgorithmR

/-- The places that a reservoir of `cap` holds after its first `cap` items and the draws that
followed, the latest first: a draw below `cap` gives its slot to the item it was made for. -/
def held (cap : Nat) : List Nat → List Nat
  | [] => List.range cap
  | d :: ds => (held cap ds).set d (cap + ds.length)

variable {cap : Nat}

@[simp]
theorem held_length (ds : List Nat) : (held cap ds).length = cap := by
  induction ds with
  | nil => exact List.length_range
  | cons d ds ih => rw [held, List.length_set, ih]

theorem held_lt (ds : List Nat) : ∀ n ∈ held cap ds, n < cap + ds.length := by
  induction ds with
  | nil =>
      intro n mem
      simpa [held] using mem
  | cons d ds ih =>
      intro n mem
      rw [List.length_cons]
      rcases List.mem_or_eq_of_mem_set mem with old | rfl
      · have := ih n old
        omega
      · omega

theorem newest_notMem (ds : List Nat) : cap + ds.length ∉ held cap ds := fun mem =>
  lt_irrefl _ (held_lt ds _ mem)

theorem held_nodup (ds : List Nat) : (held cap ds).Nodup := by
  induction ds with
  | nil => exact List.nodup_range
  | cons d ds ih => exact ih.set (newest_notMem ds)

/-- All sequences of `m` numbers, the latest first, the one at each place below its bound. -/
def sequences (bound : Nat → Nat) : Nat → Finset (List Nat)
  | 0 => {[]}
  | m + 1 => (Finset.range (bound m) ×ˢ sequences bound m).map
      ⟨fun p => p.1 :: p.2, fun _ _ h => Prod.ext (List.cons.inj h).1 (List.cons.inj h).2⟩

theorem cons_mem_sequences {bound : Nat → Nat} {d m : Nat} {ds : List Nat} :
    d :: ds ∈ sequences bound (m + 1) ↔ d < bound m ∧ ds ∈ sequences bound m := by
  rw [sequences, Finset.mem_map]
  constructor
  · rintro ⟨p, mem, same⟩
    obtain ⟨rfl, rfl⟩ := List.cons.inj same
    rwa [Finset.mem_product, Finset.mem_range] at mem
  · intro h
    refine ⟨(d, ds), ?_, rfl⟩
    rwa [Finset.mem_product, Finset.mem_range]

theorem length_of_mem_sequences {bound : Nat → Nat} {m : Nat} {ds : List Nat}
    (mem : ds ∈ sequences bound m) : ds.length = m := by
  induction ds generalizing m with
  | nil =>
      cases m with
      | zero => rfl
      | succ m => simp [sequences] at mem
  | cons d ds ih =>
      cases m with
      | zero => simp [sequences] at mem
      | succ m => rw [List.length_cons, ih (cons_mem_sequences.mp mem).2]

theorem card_sequences_succ (bound : Nat → Nat) (m : Nat) :
    (sequences bound (m + 1)).card = bound m * (sequences bound m).card := by
  rw [sequences, Finset.card_map, Finset.card_product, Finset.card_range]

/-- All sequences of `m` draws, the latest first, each at most the place of the item it is made
for. -/
def draws (cap m : Nat) : Finset (List Nat) := sequences (fun k => cap + k + 1) m

/-- All sequences of `m` words below `N`. -/
def words (N m : Nat) : Finset (List Nat) := sequences (fun _ => N) m

theorem sequences_mono {bound bound' : Nat → Nat} {m : Nat} (within : ∀ k < m, bound k ≤ bound' k) :
    sequences bound m ⊆ sequences bound' m := by
  intro ds mem
  induction ds generalizing m with
  | nil =>
      obtain rfl : 0 = m := length_of_mem_sequences mem
      exact mem
  | cons d ds ih =>
      have length := length_of_mem_sequences mem
      rw [List.length_cons] at length
      subst length
      obtain ⟨inside, rest⟩ := cons_mem_sequences.mp mem
      have bounds := within ds.length (Nat.lt_succ_self _)
      exact cons_mem_sequences.mpr ⟨inside.trans_le bounds,
        ih (fun k hk => within k (Nat.lt_succ_of_lt hk)) rest⟩

theorem lt_of_mem_words {N m : Nat} {ws : List Nat} (mem : ws ∈ words N m) : ∀ w ∈ ws, w < N := by
  induction ws generalizing m with
  | nil => simp
  | cons w ws ih =>
      have length := length_of_mem_sequences mem
      rw [List.length_cons] at length
      subst length
      obtain ⟨below, rest⟩ := cons_mem_sequences.mp mem
      exact List.forall_mem_cons.mpr ⟨below, ih rest⟩

theorem cons_mem_draws {d m : Nat} {ds : List Nat} :
    d :: ds ∈ draws cap (m + 1) ↔ d < cap + m + 1 ∧ ds ∈ draws cap m :=
  cons_mem_sequences

theorem length_of_mem_draws {m : Nat} {ds : List Nat} (mem : ds ∈ draws cap m) : ds.length = m :=
  length_of_mem_sequences mem

theorem card_words (N m : Nat) : (words N m).card = N ^ m := by
  induction m with
  | zero => rfl
  | succ m ih => rw [words, card_sequences_succ, ← words, ih, pow_succ, mul_comm]

theorem card_draws (m : Nat) : (draws cap m).card * cap.factorial = (cap + m).factorial := by
  induction m with
  | zero => simp [draws, sequences]
  | succ m ih =>
      rw [draws, card_sequences_succ, ← draws, mul_assoc, ih, ← Nat.add_assoc,
        Nat.factorial_succ]

/-- How many sequences of `m` draws leave exactly the places of `S` in the reservoir. -/
def ways (cap m : Nat) (S : Finset Nat) : Nat :=
  ((draws cap m).filter (fun ds => (held cap ds).toFinset = S)).card

/-- How many of the next draws leave the places of `S`. -/
def nextWays (cap : Nat) (ds : List Nat) (S : Finset Nat) : Nat :=
  ((Finset.range (cap + ds.length + 1)).filter
    (fun d => (held cap (d :: ds)).toFinset = S)).card

theorem ways_succ (m : Nat) (S : Finset Nat) :
    ways cap (m + 1) S = ∑ ds ∈ draws cap m, nextWays cap ds S := by
  rw [ways, draws, sequences, Finset.card_filter, Finset.sum_map, Finset.sum_product_right]
  refine Finset.sum_congr rfl fun ds mem => ?_
  rw [nextWays, Finset.card_filter, length_of_mem_draws mem]
  rfl

/-- Overwriting a slot takes its place out and puts the new one in. -/
theorem toFinset_set {l : List Nat} (nodup : l.Nodup) {d : Nat} (inside : d < l.length) (n : Nat) :
    (l.set d n).toFinset = insert n (l.toFinset.erase l[d]) := by
  ext x
  rw [Finset.mem_insert, Finset.mem_erase, List.mem_toFinset, List.mem_toFinset]
  constructor
  · intro mem
    obtain ⟨i, hi, rfl⟩ := List.mem_iff_getElem.mp mem
    rw [List.length_set] at hi
    rw [List.getElem_set]
    split_ifs with same
    · exact .inl rfl
    · exact .inr ⟨fun h => same ((nodup.getElem_inj_iff).mp h.symm), List.getElem_mem hi⟩
  · rintro (rfl | ⟨other, mem⟩)
    · exact List.mem_set inside x
    · obtain ⟨i, hi, rfl⟩ := List.mem_iff_getElem.mp mem
      have apart : d ≠ i := by
        rintro rfl
        exact other rfl
      exact List.mem_iff_getElem.mpr ⟨i, by rwa [List.length_set], by rw [List.getElem_set_ne apart]⟩

/-- Without the newest place the reservoir has not changed: the draw passed over every slot. -/
theorem nextWays_old {ds : List Nat} {S : Finset Nat} (old : cap + ds.length ∉ S) :
    nextWays cap ds S = if (held cap ds).toFinset = S then ds.length + 1 else 0 := by
  have stays : ∀ d, (held cap (d :: ds)).toFinset = S ↔ cap ≤ d ∧ (held cap ds).toFinset = S := by
    intro d
    rw [held]
    by_cases inside : d < (held cap ds).length
    · constructor
      · intro h
        refine absurd ?_ old
        rw [← h, toFinset_set (held_nodup ds) inside]
        exact Finset.mem_insert_self _ _
      · intro h
        rw [held_length] at inside
        omega
    · rw [List.set_eq_of_length_le (Nat.le_of_not_lt inside)]
      rw [held_length] at inside
      exact ⟨fun h => ⟨by omega, h⟩, fun h => h.2⟩
  rw [nextWays]
  simp only [stays]
  split_ifs with same
  · have passing : (Finset.range (cap + ds.length + 1)).filter
        (fun d => cap ≤ d ∧ (held cap ds).toFinset = S) = Finset.Ico cap (cap + ds.length + 1) := by
      ext d
      simp only [Finset.mem_filter, Finset.mem_range, Finset.mem_Ico, same, and_true]
      omega
    rw [passing, Nat.card_Ico]
    omega
  · rw [Finset.card_eq_zero, Finset.filter_eq_empty_iff]
    exact fun d _ h => same h.2

/-- A draw that leaves the newest place beside `T` has overwritten a place outside `T`. -/
theorem held_cons_eq_insert {d : Nat} {ds : List Nat} {T : Finset Nat}
    (older : cap + ds.length ∉ T) :
    (held cap (d :: ds)).toFinset = insert (cap + ds.length) T ↔
      ∃ n, (held cap ds)[d]? = some n ∧ n ∉ T ∧ (held cap ds).toFinset = insert n T := by
  have newest : cap + ds.length ∉ (held cap ds).toFinset := by
    rw [List.mem_toFinset]
    exact newest_notMem ds
  rw [held]
  by_cases inside : d < (held cap ds).length
  · rw [toFinset_set (held_nodup ds) inside, List.getElem?_eq_getElem inside]
    constructor
    · intro h
      have rest := congrArg (fun s => s.erase (cap + ds.length)) h
      rw [Finset.erase_insert (fun mem => newest (Finset.mem_of_mem_erase mem)),
        Finset.erase_insert older] at rest
      refine ⟨_, rfl, ?_, ?_⟩
      · rw [← rest]
        exact Finset.notMem_erase _ _
      · rw [← rest, Finset.insert_erase (List.mem_toFinset.mpr (List.getElem_mem inside))]
    · rintro ⟨n, slot, outside, same⟩
      rw [Option.some.inj slot, same, Finset.erase_insert outside]
  · rw [List.set_eq_of_length_le (Nat.le_of_not_lt inside),
      List.getElem?_eq_none (Nat.le_of_not_lt inside)]
    constructor
    · intro h
      refine absurd ?_ newest
      rw [h]
      exact Finset.mem_insert_self _ _
    · rintro ⟨n, slot, -⟩
      cases slot

theorem nextWays_new {ds : List Nat} {T : Finset Nat} (older : T ⊆ Finset.range (cap + ds.length)) :
    nextWays cap ds (insert (cap + ds.length) T) =
      ((Finset.range (cap + ds.length) \ T).filter
        (fun n => (held cap ds).toFinset = insert n T)).card := by
  have newest : cap + ds.length ∉ T := fun mem => by simpa using older mem
  rw [nextWays]
  refine Finset.card_nbij' (fun d => ((held cap ds)[d]?).getD 0) (fun n => (held cap ds).idxOf n)
    ?_ ?_ ?_ ?_
  · intro d mem
    obtain ⟨n, slot, outside, same⟩ := (held_cons_eq_insert newest).mp (Finset.mem_filter.mp mem).2
    have known := held_lt ds n (List.mem_of_getElem? slot)
    simp only [slot, Option.getD_some]
    exact Finset.mem_filter.mpr ⟨Finset.mem_sdiff.mpr ⟨Finset.mem_range.mpr known, outside⟩, same⟩
  · intro n mem
    obtain ⟨inside, same⟩ := Finset.mem_filter.mp mem
    obtain ⟨-, outside⟩ := Finset.mem_sdiff.mp inside
    have here : n ∈ held cap ds := by
      rw [← List.mem_toFinset, same]
      exact Finset.mem_insert_self _ _
    have slot := List.idxOf_lt_length_iff.mpr here
    refine Finset.mem_filter.mpr ⟨?_, (held_cons_eq_insert newest).mpr ⟨n, ?_, outside, same⟩⟩
    · rw [held_length] at slot
      exact Finset.mem_range.mpr (show (held cap ds).idxOf n < _ by omega)
    · rw [List.getElem?_eq_getElem slot, List.getElem_idxOf]
  · intro d mem
    obtain ⟨n, slot, outside, same⟩ := (held_cons_eq_insert newest).mp (Finset.mem_filter.mp mem).2
    obtain ⟨inside, rfl⟩ := List.getElem?_eq_some_iff.mp slot
    simp only [slot, Option.getD_some]
    exact (held_nodup ds).idxOf_getElem d inside
  · intro n mem
    obtain ⟨inside, same⟩ := Finset.mem_filter.mp mem
    have here : n ∈ held cap ds := by
      rw [← List.mem_toFinset, same]
      exact Finset.mem_insert_self _ _
    have slot := List.idxOf_lt_length_iff.mpr here
    simp only
    rw [List.getElem?_eq_getElem slot, List.getElem_idxOf, Option.getD_some]

/-- Every set of `cap` places of the stream is held after as many sequences of draws. -/
theorem ways_eq {m : Nat} {S : Finset Nat} (places : S ⊆ Finset.range (cap + m))
    (full : S.card = cap) : ways cap m S = m.factorial := by
  induction m generalizing S with
  | zero =>
      have all : S = Finset.range cap :=
        Finset.eq_of_subset_of_card_le places (by rw [Finset.card_range, full])
      rw [ways, draws, sequences, all, Finset.filter_true_of_mem]
      · rfl
      · intro ds mem
        rw [Finset.mem_singleton.mp mem, held, List.toFinset_range]
  | succ m ih =>
      rw [ways_succ]
      by_cases newest : cap + m ∈ S
      · obtain ⟨T, outside, rfl⟩ : ∃ T, cap + m ∉ T ∧ S = insert (cap + m) T :=
          ⟨S.erase (cap + m), Finset.notMem_erase _ _, (Finset.insert_erase newest).symm⟩
        have older : T ⊆ Finset.range (cap + m) := by
          intro n mem
          have lt := Finset.mem_range.mp (places (Finset.mem_insert_of_mem mem))
          have ne : n ≠ cap + m := fun h => outside (h ▸ mem)
          rw [Finset.mem_range]
          omega
        rw [Finset.card_insert_of_notMem outside] at full
        calc ∑ ds ∈ draws cap m, nextWays cap ds (insert (cap + m) T)
            = ∑ ds ∈ draws cap m, ∑ n ∈ Finset.range (cap + m) \ T,
                if (held cap ds).toFinset = insert n T then 1 else 0 := by
              refine Finset.sum_congr rfl fun ds mem => ?_
              have length := length_of_mem_draws mem
              subst length
              rw [nextWays_new older, Finset.card_filter]
          _ = ∑ n ∈ Finset.range (cap + m) \ T, ways cap m (insert n T) := by
              rw [Finset.sum_comm]
              refine Finset.sum_congr rfl fun n _ => ?_
              rw [ways, Finset.card_filter]
          _ = ∑ _n ∈ Finset.range (cap + m) \ T, m.factorial := by
              refine Finset.sum_congr rfl fun n mem => ?_
              obtain ⟨inside, fresh⟩ := Finset.mem_sdiff.mp mem
              exact ih (Finset.insert_subset inside older)
                (by rw [Finset.card_insert_of_notMem fresh, full])
          _ = (m + 1).factorial := by
              rw [Finset.sum_const, Finset.card_sdiff_of_subset older, Finset.card_range,
                smul_eq_mul, Nat.factorial_succ]
              congr 1
              omega
      · have older : S ⊆ Finset.range (cap + m) := by
          intro n mem
          have lt := Finset.mem_range.mp (places mem)
          have ne : n ≠ cap + m := fun h => newest (h ▸ mem)
          rw [Finset.mem_range]
          omega
        calc ∑ ds ∈ draws cap m, nextWays cap ds S
            = ∑ ds ∈ draws cap m, if (held cap ds).toFinset = S then m + 1 else 0 := by
              refine Finset.sum_congr rfl fun ds mem => ?_
              have length := length_of_mem_draws mem
              subst length
              exact nextWays_old newest
          _ = (m + 1).factorial := by
              rw [← Finset.sum_filter, Finset.sum_const, smul_eq_mul, ← ways, ih older full,
                mul_comm, Nat.factorial_succ]

/-- How many sequences of `m` draws leave the place `n` in the reservoir. -/
def inclusions (cap m n : Nat) : Nat := ((draws cap m).filter (n ∈ held cap ·)).card

/-- How many of the next draws leave the place `n`. -/
def nextInclusions (cap : Nat) (ds : List Nat) (n : Nat) : Nat :=
  ((Finset.range (cap + ds.length + 1)).filter fun d => n ∈ held cap (d :: ds)).card

theorem inclusions_succ (m n : Nat) :
    inclusions cap (m + 1) n = ∑ ds ∈ draws cap m, nextInclusions cap ds n := by
  rw [inclusions, draws, sequences, Finset.card_filter, Finset.sum_map, Finset.sum_product_right]
  refine Finset.sum_congr rfl fun ds mem => ?_
  rw [nextInclusions, Finset.card_filter, length_of_mem_draws mem]
  rfl

/-- The newest place takes whichever slot is drawn. -/
theorem nextInclusions_newest (ds : List Nat) :
    nextInclusions cap ds (cap + ds.length) = cap := by
  have takes : ∀ d, cap + ds.length ∈ held cap (d :: ds) ↔ d < cap := by
    intro d
    rw [held]
    constructor
    · intro mem
      by_contra beyond
      rw [List.set_eq_of_length_le (by rw [held_length]; omega)] at mem
      exact newest_notMem ds mem
    · intro inside
      exact List.mem_set (by rw [held_length]; exact inside) _
  rw [nextInclusions]
  simp only [takes]
  have slots : (Finset.range (cap + ds.length + 1)).filter (fun d => d < cap) =
      Finset.range cap := by
    ext d
    simp only [Finset.mem_filter, Finset.mem_range]
    omega
  rw [slots, Finset.card_range]

/-- An older place stays unless the one slot it is in is drawn. -/
theorem nextInclusions_old {ds : List Nat} {n : Nat} (old : n < cap + ds.length) :
    nextInclusions cap ds n = if n ∈ held cap ds then cap + ds.length else 0 := by
  have stays : ∀ d, n ∈ held cap (d :: ds) ↔ n ∈ held cap ds ∧ d ≠ (held cap ds).idxOf n := by
    intro d
    rw [held]
    by_cases inside : d < (held cap ds).length
    · have here : n ∈ ((held cap ds).set d (cap + ds.length)).toFinset ↔
          n ∈ (held cap ds).toFinset ∧ n ≠ (held cap ds)[d] := by
        rw [toFinset_set (held_nodup ds) inside, Finset.mem_insert, Finset.mem_erase, and_comm]
        constructor
        · rintro (rfl | kept)
          · omega
          · exact kept
        · exact .inr
      rw [List.mem_toFinset, List.mem_toFinset] at here
      rw [here]
      refine and_congr_right fun mem => not_congr ⟨?_, ?_⟩
      · rintro rfl
        exact ((held_nodup ds).idxOf_getElem d inside).symm
      · rintro rfl
        exact (List.getElem_idxOf _).symm
    · rw [List.set_eq_of_length_le (Nat.le_of_not_lt inside)]
      refine ⟨fun mem => ⟨mem, ?_⟩, fun h => h.1⟩
      have := List.idxOf_lt_length_iff.mpr mem
      omega
  rw [nextInclusions]
  simp only [stays]
  split_ifs with mem
  · have slot := List.idxOf_lt_length_iff.mpr mem
    rw [held_length] at slot
    have others : (Finset.range (cap + ds.length + 1)).filter
        (fun d => n ∈ held cap ds ∧ d ≠ (held cap ds).idxOf n) =
        (Finset.range (cap + ds.length + 1)).erase ((held cap ds).idxOf n) := by
      ext d
      simp only [Finset.mem_filter, Finset.mem_erase, mem, true_and, and_comm]
    rw [others, Finset.card_erase_of_mem (Finset.mem_range.mpr (by omega)), Finset.card_range,
      Nat.add_sub_cancel]
  · rw [Finset.card_eq_zero, Finset.filter_eq_empty_iff]
    exact fun d _ h => mem h.1

/-- Over all draws in range, every place of the stream is held equally often. -/
theorem inclusions_uniform {m n : Nat} (place : n < cap + m) :
    inclusions cap m n * (cap + m) = cap * (draws cap m).card := by
  induction m with
  | zero =>
      have all : inclusions cap 0 n = 1 := by
        rw [inclusions, draws, sequences, Finset.filter_true_of_mem, Finset.card_singleton]
        intro ds mem
        rw [Finset.mem_singleton.mp mem, held, List.mem_range]
        exact place
      rw [all, draws, sequences, Finset.card_singleton]
      omega
  | succ m ih =>
      have count : (draws cap (m + 1)).card = (cap + m + 1) * (draws cap m).card :=
        card_sequences_succ _ m
      have once : inclusions cap (m + 1) n = cap * (draws cap m).card := by
        rw [inclusions_succ]
        rcases Nat.lt_succ_iff_lt_or_eq.mp place with old | newest
        · calc ∑ ds ∈ draws cap m, nextInclusions cap ds n
              = ∑ ds ∈ draws cap m, if n ∈ held cap ds then cap + m else 0 := by
                refine Finset.sum_congr rfl fun ds mem => ?_
                have length := length_of_mem_draws mem
                subst length
                exact nextInclusions_old old
            _ = cap * (draws cap m).card := by
                rw [← Finset.sum_filter, Finset.sum_const, smul_eq_mul, ← inclusions, ih old]
        · calc ∑ ds ∈ draws cap m, nextInclusions cap ds n
              = ∑ _ds ∈ draws cap m, cap := by
                refine Finset.sum_congr rfl fun ds mem => ?_
                rw [newest, ← length_of_mem_draws mem]
                exact nextInclusions_newest ds
            _ = cap * (draws cap m).card := by
                rw [Finset.sum_const, smul_eq_mul, mul_comm]
      rw [once, count]
      ring

section Words

/-- Words made draws: each is reduced by the number of items up to the one it is drawn for. -/
def reduce (cap : Nat) : List Nat → List Nat
  | [] => []
  | w :: ws => w % (cap + ws.length + 1) :: reduce cap ws

theorem reduce_mem_draws (cap : Nat) (ws : List Nat) : reduce cap ws ∈ draws cap ws.length := by
  induction ws with
  | nil => exact Finset.mem_singleton_self []
  | cons w ws ih =>
      rw [reduce, List.length_cons, cons_mem_draws]
      exact ⟨Nat.mod_lt _ (Nat.succ_pos _), ih⟩

/-- Draws are words that need no reducing. -/
theorem reduce_of_mem_draws {m : Nat} {ds : List Nat} (mem : ds ∈ draws cap m) :
    reduce cap ds = ds := by
  induction ds generalizing m with
  | nil => rfl
  | cons d ds ih =>
      have length := length_of_mem_draws mem
      rw [List.length_cons] at length
      subst length
      obtain ⟨inside, rest⟩ := cons_mem_draws.mp mem
      rw [reduce, ih rest, Nat.mod_eq_of_lt inside]

/-- How many sequences of words below `N` come out as the draws `ds`. -/
def preimages (N cap : Nat) (ds : List Nat) : Nat :=
  ((words N ds.length).filter (reduce cap · = ds)).card

theorem preimages_cons (N cap d : Nat) (ds : List Nat) : preimages N cap (d :: ds) =
    ((Finset.range N).filter (· % (cap + ds.length + 1) = d)).card * preimages N cap ds := by
  have split : (words N (ds.length + 1)).filter (reduce cap · = d :: ds) =
      (((Finset.range N).filter (· % (cap + ds.length + 1) = d)) ×ˢ
        (words N ds.length).filter (reduce cap · = ds)).map
      ⟨fun p => p.1 :: p.2, fun _ _ h => Prod.ext (List.cons.inj h).1 (List.cons.inj h).2⟩ := by
    ext ws
    rw [Finset.mem_filter, Finset.mem_map]
    constructor
    · rintro ⟨mem, same⟩
      cases ws with
      | nil => simp [reduce] at same
      | cons w ws =>
          obtain ⟨below, rest⟩ := cons_mem_sequences.mp mem
          rw [reduce, length_of_mem_sequences rest] at same
          obtain ⟨first, later⟩ := List.cons.inj same
          refine ⟨(w, ws), Finset.mem_product.mpr ⟨?_, ?_⟩, rfl⟩
          · exact Finset.mem_filter.mpr ⟨Finset.mem_range.mpr below, first⟩
          · exact Finset.mem_filter.mpr ⟨rest, later⟩
    · rintro ⟨p, mem, rfl⟩
      obtain ⟨first, later⟩ := Finset.mem_product.mp mem
      obtain ⟨below, drawn⟩ := Finset.mem_filter.mp first
      obtain ⟨rest, same⟩ := Finset.mem_filter.mp later
      refine ⟨cons_mem_sequences.mpr ⟨Finset.mem_range.mp below, rest⟩, ?_⟩
      show reduce cap (p.1 :: p.2) = d :: ds
      rw [reduce, length_of_mem_sequences rest, drawn, same]
  rw [preimages, List.length_cons, split, Finset.card_map, Finset.card_product, preimages]

/-- Of the words below `N`, a remainder modulo `r` takes an even share, or one more. -/
theorem card_residue (N : Nat) {r d : Nat} (inside : d < r) :
    N / r ≤ ((Finset.range N).filter (· % r = d)).card ∧
      ((Finset.range N).filter (· % r = d)).card ≤ N / r + 1 := by
  have count : ((Finset.range N).filter (· % r = d)).card = N.count (· ≡ d [MOD r]) := by
    rw [Nat.count_eq_card_filter_range]
    refine congrArg Finset.card (Finset.filter_congr fun w _ => ?_)
    rw [Nat.ModEq, Nat.mod_eq_of_lt inside]
  rw [count, Nat.count_modEq_card N (Nat.zero_lt_of_lt inside) d]
  split_ifs <;> omega

/-- The least and the greatest number of sequences of words below `N` behind `m` draws. -/
def leastShare (N cap m : Nat) : Nat := ∏ k ∈ Finset.range m, N / (cap + k + 1)

def greatestShare (N cap m : Nat) : Nat := ∏ k ∈ Finset.range m, (N / (cap + k + 1) + 1)

theorem preimages_bounds (N : Nat) {m : Nat} {ds : List Nat} (mem : ds ∈ draws cap m) :
    leastShare N cap m ≤ preimages N cap ds ∧ preimages N cap ds ≤ greatestShare N cap m := by
  induction ds generalizing m with
  | nil =>
      obtain rfl : 0 = m := length_of_mem_draws mem
      exact ⟨le_refl _, le_refl _⟩
  | cons d ds ih =>
      have length := length_of_mem_draws mem
      rw [List.length_cons] at length
      subst length
      obtain ⟨inside, rest⟩ := cons_mem_draws.mp mem
      obtain ⟨least, greatest⟩ := ih rest
      obtain ⟨few, many⟩ := card_residue N inside
      rw [preimages_cons, leastShare, greatestShare, Finset.prod_range_succ,
        Finset.prod_range_succ, mul_comm _ (preimages N cap ds)]
      exact ⟨Nat.mul_le_mul least few, Nat.mul_le_mul greatest many⟩

/-- What holds of so many draws holds, between its least and its greatest share each, of the
words that come out as them. -/
theorem card_words_bounds (N cap m : Nat) (kind : List Nat → Prop) [DecidablePred kind] :
    ((draws cap m).filter kind).card * leastShare N cap m ≤
        ((words N m).filter fun ws => kind (reduce cap ws)).card ∧
      ((words N m).filter fun ws => kind (reduce cap ws)).card ≤
        ((draws cap m).filter kind).card * greatestShare N cap m := by
  have fibres : ((words N m).filter fun ws => kind (reduce cap ws)).card =
      ∑ ds ∈ (draws cap m).filter kind, preimages N cap ds := by
    rw [Finset.card_eq_sum_card_fiberwise (f := reduce cap) (t := (draws cap m).filter kind)]
    · refine Finset.sum_congr rfl fun ds mem => ?_
      obtain ⟨drawn, of⟩ := Finset.mem_filter.mp mem
      rw [preimages, length_of_mem_draws drawn, Finset.filter_filter]
      refine congrArg Finset.card (Finset.filter_congr fun ws _ => ?_)
      exact ⟨fun h => h.2, fun h => ⟨h ▸ of, h⟩⟩
    · intro ws mem
      obtain ⟨inside, of⟩ := Finset.mem_filter.mp (Finset.mem_coe.mp mem)
      refine Finset.mem_coe.mpr (Finset.mem_filter.mpr ⟨?_, of⟩)
      have drawn := reduce_mem_draws cap ws
      rwa [length_of_mem_sequences inside] at drawn
  rw [fibres]
  constructor
  · apply Finset.card_nsmul_le_sum
    exact fun ds mem => (preimages_bounds N (Finset.mem_filter.mp mem).1).1
  · apply Finset.sum_le_card_nsmul
    exact fun ds mem => (preimages_bounds N (Finset.mem_filter.mp mem).1).2

end Words

section Stream

variable {α : Type}

/-- The reservoir of a stream, with the draws in the order they are made: the first `cap` items,
then each later item over the slot that its draw names, if there is one. -/
def sample (cap : Nat) (items : List α) (ds : List Nat) : List α :=
  ((items.drop cap).zip ds).foldl (fun slots next => slots.set next.2 next.1) (items.take cap)

theorem sample_filling {items : List α} (few : items.length ≤ cap) (ds : List Nat) :
    sample cap items ds = items := by
  rw [sample, List.drop_eq_nil_of_le few, List.take_of_length_le few]
  rfl

theorem sample_append {items : List α} {ds : List Nat} (drawn : items.length = cap + ds.length)
    (item : α) (d : Nat) :
    sample cap (items ++ [item]) (ds ++ [d]) = (sample cap items ds).set d item := by
  have later : (items.drop cap).length = ds.length := by
    rw [List.length_drop]
    omega
  rw [sample, List.drop_append_of_le_length (by omega), List.take_append_of_le_length (by omega),
    List.zip_append later, List.foldl_append]
  rfl

theorem map_range_getElem? (items : List α) :
    (List.range items.length).map (items[·]?) = items.map some := by
  apply List.ext_getElem (by simp)
  intro n inside _
  rw [List.length_map, List.length_range] at inside
  simp [inside]

/-- What the reservoir holds are the items at the places that the draws leave. -/
theorem sample_held {items : List α} {ds : List Nat} (drawn : items.length = cap + ds.length) :
    (sample cap items ds.reverse).map some = (held cap ds).map (items[·]?) := by
  induction ds generalizing items with
  | nil =>
      rw [List.length_nil, Nat.add_zero] at drawn
      rw [sample_filling (by omega), held, ← drawn]
      apply List.ext_getElem (by simp)
      intro n inside _
      rw [List.length_map] at inside
      simp [inside]
  | cons d ds ih =>
      rcases List.eq_nil_or_concat items with rfl | ⟨before, item, rfl⟩
      · simp at drawn
      · rw [List.concat_eq_append, List.length_append, List.length_singleton, List.length_cons] at drawn
        have length : before.length = cap + ds.length := by omega
        rw [List.concat_eq_append, List.reverse_cons,
          sample_append (by rw [List.length_reverse]; exact length), List.map_set, ih length, held,
          List.map_set, ← length, List.getElem?_concat_length]
        refine congrArg (fun slots => slots.set d (some item)) (List.map_congr_left fun n mem => ?_)
        rw [List.getElem?_append_left]
        have := held_lt ds n mem
        omega

theorem sample_length {items : List α} {ds : List Nat} (drawn : items.length = cap + ds.length) :
    (sample cap items ds.reverse).length = cap := by
  have lengths := congrArg List.length (sample_held drawn)
  rwa [List.length_map, List.length_map, held_length] at lengths

/-- No place of the stream is sampled twice. -/
theorem sample_subperm {items : List α} {ds : List Nat} (drawn : items.length = cap + ds.length) :
    (sample cap items ds.reverse).Subperm items := by
  have places : (held cap ds).Subperm (List.range items.length) := by
    apply List.subperm_of_subset (held_nodup ds)
    intro n mem
    rw [List.mem_range, drawn]
    exact held_lt ds n mem
  obtain ⟨ordered, same, within⟩ := places
  have perm := (same.map (items[·]?)).filterMap id
  have sub := (within.map (items[·]?)).filterMap id
  rw [← sample_held drawn] at perm
  rw [map_range_getElem?] at sub
  simp only [List.filterMap_map, Function.id_comp, List.filterMap_some] at perm sub
  exact ⟨_, perm, sub⟩

theorem getElem?_injOn {items : List α} (once : items.Nodup) :
    Set.InjOn (items[·]?) (↑(Finset.range items.length) : Set Nat) := by
  intro n hn n' hn' same
  have inside := Finset.mem_range.mp (Finset.mem_coe.mp hn)
  exact (List.getElem?_inj inside once).mp same

theorem countP_eq_card {l : List Nat} (once : l.Nodup) (kind : Nat → Bool) :
    l.countP kind = (l.toFinset.filter fun n => kind n).card := by
  rw [List.countP_eq_length_filter, ← List.toFinset_card_of_nodup (once.filter _),
    List.toFinset_filter]

/-- What the sample shows of a kind of item is on average what the stream holds of it. -/
theorem sample_unbiased {items : List α} {m : Nat} (drawn : items.length = cap + m)
    (kind : α → Bool) :
    (∑ ds ∈ draws cap m, (sample cap items ds.reverse).countP kind) * items.length =
      (draws cap m).card * (cap * items.countP kind) := by
  have shown : ∀ l : List α, l.countP kind = (l.map some).countP (Option.any kind) := by
    intro l
    rw [List.countP_map]
    rfl
  have all : items.countP kind =
      ((Finset.range items.length).filter fun n => (items[n]?).any kind).card := by
    rw [shown, ← map_range_getElem?, List.countP_map, countP_eq_card List.nodup_range]
    refine congrArg Finset.card (Finset.ext fun n => ?_)
    simp
  have each : ∀ ds ∈ draws cap m, (sample cap items ds.reverse).countP kind =
      ∑ n ∈ (Finset.range items.length).filter (fun n => (items[n]?).any kind),
        if n ∈ held cap ds then 1 else 0 := by
    intro ds mem
    have length : items.length = cap + ds.length := by rw [length_of_mem_draws mem, drawn]
    rw [shown, sample_held length, List.countP_map, countP_eq_card (held_nodup ds),
      ← Finset.card_filter]
    refine congrArg Finset.card (Finset.ext fun n => ?_)
    simp only [Finset.mem_filter, List.mem_toFinset, Finset.mem_range, Function.comp]
    constructor
    · rintro ⟨mem, of⟩
      exact ⟨⟨length ▸ held_lt ds n mem, of⟩, mem⟩
    · rintro ⟨⟨-, of⟩, mem⟩
      exact ⟨mem, of⟩
  calc (∑ ds ∈ draws cap m, (sample cap items ds.reverse).countP kind) * items.length
      = (∑ n ∈ (Finset.range items.length).filter (fun n => (items[n]?).any kind),
          inclusions cap m n) * items.length := by
        rw [Finset.sum_congr rfl each, Finset.sum_comm]
        refine congrArg (· * items.length) (Finset.sum_congr rfl fun n _ => ?_)
        rw [inclusions, Finset.card_filter]
    _ = ∑ _n ∈ (Finset.range items.length).filter (fun n => (items[n]?).any kind),
          cap * (draws cap m).card := by
        rw [Finset.sum_mul]
        refine Finset.sum_congr rfl fun n mem => ?_
        have place := Finset.mem_range.mp (Finset.mem_filter.mp mem).1
        rw [drawn] at place ⊢
        exact inclusions_uniform place
    _ = (draws cap m).card * (cap * items.countP kind) := by
        rw [Finset.sum_const, smul_eq_mul, ← all]
        ring

variable [DecidableEq α]

/-- The places of the stream whose items are in `S`. -/
def placesOf (items : List α) (S : Finset α) : Finset Nat :=
  (Finset.range items.length).filter fun n => ∃ item ∈ S, items[n]? = some item

theorem placesOf_subset (items : List α) (S : Finset α) :
    placesOf items S ⊆ Finset.range items.length :=
  Finset.filter_subset _ _

theorem image_placesOf {items : List α} {S : Finset α} (among : S ⊆ items.toFinset) :
    (placesOf items S).image (items[·]?) = S.image some := by
  ext slot
  rw [Finset.mem_image, Finset.mem_image]
  constructor
  · rintro ⟨n, mem, rfl⟩
    obtain ⟨-, item, inside, here⟩ := Finset.mem_filter.mp mem
    exact ⟨item, inside, here.symm⟩
  · rintro ⟨item, inside, rfl⟩
    obtain ⟨n, lt, rfl⟩ := List.mem_iff_getElem.mp (List.mem_toFinset.mp (among inside))
    have here := List.getElem?_eq_getElem lt
    exact ⟨n, Finset.mem_filter.mpr ⟨Finset.mem_range.mpr lt, _, inside, here⟩, here⟩

/-- Of a stream of distinct items every `cap` items are the sample after as many sequences of
draws. -/
theorem sample_ways {items : List α} {m : Nat} {S : Finset α} (once : items.Nodup)
    (drawn : items.length = cap + m) (among : S ⊆ items.toFinset) (full : S.card = cap) :
    ((draws cap m).filter fun ds => (sample cap items ds.reverse).toFinset = S).card =
      m.factorial := by
  have places : placesOf items S ⊆ Finset.range (cap + m) := by
    rw [← drawn]
    exact placesOf_subset items S
  have injective := getElem?_injOn once
  have size : (placesOf items S).card = cap := by
    rw [← Finset.card_image_of_injOn (injective.mono (placesOf_subset items S)),
      image_placesOf among, Finset.card_image_of_injective _ (Option.some_injective α), full]
  have same : ∀ ds ∈ draws cap m, (sample cap items ds.reverse).toFinset = S ↔
      (held cap ds).toFinset = placesOf items S := by
    intro ds mem
    have length : items.length = cap + ds.length := by rw [length_of_mem_draws mem, drawn]
    have inside : (held cap ds).toFinset ⊆ Finset.range items.length := by
      intro n mem
      rw [Finset.mem_range, length]
      exact held_lt ds n (List.mem_toFinset.mp mem)
    have images : (sample cap items ds.reverse).toFinset.image some =
        (held cap ds).toFinset.image (items[·]?) := by
      ext slot
      rw [Finset.mem_image, Finset.mem_image]
      simp only [List.mem_toFinset]
      rw [← List.mem_map, sample_held length, List.mem_map]
    rw [← Finset.image_inj (Option.some_injective α), images, ← image_placesOf among]
    exact Finset.image_eq_image_iff_of_injOn injective inside (placesOf_subset items S)
  rw [Finset.filter_congr same]
  exact ways_eq places size

/-- Over all draws in range, each choice of `cap` items is the sample equally often. -/
theorem sample_uniform {items : List α} {m : Nat} {S : Finset α} (once : items.Nodup)
    (drawn : items.length = cap + m) (among : S ⊆ items.toFinset) (full : S.card = cap) :
    ((draws cap m).filter fun ds => (sample cap items ds.reverse).toFinset = S).card *
      items.length.choose cap = (draws cap m).card := by
  apply Nat.eq_of_mul_eq_mul_right cap.factorial_pos
  have split := Nat.choose_mul_factorial_mul_factorial (Nat.le_add_right cap m)
  rw [Nat.add_sub_cancel_left] at split
  rw [card_draws, sample_ways once drawn among full, ← split, drawn]
  ring


end Stream

end RisePir.Lib.AlgorithmR
