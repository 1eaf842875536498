import Mathlib.Data.List.Perm.Basic
import RisePir.Lib.KeyedAmounts
import RisePir.Lib.LastEffect
import RisePir.Lib.Mixing
import RisePir.Proto.Types

set_option autoImplicit false
set_option relaxedAutoImplicit false

/-! The mock feed: a seeded stream of deletes, inserts and updates over a live set that it keeps
twice, as a vector to draw from and as a map from account to balance. -/

namespace RisePir.Feed.Mock

open RisePir.Lib.KeyedAmounts
open RisePir.Lib.LastEffect
open RisePir.Lib.Mixing
open RisePir.Proto.Types
open Std (ExtTreeMap)

abbrev SplitMix64 := BitVec 64

/-- The finaliser of `next_u64`. -/
def finalise (z : BitVec 64) : BitVec 64 :=
  let z := (z ^^^ (z >>> 30)) * 0xBF58476D1CE4E5B9#64
  let z := (z ^^^ (z >>> 27)) * 0x94D049BB133111EB#64
  z ^^^ (z >>> 31)

/-- `next_u64`: the word drawn, and the generator behind it. -/
def nextU64 (rng : SplitMix64) : BitVec 64 × SplitMix64 :=
  (finalise (rng + 0x9E3779B97F4A7C15#64), rng + 0x9E3779B97F4A7C15#64)

def ADDR_DOMAIN : BitVec 64 := 0x6D6F636B5F616464#64

/-- `address_for`: four draws, each in little-endian bytes, the first one lowest. -/
def addressFor (id : Nat) : AddressHash :=
  let (a, sm) := nextU64 (BitVec.ofNat 64 id ^^^ ADDR_DOMAIN)
  let (b, sm) := nextU64 sm
  let (c, sm) := nextU64 sm
  let (d, _) := nextU64 sm
  ((d ++ c) ++ b) ++ a

def randomBalance (rng : SplitMix64) : Balance × SplitMix64 :=
  let (size, rng) := nextU64 rng
  let bits := 40 + size.toNat % 50
  let (lo, rng) := nextU64 rng
  let (hi, rng) := nextU64 rng
  let raw := (hi.toNat <<< 64) ||| lo.toNat
  let mask := (1 <<< bits) - 1
  (max ((raw &&& mask) ||| (1 <<< (bits - 1))) 1, rng)

def perturb (rng : SplitMix64) (old : Balance) : Balance × SplitMix64 :=
  let (size, rng) := nextU64 rng
  let dbits := 43 + size.toNat % 21
  let (lo, rng) := nextU64 rng
  let dmask := (1 <<< dbits) - 1
  let amount := max ((lo.toNat &&& dmask) ||| (1 <<< (dbits - 1))) 1
  let cap := (1 <<< 96) - 1
  let (coin, rng) := nextU64 rng
  let new :=
    if coin &&& 1#64 = 0#64 then min (min (old + amount) (2 ^ 128 - 1)) cap
    else old - amount
  (max new 1, rng)

structure MockConfig where
  seed : BitVec 64
  numGenesisKeys : Nat
  changesPerBlock : Nat
  insertsPerBlock : Nat
  deletesPerBlock : Nat
  deriving DecidableEq, Repr

structure MockFeed where
  cfg : MockConfig
  rng : SplitMix64
  live : List AddressHash
  balances : ExtTreeMap AddressHash Balance
  block : Nat
  nextId : Nat

/-- `Vec::swap_remove`: the last entry takes the place of the removed one. -/
def swapRemove {α : Type} (l : List α) (i : Nat) : Option (α × List α) := do
  let last ← l.getLast?
  let removed ← l[i]?
  return (removed, (l.set i last).dropLast)

namespace MockFeed

/-- One account of the genesis loop. -/
def genesisStep (s : SplitMix64 × List AddressHash × ExtTreeMap AddressHash Balance) (id : Nat) :
    SplitMix64 × List AddressHash × ExtTreeMap AddressHash Balance :=
  let addr := addressFor id
  let (bal, rng) := randomBalance s.1
  (rng, s.2.1 ++ [addr], s.2.2.insert addr bal)

/-- `new`; `none` is the panic of its assertion, or of the `usize` sum in it, which overflows only
beyond every `changes_per_block`. -/
def new (cfg : MockConfig) : Option MockFeed :=
  if cfg.changesPerBlock < cfg.insertsPerBlock + cfg.deletesPerBlock then none
  else
    let (rng, live, balances) := (List.range cfg.numGenesisKeys).foldl genesisStep (cfg.seed, [], ∅)
    some ⟨cfg, rng, live, balances, 0, cfg.numGenesisKeys⟩

/-- `snapshot`; `none` is the panic of an index that is not in the map. -/
def snapshot (s : MockFeed) : Option (List (AddressHash × Balance)) :=
  s.live.mapM fun a => s.balances[a]?.map (Prod.mk a)

def balanceOf (s : MockFeed) (addr : AddressHash) : Balance := s.balances[addr]?.getD 0

def liveKeys (s : MockFeed) : List AddressHash := s.live

/-- The loop over at most `n` deletes, with what it emits; `none` is a panic. -/
def deletes : Nat → MockFeed → Option (MockFeed × List (AddressHash × Balance))
  | 0, s => some (s, [])
  | n + 1, s =>
      if s.live = [] then some (s, [])
      else do
        let (draw, rng) := nextU64 s.rng
        let (a, live) ← swapRemove s.live (draw.toNat % s.live.length)
        let (s, changes) ← deletes n { s with rng, live, balances := s.balances.erase a }
        return (s, (a, 0) :: changes)

/-- The loop over `n` inserts; `none` is the overflow of the account id. -/
def inserts : Nat → MockFeed → Option (MockFeed × List (AddressHash × Balance))
  | 0, s => some (s, [])
  | n + 1, s =>
      if 2 ^ 64 ≤ s.nextId + 1 then none
      else do
        let a := addressFor s.nextId
        let (bal, rng) := randomBalance s.rng
        let (s, changes) ← inserts n { s with
          rng
          live := s.live ++ [a]
          balances := s.balances.insert a bal
          nextId := s.nextId + 1 }
        return (s, (a, bal) :: changes)

/-- The loop over at most `n` updates; `none` is a panic. -/
def updates : Nat → MockFeed → Option (MockFeed × List (AddressHash × Balance))
  | 0, s => some (s, [])
  | n + 1, s =>
      if s.live = [] then some (s, [])
      else do
        let (draw, rng) := nextU64 s.rng
        let a ← s.live[draw.toNat % s.live.length]?
        let old ← s.balances[a]?
        let (new, rng) := perturb rng old
        let (s, changes) ← updates n { s with rng, balances := s.balances.insert a new }
        return (s, (a, new) :: changes)

/-- `next_block` up to its update phase: the next state, the deletes and the inserts. -/
def beforeUpdates (s : MockFeed) :
    Option (MockFeed × List (AddressHash × Balance) × List (AddressHash × Balance)) := do
  let (s, deleted) ← deletes s.cfg.deletesPerBlock { s with block := s.block + 1 }
  let (s, inserted) ← inserts s.cfg.insertsPerBlock s
  return (s, deleted, inserted)

def nextBlock (s : MockFeed) : Option (MockFeed × BlockUpdate) := do
  let (s, deleted, inserted) ← s.beforeUpdates
  let (s, updated) ← updates (s.cfg.changesPerBlock - deleted.length - s.cfg.insertsPerBlock) s
  return (s, ⟨s.block, deleted ++ inserted ++ updated, []⟩)

/-- A number of calls of `next_block`, with the blocks that they return. -/
def run : Nat → MockFeed → Option (MockFeed × List BlockUpdate)
  | 0, s => some (s, [])
  | n + 1, s => do
      let (s, update) ← s.nextBlock
      let (s, later) ← run n s
      return (s, update :: later)

end MockFeed

section Draws

/-- The finaliser loses nothing of a word. -/
theorem finalise_injective : Function.Injective finalise := by
  have first := mul_injective (show 0xBF58476D1CE4E5B9#64 * 0x96DE1B173F119089#64 = 1#64 by decide)
  have second := mul_injective (show 0x94D049BB133111EB#64 * 0x319642B2D24D8EC3#64 = 1#64 by decide)
  have shift30 : Function.Injective (xorShift 30 : BitVec 64 → BitVec 64) := xorShift_injective (by decide)
  have shift27 : Function.Injective (xorShift 27 : BitVec 64 → BitVec 64) := xorShift_injective (by decide)
  have shift31 : Function.Injective (xorShift 31 : BitVec 64 → BitVec 64) := xorShift_injective (by decide)
  exact shift31.comp (second.comp (shift27.comp (first.comp shift30)))

/-- Distinct account ids have distinct addresses: already the first draws differ. -/
theorem addressFor_inj {id id' : Nat} (h : id < 2 ^ 64) (h' : id' < 2 ^ 64)
    (same : addressFor id = addressFor id') : id = id' := by
  have lowest := congrArg (BitVec.setWidth 64) same
  unfold addressFor at lowest
  simp only [BitVec.setWidth_append_eq_right] at lowest
  have seeds := BitVec.add_left_inj _ |>.mp (finalise_injective lowest)
  have words : BitVec.ofNat 64 id = BitVec.ofNat 64 id' := BitVec.xor_left_inj _ |>.mp seeds
  have numbers := congrArg BitVec.toNat words
  rwa [BitVec.toNat_ofNat, BitVec.toNat_ofNat, Nat.mod_eq_of_lt h, Nat.mod_eq_of_lt h'] at numbers

/-- A draw with its top bit set and cut off above it. -/
theorem masked_lt (x : Nat) {n : Nat} (pos : 0 < n) :
    ((x &&& ((1 <<< n) - 1)) ||| (1 <<< (n - 1))) < 2 ^ n := by
  rw [Nat.one_shiftLeft, Nat.one_shiftLeft]
  have cut : x &&& (2 ^ n - 1) < 2 ^ n := Nat.and_lt_two_pow x (Nat.sub_one_lt (Nat.two_pow_pos n).ne')
  have top : 2 ^ (n - 1) < 2 ^ n := (Nat.pow_lt_pow_iff_right (by decide)).mpr (by omega)
  exact Nat.or_lt_two_pow cut top

theorem randomBalance_bounds (rng : SplitMix64) :
    0 < (randomBalance rng).1 ∧ (randomBalance rng).1 < 2 ^ 96 := by
  unfold randomBalance
  dsimp only
  generalize (nextU64 rng).1.toNat = size
  have narrow : 40 + size % 50 ≤ 89 := by omega
  have powers : 2 ^ (40 + size % 50) ≤ 2 ^ 89 := Nat.pow_le_pow_right (by decide) narrow
  have small : (2 : Nat) ^ 89 < 2 ^ 96 := by decide
  refine ⟨Nat.lt_of_lt_of_le Nat.one_pos (le_max_right _ _), max_lt ?_ (by decide)⟩
  exact (masked_lt _ (by omega)).trans_le powers |>.trans small

theorem perturb_bounds (rng : SplitMix64) {old : Balance} (small : old < 2 ^ 96) :
    0 < (perturb rng old).1 ∧ (perturb rng old).1 < 2 ^ 96 := by
  unfold perturb
  dsimp only
  refine ⟨Nat.lt_of_lt_of_le Nat.one_pos (le_max_right _ _), max_lt ?_ (by decide)⟩
  split_ifs
  · exact Nat.lt_of_le_of_lt (min_le_right _ _) (by decide)
  · exact Nat.lt_of_le_of_lt (Nat.sub_le _ _) small

end Draws

/-- A swap-removal takes one entry and keeps the others. -/
theorem swapRemove_spec {α : Type} {l : List α} {i : Nat} (inside : i < l.length) :
    ∃ a rest, swapRemove l i = some (a, rest) ∧ l.Perm (a :: rest) := by
  rcases List.eq_nil_or_concat l with rfl | ⟨init, last, rfl⟩
  · cases inside
  · rw [List.concat_eq_append] at inside ⊢
    have final : (init ++ [last]).getLast? = some last := by simp
    have at_i : (init ++ [last])[i]? = some (init ++ [last])[i] := List.getElem?_eq_getElem inside
    refine ⟨(init ++ [last])[i], ((init ++ [last]).set i last).dropLast, ?_, ?_⟩
    · rw [swapRemove, final, at_i]
      rfl
    · by_cases early : i < init.length
      · rw [List.set_append_left _ _ early, List.dropLast_concat, List.getElem_append_left early]
        have swapped := (List.set_perm_cons_eraseIdx early last).cons init[i]
        have whole := (List.getElem_cons_eraseIdx_perm early).cons last
        exact (List.perm_append_singleton last init).trans
          (whole.symm.trans ((List.Perm.swap _ _ _).trans swapped.symm))
      · have here : i = init.length := by
          rw [List.length_append, List.length_singleton] at inside
          omega
        subst here
        simp

/-- The vector and the map hold the same accounts, all made from used ids. -/
structure Consistent (s : MockFeed) : Prop where
  nodup : s.live.Nodup
  live : ∀ k : AddressHash, k ∈ s.live ↔ ∃ b, s.balances[k]? = some b
  bounded : ∀ (k : AddressHash) b, s.balances[k]? = some b → 0 < b ∧ b < 2 ^ 96
  used : ∀ k ∈ s.live, ∃ id < s.nextId, addressFor id = k
  ids : s.nextId < 2 ^ 64

/-- No entry of an account behind a zero of it is anything but zero. -/
def NeverBack (es : List (AddressHash × Balance)) : Prop :=
  ∀ before k after, es = before ++ (k, 0) :: after → ∀ b, (k, b) ∈ after → b = 0

/-- The map is the replay of the entries, and an account they have deleted stays deleted. -/
structure Recorded (s : MockFeed) (es : List (AddressHash × Balance)) : Prop where
  replay : ∀ k : AddressHash, s.balances[k]? = writes (fun _ => none) es k
  small : ∀ e ∈ es, e.2 < 2 ^ 96
  used : ∀ e ∈ es, ∃ id < s.nextId, addressFor id = e.1
  retired : ∀ k, (k, 0) ∈ es → k ∉ s.live
  final : NeverBack es

/-- What one entry of the stream does to the feed's model. -/
inductive Emits (s s' : MockFeed) : AddressHash × Balance → Prop
  | deleted {a : AddressHash} (live : s.live.Perm (a :: s'.live))
      (balances : s'.balances = s.balances.erase a) (ids : s'.nextId = s.nextId) : Emits s s' (a, 0)
  | inserted {b : Balance} (live : s'.live = s.live ++ [addressFor s.nextId])
      (balances : s'.balances = s.balances.insert (addressFor s.nextId) b)
      (ids : s'.nextId = s.nextId + 1) (fresh : s'.nextId < 2 ^ 64) (bounds : 0 < b ∧ b < 2 ^ 96) :
      Emits s s' (addressFor s.nextId, b)
  | updated {a : AddressHash} {b : Balance} (mem : a ∈ s.live) (live : s'.live = s.live)
      (balances : s'.balances = s.balances.insert a b) (ids : s'.nextId = s.nextId)
      (bounds : 0 < b ∧ b < 2 ^ 96) : Emits s s' (a, b)

section Step

variable {s s' : MockFeed} {es : List (AddressHash × Balance)} {e : AddressHash × Balance}

/-- A fresh id names no live account. -/
theorem Consistent.fresh (h : Consistent s) : addressFor s.nextId ∉ s.live := by
  intro mem
  obtain ⟨id, below, same⟩ := h.used _ mem
  have := addressFor_inj (below.trans h.ids) h.ids same
  omega

theorem balances_insert {a : AddressHash} {b : Balance} (balances : s'.balances = s.balances.insert a b)
    (k : AddressHash) : s'.balances[k]? = if a = k then some b else s.balances[k]? := by
  rw [balances, ExtTreeMap.getElem?_insert]
  simp

theorem balances_erase {a : AddressHash} (balances : s'.balances = s.balances.erase a)
    (k : AddressHash) : s'.balances[k]? = if a = k then none else s.balances[k]? := by
  rw [balances, ExtTreeMap.getElem?_erase]
  simp

theorem Consistent.emits (h : Consistent s) (step : Emits s s' e) : Consistent s' := by
  cases step with
  | @deleted a live balances ids =>
      have apart := List.nodup_cons.mp (live.nodup_iff.mp h.nodup)
      refine ⟨apart.2, fun k => ?_, fun k b held => ?_, fun k mem => ?_, ids ▸ h.ids⟩
      · have members := (live.mem_iff (a := k)).symm.trans (h.live k)
        rw [List.mem_cons] at members
        rw [balances_erase balances]
        by_cases here : a = k
        · subst here
          simp [apart.1]
        · simpa [here, Ne.symm here] using members
      · rw [balances_erase balances] at held
        split_ifs at held
        exact h.bounded k b held
      · rw [ids]
        exact h.used k (live.mem_iff.mpr (List.mem_cons_of_mem a mem))
  | @inserted b live balances ids fresh bounds =>
      refine ⟨?_, fun k => ?_, fun k b' held => ?_, fun k mem => ?_, fresh⟩
      · rw [live, List.nodup_append_comm]
        exact List.nodup_cons.mpr ⟨h.fresh, h.nodup⟩
      · rw [live, List.mem_append, List.mem_singleton, balances_insert balances, h.live k]
        by_cases here : addressFor s.nextId = k
        · simp [here]
        · simp [here, Ne.symm here]
      · rw [balances_insert balances] at held
        split_ifs at held
        · exact Option.some.inj held ▸ bounds
        · exact h.bounded k b' held
      · rw [live] at mem
        rw [ids]
        rcases List.mem_append.mp mem with old | new
        · obtain ⟨id, below, same⟩ := h.used k old
          exact ⟨id, by omega, same⟩
        · exact ⟨s.nextId, by omega, (List.mem_singleton.mp new).symm⟩
  | @updated a b mem live balances ids bounds =>
      refine ⟨live ▸ h.nodup, fun k => ?_, fun k b' held => ?_, ?_, ids ▸ h.ids⟩
      · rw [live, h.live k, balances_insert balances]
        by_cases here : a = k
        · subst here
          simpa using (h.live a).mp mem
        · simp [here]
      · rw [balances_insert balances] at held
        split_ifs at held
        · exact Option.some.inj held ▸ bounds
        · exact h.bounded k b' held
      · rw [live, ids]
        exact h.used

/-- An emitted account is live, or it is new and was never named. -/
theorem Recorded.emits (h : Consistent s) (recorded : Recorded s es) (step : Emits s s' e) :
    Recorded s' (es ++ [e]) := by
  have below : s.nextId ≤ s'.nextId := by
    cases step with
    | deleted live balances ids => exact ids.ge
    | inserted live balances ids fresh bounds => omega
    | updated mem live balances ids bounds => exact ids.ge
  have replayed : ∀ k : AddressHash, s'.balances[k]? = writes (fun _ => none) (es ++ [e]) k := by
    intro k
    rw [writes, List.foldl_append, ← writes]
    change _ = write (writes (fun _ => none) es) e k
    rw [write_apply, ← recorded.replay k]
    cases step with
    | @deleted a live balances ids =>
        rw [balances_erase balances]
        by_cases here : a = k
        · simp [here, stored]
        · simp [here, Ne.symm here]
    | @inserted b live balances ids fresh bounds =>
        rw [balances_insert balances]
        by_cases here : addressFor s.nextId = k
        · simp [here, stored, bounds.1.ne']
        · simp [here, Ne.symm here]
    | @updated a b mem live balances ids bounds =>
        rw [balances_insert balances]
        by_cases here : a = k
        · simp [here, stored, bounds.1.ne']
        · simp [here, Ne.symm here]
  have retired_zero : ∀ k, (k, 0) ∈ es → e.1 = k → e.2 = 0 := by
    intro k gone same
    cases step with
    | deleted live balances ids => rfl
    | inserted live balances ids fresh bounds =>
        obtain ⟨id, old, named⟩ := recorded.used _ gone
        have := addressFor_inj (old.trans h.ids) h.ids (named.trans same.symm)
        omega
    | updated mem live balances ids bounds => exact absurd (same ▸ mem) (recorded.retired k gone)
  refine ⟨replayed, ?_, ?_, ?_, ?_⟩
  · intro e' mem
    rcases List.mem_append.mp mem with old | new
    · exact recorded.small e' old
    · obtain rfl := List.mem_singleton.mp new
      cases step with
      | deleted live balances ids => exact Nat.two_pow_pos 96
      | inserted live balances ids fresh bounds => exact bounds.2
      | updated mem live balances ids bounds => exact bounds.2
  · intro e' entry
    rcases List.mem_append.mp entry with old | new
    · obtain ⟨id, small, named⟩ := recorded.used e' old
      exact ⟨id, small.trans_le below, named⟩
    · obtain rfl := List.mem_singleton.mp new
      cases step with
      | deleted live balances ids =>
          obtain ⟨id, small, named⟩ := h.used _ (live.mem_iff.mpr List.mem_cons_self)
          exact ⟨id, small.trans_le below, named⟩
      | inserted live balances ids fresh bounds => exact ⟨s.nextId, by omega, rfl⟩
      | updated mem live balances ids bounds =>
          obtain ⟨id, small, named⟩ := h.used _ mem
          exact ⟨id, small.trans_le below, named⟩
  · intro k gone
    rcases List.mem_append.mp gone with old | new
    · have before := recorded.retired k old
      cases step with
      | deleted live balances ids =>
          exact fun mem => before (live.mem_iff.mpr (List.mem_cons_of_mem _ mem))
      | inserted live balances ids fresh bounds =>
          rw [live, List.mem_append, List.mem_singleton]
          rintro (mem | rfl)
          · exact before mem
          · exact bounds.1.ne' (retired_zero _ old rfl)
      | updated mem live balances ids bounds => exact live ▸ before
    · obtain rfl := List.mem_singleton.mp new
      cases step with
      | deleted live balances ids =>
          exact (List.nodup_cons.mp (live.nodup_iff.mp h.nodup)).1
      | inserted live balances ids fresh bounds => exact absurd rfl bounds.1.ne'
      | updated mem live balances ids bounds => exact absurd rfl bounds.1.ne'
  · intro before k after split b mem
    rcases concat_eq_split.mp split with ⟨rfl, same, rfl⟩ | ⟨init, rfl, rfl⟩
    · cases mem
    · rcases List.mem_append.mp mem with old | new
      · exact recorded.final before k init rfl b old
      · obtain rfl := List.mem_singleton.mp new
        exact retired_zero k (by simp) rfl

end Step

/-- A stream of entries, one after another. -/
inductive EmitsAll : MockFeed → List (AddressHash × Balance) → MockFeed → Prop
  | nil (s : MockFeed) : EmitsAll s [] s
  | cons {s t s' : MockFeed} {e : AddressHash × Balance} {es : List (AddressHash × Balance)}
      (first : Emits s t e) (rest : EmitsAll t es s') : EmitsAll s (e :: es) s'

section Stream

variable {s t s' : MockFeed} {es es' : List (AddressHash × Balance)}

theorem EmitsAll.append (h : EmitsAll s es t) (h' : EmitsAll t es' s') : EmitsAll s (es ++ es') s' := by
  induction h with
  | nil s => exact h'
  | cons first _ ih => exact .cons first (ih h')

theorem EmitsAll.consistent (h : EmitsAll s es s') (consistent : Consistent s) : Consistent s' := by
  induction h with
  | nil s => exact consistent
  | cons first _ ih => exact ih (consistent.emits first)

theorem EmitsAll.recorded (h : EmitsAll s es s') (consistent : Consistent s)
    {before : List (AddressHash × Balance)} (recorded : Recorded s before) :
    Recorded s' (before ++ es) := by
  induction h generalizing before with
  | nil s => rwa [List.append_nil]
  | @cons s t s' e es first _ ih =>
      have next := ih (consistent.emits first) (recorded.emits consistent first)
      rwa [List.append_assoc] at next

/-- The configuration and the block counter, which the loops leave alone. -/
def SameBlock (s s' : MockFeed) : Prop := s'.cfg = s.cfg ∧ s'.block = s.block

theorem deletes_spec (n : Nat) (consistent : Consistent s) : ∃ s' es,
    s.deletes n = some (s', es) ∧ EmitsAll s es s' ∧ SameBlock s s' ∧ s'.nextId = s.nextId ∧
      es.length ≤ n := by
  induction n generalizing s with
  | zero => exact ⟨s, [], rfl, .nil s, ⟨rfl, rfl⟩, rfl, le_rfl⟩
  | succ n ih =>
      rw [MockFeed.deletes]
      by_cases empty : s.live = []
      · rw [if_pos empty]
        exact ⟨s, [], rfl, .nil s, ⟨rfl, rfl⟩, rfl, Nat.zero_le _⟩
      · rw [if_neg empty]
        obtain ⟨a, live, removed, perm⟩ := swapRemove_spec (Nat.mod_lt (nextU64 s.rng).1.toNat
          (List.length_pos_iff.mpr empty))
        have step : Emits s { s with
            rng := (nextU64 s.rng).2, live, balances := s.balances.erase a } (a, 0) :=
          .deleted perm rfl rfl
        obtain ⟨s', es, rest, emitted, same, ids, short⟩ := ih (consistent.emits step)
        refine ⟨s', (a, 0) :: es, ?_, .cons step emitted, ⟨same.1, same.2⟩, ids, Nat.succ_le_succ short⟩
        simp only [removed, rest, Option.bind_eq_bind, Option.bind_some, Option.pure_def]

theorem inserts_spec (n : Nat) (consistent : Consistent s) (ids : s.nextId + n < 2 ^ 64) : ∃ s' es,
    s.inserts n = some (s', es) ∧ EmitsAll s es s' ∧ SameBlock s s' ∧ s'.nextId = s.nextId + n ∧
      es.length = n := by
  induction n generalizing s with
  | zero => exact ⟨s, [], rfl, .nil s, ⟨rfl, rfl⟩, rfl, rfl⟩
  | succ n ih =>
      rw [MockFeed.inserts, if_neg (by omega)]
      have step : Emits s { s with
          rng := (randomBalance s.rng).2, live := s.live ++ [addressFor s.nextId]
          balances := s.balances.insert (addressFor s.nextId) (randomBalance s.rng).1
          nextId := s.nextId + 1 } (addressFor s.nextId, (randomBalance s.rng).1) :=
        .inserted rfl rfl rfl (by dsimp only; omega) (randomBalance_bounds s.rng)
      obtain ⟨s', es, rest, emitted, same, next, long⟩ := ih (consistent.emits step)
        (by dsimp only; omega)
      refine ⟨s', _ :: es, ?_, .cons step emitted, ⟨same.1, same.2⟩, ?_, congrArg Nat.succ long⟩
      · simp only [rest, Option.bind_eq_bind, Option.bind_some, Option.pure_def]
      · rw [next]
        dsimp only
        omega

theorem updates_spec (n : Nat) (consistent : Consistent s) : ∃ s' es,
    s.updates n = some (s', es) ∧ EmitsAll s es s' ∧ SameBlock s s' ∧ s'.nextId = s.nextId ∧
      es.length ≤ n ∧ (s.live ≠ [] → es.length = n) := by
  induction n generalizing s with
  | zero => exact ⟨s, [], rfl, .nil s, ⟨rfl, rfl⟩, rfl, le_rfl, fun _ => rfl⟩
  | succ n ih =>
      rw [MockFeed.updates]
      by_cases empty : s.live = []
      · rw [if_pos empty]
        exact ⟨s, [], rfl, .nil s, ⟨rfl, rfl⟩, rfl, Nat.zero_le _, fun live => absurd empty live⟩
      · rw [if_neg empty]
        have inside := Nat.mod_lt (nextU64 s.rng).1.toNat (List.length_pos_iff.mpr empty)
        have drawn := List.getElem?_eq_getElem inside
        have mem := List.getElem_mem inside
        generalize s.live[(nextU64 s.rng).1.toNat % s.live.length] = a at drawn mem
        obtain ⟨old, held⟩ := (consistent.live a).mp mem
        have step : Emits s { s with
            rng := (perturb (nextU64 s.rng).2 old).2
            balances := s.balances.insert a (perturb (nextU64 s.rng).2 old).1 }
            (a, (perturb (nextU64 s.rng).2 old).1) :=
          .updated mem rfl rfl rfl (perturb_bounds _ (consistent.bounded a old held).2)
        obtain ⟨s', es, rest, emitted, same, ids, short, full⟩ := ih (consistent.emits step)
        refine ⟨s', _ :: es, ?_, .cons step emitted, ⟨same.1, same.2⟩, ids, Nat.succ_le_succ short,
          fun live => congrArg Nat.succ (full live)⟩
        simp only [drawn, held, rest, Option.bind_eq_bind, Option.bind_some, Option.pure_def]

end Stream

section Genesis

/-- The feed after the first `n` accounts of the genesis loop. -/
def genesis (cfg : MockConfig) (n : Nat) : MockFeed :=
  let made := (List.range n).foldl MockFeed.genesisStep (cfg.seed, [], ∅)
  ⟨cfg, made.1, made.2.1, made.2.2, 0, n⟩

theorem new_eq (cfg : MockConfig) :
    MockFeed.new cfg = if cfg.changesPerBlock < cfg.insertsPerBlock + cfg.deletesPerBlock then none
      else some (genesis cfg cfg.numGenesisKeys) := rfl

/-- A genesis account enters the way an inserted one does. -/
theorem genesis_emits (cfg : MockConfig) {n : Nat} (ids : n + 1 < 2 ^ 64) :
    ∃ b, Emits (genesis cfg n) (genesis cfg (n + 1)) (addressFor n, b) := by
  have bounds := randomBalance_bounds (genesis cfg n).rng
  have step : genesis cfg (n + 1) = { genesis cfg n with
      rng := (randomBalance (genesis cfg n).rng).2
      live := (genesis cfg n).live ++ [addressFor n]
      balances := (genesis cfg n).balances.insert (addressFor n) (randomBalance (genesis cfg n).rng).1
      nextId := n + 1 } := by
    unfold genesis
    rw [List.range_succ, List.foldl_append]
    rfl
  exact ⟨_, .inserted (congrArg MockFeed.live step) (congrArg MockFeed.balances step) rfl ids bounds⟩

theorem genesis_consistent (cfg : MockConfig) {n : Nat} (ids : n < 2 ^ 64) :
    Consistent (genesis cfg n) := by
  induction n with
  | zero =>
      refine ⟨List.nodup_nil, fun k => ?_, fun k b held => ?_, nofun, ids⟩
      · simp [genesis]
      · simp [genesis] at held
  | succ n ih =>
      obtain ⟨b, step⟩ := genesis_emits cfg ids
      exact (ih (by omega)).emits step

/-- The snapshot never misses an index, and it replays to the map. -/
theorem snapshot_spec {s : MockFeed} (consistent : Consistent s) :
    ∃ entries, s.snapshot = some entries ∧ Recorded s entries := by
  obtain ⟨entries, read⟩ : ∃ entries, s.snapshot = some entries := by
    unfold MockFeed.snapshot
    have held := fun a mem => (consistent.live a).mp mem
    generalize s.live = l at held
    induction l with
    | nil => exact ⟨[], rfl⟩
    | cons a l ih =>
        obtain ⟨b, here⟩ := held a List.mem_cons_self
        obtain ⟨rest, read⟩ := ih fun k mem => held k (List.mem_cons_of_mem a mem)
        exact ⟨(a, b) :: rest, mapM_eq_some_iff.mpr (.cons (by rw [here]; rfl)
          (mapM_eq_some_iff.mp read))⟩
  have pairs := mapM_eq_some_iff.mp read
  have names : named entries = s.live := by
    clear read
    generalize s.live = l at pairs
    induction pairs with
    | nil => rfl
    | cons first _ ih =>
        obtain ⟨b, -, rfl⟩ := Option.map_eq_some_iff.mp first
        exact congrArg _ ih
  have holds : ∀ e ∈ entries, s.balances[e.1]? = some e.2 := by
    intro e mem
    obtain ⟨a, -, taken⟩ := exists_of_mapM read mem
    obtain ⟨b, held, rfl⟩ := Option.map_eq_some_iff.mp taken
    exact held
  have nonzero : ∀ e ∈ entries, e.2 ≠ 0 := fun e mem => (consistent.bounded _ _ (holds e mem)).1.ne'
  refine ⟨entries, read, fun k => ?_, fun e mem => (consistent.bounded _ _ (holds e mem)).2, ?_, ?_, ?_⟩
  · by_cases mem : k ∈ named entries
    · obtain ⟨e, entry, rfl⟩ := List.mem_map.mp mem
      have last := lastWrite_of_mem (names ▸ consistent.nodup) (k := e.1) (v := e.2) entry
      rw [writes_apply, last, holds e entry]
      exact (if_neg (nonzero e entry)).symm
    · rw [writes_of_notMem mem]
      rw [names, consistent.live] at mem
      exact Option.eq_none_iff_forall_ne_some.mpr fun b held => mem ⟨b, held⟩
  · intro e mem
    exact consistent.used e.1 (names ▸ List.mem_map_of_mem mem)
  · exact fun k gone => absurd rfl (nonzero _ gone)
  · rintro before k after rfl
    exact absurd rfl (nonzero (k, 0) (by simp))

end Genesis

section Blocks

variable {s : MockFeed}

/-- Every block that finds a live account at its update phase has all its changes. -/
def Full (s : MockFeed) (n : Nat) (us : List BlockUpdate) : Prop :=
  ∀ i t ts mid deleted inserted, i < n → s.run i = some (t, ts) →
    t.beforeUpdates = some (mid, deleted, inserted) → mid.live ≠ [] →
    ∃ u, us[i]? = some u ∧ u.changes.length = s.cfg.changesPerBlock

/-- One call: it never panics, it keeps the model and it emits as many changes as it can. -/
theorem nextBlock_spec (consistent : Consistent s)
    (enough : s.cfg.insertsPerBlock + s.cfg.deletesPerBlock ≤ s.cfg.changesPerBlock)
    (ids : s.nextId + s.cfg.insertsPerBlock < 2 ^ 64) :
    ∃ s' u, s.nextBlock = some (s', u) ∧ Consistent s' ∧
      (∀ before, Recorded s before → Recorded s' (before ++ u.changes)) ∧ s'.cfg = s.cfg ∧
      s'.nextId = s.nextId + s.cfg.insertsPerBlock ∧ u.changes.length ≤ s.cfg.changesPerBlock ∧
      ∀ mid deleted inserted, s.beforeUpdates = some (mid, deleted, inserted) → mid.live ≠ [] →
        u.changes.length = s.cfg.changesPerBlock := by
  have counted : Consistent { s with block := s.block + 1 } :=
    ⟨consistent.nodup, consistent.live, consistent.bounded, consistent.used, consistent.ids⟩
  have recount : ∀ before, Recorded s before → Recorded { s with block := s.block + 1 } before :=
    fun before h => ⟨h.replay, h.small, h.used, h.retired, h.final⟩
  obtain ⟨s₁, deleted, delete, emits₁, same₁, ids₁, few₁⟩ := deletes_spec s.cfg.deletesPerBlock counted
  have kept₁ := emits₁.consistent counted
  obtain ⟨s₂, inserted, insert, emits₂, same₂, ids₂, many₂⟩ := inserts_spec s.cfg.insertsPerBlock kept₁
    (ids₁ ▸ ids)
  have kept₂ := emits₂.consistent kept₁
  obtain ⟨s₃, updated, update, emits₃, same₃, ids₃, few₃, full₃⟩ := updates_spec
    (s.cfg.changesPerBlock - deleted.length - s.cfg.insertsPerBlock) kept₂
  have cfg₁ : s₁.cfg = s.cfg := same₁.1
  have cfg₂ : s₂.cfg = s.cfg := same₂.1.trans cfg₁
  have before : s.beforeUpdates = some (s₂, deleted, inserted) := by
    rw [MockFeed.beforeUpdates, delete]
    dsimp only [Option.bind_eq_bind, Option.bind_some]
    rw [cfg₁, insert]
    rfl
  have called : s.nextBlock = some (s₃, ⟨s₃.block, deleted ++ inserted ++ updated, []⟩) := by
    rw [MockFeed.nextBlock, before]
    dsimp only [Option.bind_eq_bind, Option.bind_some]
    rw [cfg₂, update]
    rfl
  refine ⟨s₃, _, called, emits₃.consistent kept₂, fun es h => ?_, same₃.1.trans cfg₂, ?_, ?_, ?_⟩
  · have whole := (emits₁.append emits₂).append emits₃
    exact whole.recorded counted (recount es h)
  · rw [ids₃, ids₂, ids₁]
  · rw [List.length_append, List.length_append, many₂]
    omega
  · intro mid deleted' inserted' reached live
    obtain ⟨rfl, -, -⟩ : s₂ = mid ∧ deleted = deleted' ∧ inserted = inserted' := by
      simpa using before.symm.trans reached
    rw [List.length_append, List.length_append, many₂, full₃ live]
    omega

/-- A number of calls from a consistent feed, whatever it has emitted before. -/
theorem run_spec (n : Nat) (consistent : Consistent s)
    (enough : s.cfg.insertsPerBlock + s.cfg.deletesPerBlock ≤ s.cfg.changesPerBlock)
    (ids : s.nextId + n * s.cfg.insertsPerBlock < 2 ^ 64) {before : List (AddressHash × Balance)}
    (recorded : Recorded s before) :
    ∃ s' us, s.run n = some (s', us) ∧ us.length = n ∧ Consistent s' ∧
      Recorded s' (before ++ us.flatMap (·.changes)) ∧
      (∀ u ∈ us, u.changes.length ≤ s.cfg.changesPerBlock) ∧ Full s n us := by
  induction n generalizing s before with
  | zero => exact ⟨s, [], rfl, rfl, consistent, by simpa using recorded, nofun, fun _ _ _ _ _ _ h => by omega⟩
  | succ n ih =>
      rw [add_one_mul] at ids
      obtain ⟨t, u, called, kept, record, cfg, next, few, full⟩ := nextBlock_spec consistent enough
        (by omega)
      have ids' : t.nextId + n * t.cfg.insertsPerBlock < 2 ^ 64 := by
        rw [cfg, next]
        omega
      obtain ⟨s', us, rest, count, kept', recorded', short, whole⟩ := ih kept (cfg ▸ enough) ids'
        (record before recorded)
      have ran : s.run (n + 1) = some (s', u :: us) := by
        rw [MockFeed.run, called]
        dsimp only [Option.bind_eq_bind, Option.bind_some]
        rw [rest]
        rfl
      refine ⟨s', u :: us, ran, congrArg Nat.succ count, kept', ?_, ?_, ?_⟩
      · rwa [List.flatMap_cons, ← List.append_assoc]
      · intro v mem
        rcases List.mem_cons.mp mem with rfl | mem
        · exact few
        · exact cfg ▸ short v mem
      · intro i t' ts mid deleted inserted below reached phase live
        cases i with
        | zero =>
            obtain ⟨rfl, -⟩ : s = t' ∧ [] = ts := by simpa [MockFeed.run] using reached
            exact ⟨u, rfl, full mid deleted inserted phase live⟩
        | succ i =>
            rw [MockFeed.run, called] at reached
            dsimp only [Option.bind_eq_bind, Option.bind_some] at reached
            obtain ⟨⟨t'', ts'⟩, there, same⟩ := Option.bind_eq_some_iff.mp reached
            obtain ⟨rfl, -⟩ : t'' = t' ∧ u :: ts' = ts := by simpa using same
            rw [List.getElem?_cons_succ, ← cfg]
            exact whole i t'' ts' mid deleted inserted (by omega) there phase live

/-- The mock feed is an exact oracle: whatever it has emitted replays to its balances, its live keys
are the accounts with a balance, its blocks are as full as they can be, its amounts fit 96 bits, and
a deleted account stays deleted. -/
theorem mock_oracle (cfg : MockConfig) (feed₀ : MockFeed) (accepted : MockFeed.new cfg = some feed₀)
    (n : Nat) (ids : cfg.numGenesisKeys + n * cfg.insertsPerBlock < 2 ^ 64) :
    ∃ entries feed us, feed₀.snapshot = some entries ∧ feed₀.run n = some (feed, us) ∧
      us.length = n ∧
      (∀ k, feed.balanceOf k = amount (writes (fun _ => none) (entries ++ us.flatMap (·.changes))) k) ∧
      feed.liveKeys.Nodup ∧ (∀ k, k ∈ feed.liveKeys ↔ feed.balanceOf k ≠ 0) ∧
      (∀ u ∈ us, u.changes.length ≤ cfg.changesPerBlock) ∧
      (∀ i t ts mid deleted inserted, i < n → feed₀.run i = some (t, ts) →
        t.beforeUpdates = some (mid, deleted, inserted) → mid.live ≠ [] →
        ∃ u, us[i]? = some u ∧ u.changes.length = cfg.changesPerBlock) ∧
      (∀ e ∈ entries ++ us.flatMap (·.changes), e.2 < 2 ^ 96) ∧
      NeverBack (entries ++ us.flatMap (·.changes)) := by
  rw [new_eq] at accepted
  split_ifs at accepted with few
  obtain rfl := Option.some.inj accepted
  have consistent := genesis_consistent cfg (by omega : cfg.numGenesisKeys < 2 ^ 64)
  obtain ⟨entries, read, recorded⟩ := snapshot_spec consistent
  obtain ⟨feed, us, ran, count, kept, record, short, full⟩ := run_spec n consistent
    (Nat.le_of_not_lt few) ids recorded
  refine ⟨entries, feed, us, read, ran, count, fun k => ?_, kept.nodup, fun k => ?_, short, full,
    record.small, record.final⟩
  · rw [MockFeed.balanceOf, record.replay k, amount]
  · rw [MockFeed.liveKeys, kept.live k, MockFeed.balanceOf]
    constructor
    · rintro ⟨b, held⟩
      rw [held]
      exact (kept.bounded k b held).1.ne'
    · intro nonzero
      cases held : feed.balances[k]? with
      | none => simp [held] at nonzero
      | some b => exact ⟨b, rfl⟩

theorem mock_oracle_small : ∃ feed₀ entries feed us,
    MockFeed.new ⟨99, 5, 6, 1, 2⟩ = some feed₀ ∧ feed₀.snapshot = some entries ∧
      feed₀.run 3 = some (feed, us) ∧ us.length = 3 ∧
      (∀ k, feed.balanceOf k = amount (writes (fun _ => none) (entries ++ us.flatMap (·.changes))) k) ∧
      NeverBack (entries ++ us.flatMap (·.changes)) := by
  obtain ⟨entries, feed, us, read, ran, count, replayed, -, -, -, -, -, final⟩ :=
    mock_oracle ⟨99, 5, 6, 1, 2⟩ (genesis ⟨99, 5, 6, 1, 2⟩ 5) rfl 3 (by decide)
  exact ⟨_, entries, feed, us, rfl, read, ran, count, replayed, final⟩

end Blocks

end RisePir.Feed.Mock
