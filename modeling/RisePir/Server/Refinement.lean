import RisePir.Lib.KeyedAmounts
import RisePir.Server.Effect

set_option autoImplicit false
set_option relaxedAutoImplicit false

/-! The store against a map from keys to balances. Each occupied slot is the entry of one
live key, and what a write does to the slots is what it does to the map, as long as no two
keys in play compete for a slot. -/

namespace RisePir.Server.Refinement

open RisePir.Lib.KeyedAmounts
open RisePir.Proto.Types
open RisePir.Proto.Value
open RisePir.Proto.Value.ValueCodec
open RisePir.Upstream.Cuckoo
open RisePir.Upstream.Pir
open RisePir.Upstream.Slots
open RisePir.Server.Verified
open RisePir.Server.Core
open RisePir.Server.Effect

variable {p : CuckooParams} {B : PirBackend}

/-- The map that the store stands for. -/
abbrev Balances : Type := Ledger AddressHash

section Keys

variable (C : SegmentedCuckoo p) (codec : ValueCodec)

/-- Two keys that the verified scan cannot tell apart: they share a candidate bucket, the
fingerprint and the key tag. -/
def Conflict (k k' : AddressHash) : Prop :=
  C.fp k = C.fp k' ∧ codec.keyTag k = codec.keyTag k' ∧ ∃ bucket ∈ C.buckets k, bucket ∈ C.buckets k'

instance (k k' : AddressHash) : Decidable (Conflict C codec k k') :=
  inferInstanceAs (Decidable (_ ∧ _))

variable {C codec} in
theorem Conflict.symm {k k' : AddressHash} (h : Conflict C codec k k') : Conflict C codec k' k := by
  obtain ⟨hfp, htag, bucket, hb, hb'⟩ := h
  exact ⟨hfp.symm, htag.symm, bucket, hb', hb⟩

/-- No live key other than `k` competes with `k`. -/
def Clear (m : Balances) (k : AddressHash) : Prop :=
  ∀ k', m k' ≠ none → k' ≠ k → ¬ Conflict C codec k' k

/-- The slot is occupied. -/
def Occupied (cells : List (BitVec 32)) (s : Nat × Nat) : Prop :=
  p.IsSlot s ∧ (C.slotAt cells s).1 ≠ 0

/-- Every occupied slot holds its owner's entry, every live key owns a slot, and none two. -/
structure Owned (cells : List (BitVec 32)) (m : Balances) (owner : Nat × Nat → AddressHash) :
    Prop where
  entry : ∀ s, Occupied C cells s → (C.slotAt cells s).1 = C.fp (owner s) ∧
    s.1 ∈ C.buckets (owner s) ∧
      ∃ b, m (owner s) = some b ∧ codec.decode (owner s) (C.slotAt cells s).2 = .found b
  placed : ∀ k b, m k = some b → ∃ s, Occupied C cells s ∧ owner s = k
  once : ∀ s s', Occupied C cells s → Occupied C cells s' → owner s = owner s' → s = s'

/-- The cells are the entries of the map `m`. -/
def Represents (cells : List (BitVec 32)) (m : Balances) : Prop := ∃ owner, Owned C codec cells m owner

end Keys

variable {C : SegmentedCuckoo p} {codec : ValueCodec}

section Reading

variable {cells : List (BitVec 32)} {m : Balances} {owner : Nat × Nat → AddressHash}

/-- An empty table stands for the empty map. -/
theorem represents_empty (h : ∀ s, ¬ Occupied C cells s) :
    Represents C codec cells fun _ => none :=
  ⟨fun _ => 0, fun s hs => absurd hs (h s), fun _ _ hb => by simp at hb,
    fun s _ hs => absurd hs (h s)⟩

/-- The slots that a clear key's scan matches are the slots it owns. -/
theorem Owned.mem_ownSlots (laws : C.PlacementLaws) (h : Owned C codec cells m owner)
    {k : AddressHash} (clear : Clear C codec m k) {s : Nat × Nat} :
    s ∈ ownSlots C codec cells k ↔ Occupied C cells s ∧ owner s = k := by
  rw [Verified.mem_ownSlots, tagMatch_iff]
  constructor
  · rintro ⟨hprobe, hfp, htag⟩
    have occupied : Occupied C cells s :=
      ⟨isSlot_of_mem_probe laws hprobe, by rw [hfp]; exact (laws.fp_range k).1.ne'⟩
    obtain ⟨hfp', hbucket, b, hb, hdec⟩ := h.entry s occupied
    refine ⟨occupied, ?_⟩
    by_contra hne
    refine clear (owner s) (by simp [hb]) hne ⟨hfp' ▸ hfp, ?_, s.1, hbucket, (mem_probe.mp hprobe).1⟩
    rw [← extractKeyTag_of_decode_found hdec, htag]
  · rintro ⟨occupied, rfl⟩
    obtain ⟨hfp, hbucket, b, -, hdec⟩ := h.entry s occupied
    exact ⟨mem_probe.mpr ⟨hbucket, occupied.1.2⟩, hfp, extractKeyTag_of_decode_found hdec⟩

theorem Owned.ownSlots_absent (laws : C.PlacementLaws) (h : Owned C codec cells m owner)
    {k : AddressHash} (clear : Clear C codec m k) (hk : m k = none) :
    ownSlots C codec cells k = [] := by
  refine List.eq_nil_iff_forall_not_mem.mpr fun s hs => ?_
  obtain ⟨occupied, rfl⟩ := (h.mem_ownSlots laws clear).mp hs
  obtain ⟨-, -, b, hb, -⟩ := h.entry s occupied
  rw [hk] at hb
  cases hb

private theorem eq_singleton {α : Type} {l : List α} {a : α} (nodup : l.Nodup) (mem : a ∈ l)
    (all : ∀ b ∈ l, b = a) : l = [a] := by
  cases l with
  | nil => cases mem
  | cons b l =>
      obtain rfl := all b (by simp)
      cases l with
      | nil => rfl
      | cons c l =>
          have hc := all c (by simp)
          subst hc
          simp at nodup

theorem Owned.ownSlots_live (laws : C.PlacementLaws) (h : Owned C codec cells m owner)
    {k : AddressHash} (clear : Clear C codec m k) {b : Balance} (hk : m k = some b) :
    ∃ s, ownSlots C codec cells k = [s] ∧ Occupied C cells s ∧ owner s = k ∧
      codec.decode k (C.slotAt cells s).2 = .found b := by
  obtain ⟨s, occupied, rfl⟩ := h.placed k b hk
  have nodup : (ownSlots C codec cells (owner s)).Nodup := (probe_nodup laws _).filter _
  have all : ∀ s' ∈ ownSlots C codec cells (owner s), s' = s := by
    intro s' hs'
    obtain ⟨occupied', howner⟩ := (h.mem_ownSlots laws clear).mp hs'
    exact h.once s' s occupied' occupied howner
  have mem : s ∈ ownSlots C codec cells (owner s) :=
    (h.mem_ownSlots laws clear).mpr ⟨occupied, rfl⟩
  obtain ⟨-, -, b', hb', hdec⟩ := h.entry s occupied
  rw [hk] at hb'
  cases hb'
  exact ⟨s, eq_singleton nodup mem all, occupied, rfl, hdec⟩

/-- A clear key reads its balance in the map. -/
theorem Represents.get_eq (laws : C.PlacementLaws) (h : Represents C codec cells m)
    {k : AddressHash} (clear : Clear C codec m k) : Verified.get C codec cells k = .ok (m k) := by
  obtain ⟨owner, owned⟩ := h
  cases hk : m k with
  | none => exact get_absent (owned.ownSlots_absent laws clear hk)
  | some b =>
      obtain ⟨s, hown, -, -, hdec⟩ := owned.ownSlots_live laws clear hk
      rw [get_unique laws hown, hdec]

end Reading

section Writing

variable {cells cells' : List (BitVec 32)} {m : Balances} {owner : Nat × Nat → AddressHash}

/-- Rewriting the entry of a key in its own slot. -/
private theorem Owned.update (laws : C.PlacementLaws) (h : Owned C codec cells m owner)
    {s : Nat × Nat} (occupied : Occupied C cells s) {balance : Balance} {bytes : List UInt8}
    (hne : balance ≠ 0) (henc : codec.encode (owner s) balance = .ok bytes)
    (rewritten : Rewritten C cells cells' s (C.fp (owner s), bytes)) :
    Owned C codec cells' (write m (owner s, balance)) owner := by
  have still : ∀ t, Occupied C cells' t ↔ Occupied C cells t := by
    intro t
    refine and_congr_right fun ht => ?_
    by_cases hts : t = s
    · subst hts
      rw [rewritten.self]
      exact ⟨fun _ => occupied.2, fun _ => (laws.fp_range _).1.ne'⟩
    · rw [rewritten.other t ht hts]
  have stored_balance : stored balance = some balance := if_neg hne
  refine ⟨fun t ht => ?_, fun k b hk => ?_, fun t t' ht ht' heq =>
    h.once t t' ((still t).mp ht) ((still t').mp ht') heq⟩
  · have ht := (still t).mp ht
    by_cases hts : t = s
    · subst hts
      rw [rewritten.self, write_apply, if_pos rfl]
      exact ⟨rfl, (h.entry t ht).2.1, balance, stored_balance, decode_encode henc⟩
    · have hne : owner t ≠ owner s := fun heq => hts (h.once t s ht occupied heq)
      rw [rewritten.other t ht.1 hts, write_apply, if_neg hne]
      exact h.entry t ht
  · rw [write_apply] at hk
    split at hk
    · rename_i heq
      exact ⟨s, (still s).mpr occupied, heq.symm⟩
    · obtain ⟨t, ht, rfl⟩ := h.placed k b hk
      exact ⟨t, (still t).mpr ht, rfl⟩

/-- Vacating a key's own slot. -/
private theorem Owned.delete (h : Owned C codec cells m owner) {s : Nat × Nat}
    (occupied : Occupied C cells s) {content : Nat × List UInt8} (vacant : content.1 = 0)
    (rewritten : Rewritten C cells cells' s content) :
    Owned C codec cells' (write m (owner s, 0)) owner := by
  have still : ∀ t, Occupied C cells' t ↔ Occupied C cells t ∧ t ≠ s := by
    intro t
    constructor
    · rintro ⟨ht, hocc⟩
      by_cases hts : t = s
      · subst hts
        rw [rewritten.self] at hocc
        exact absurd vacant hocc
      · rw [rewritten.other t ht hts] at hocc
        exact ⟨⟨ht, hocc⟩, hts⟩
    · rintro ⟨⟨ht, hocc⟩, hne⟩
      refine ⟨ht, ?_⟩
      rw [rewritten.other t ht hne]
      exact hocc
  refine ⟨fun t ht => ?_, fun k b hk => ?_, fun t t' ht ht' heq =>
    h.once t t' ((still t).mp ht).1 ((still t').mp ht').1 heq⟩
  · obtain ⟨ht, hne⟩ := (still t).mp ht
    have howner : owner t ≠ owner s := fun heq => hne (h.once t s ht occupied heq)
    rw [rewritten.other t ht.1 hne, write_apply, if_neg howner]
    exact h.entry t ht
  · rw [write_apply] at hk
    split at hk
    · cases hk
    · rename_i hne
      obtain ⟨t, ht, rfl⟩ := h.placed k b hk
      exact ⟨t, (still t).mpr ⟨ht, fun heq => hne (heq ▸ rfl)⟩, rfl⟩

/-- Inserting a new key; the entries that were kicked keep their owners. -/
private theorem Owned.insert (laws : C.PlacementLaws) (h : Owned C codec cells m owner) {addr : AddressHash} {balance : Balance}
    {bytes : List UInt8} (hne : balance ≠ 0) (henc : codec.encode addr balance = .ok bytes)
    (fresh : m addr = none) {target : Nat × Nat} {source : Nat × Nat → Option (Nat × Nat)}
    (inserted : C.Inserted cells cells' addr bytes target source)
    (entry : C.slotAt cells' target = (C.fp addr, bytes)) :
    Represents C codec cells' (write m (addr, balance)) := by
  have htarget : p.IsSlot target := isSlot_of_mem_probe laws inserted.target_probe
  have occupiedTarget : Occupied C cells' target :=
    ⟨htarget, by rw [entry]; exact (laws.fp_range addr).1.ne'⟩
  -- an occupied slot other than the target holds an entry that was there before
  have origin : ∀ s, Occupied C cells' s → s ≠ target → ∃ s₀, source s = some s₀ ∧
      Occupied C cells s₀ ∧ C.slotAt cells' s = C.slotAt cells s₀ ∧
      ∀ other, C.fp other = (C.slotAt cells s₀).1 → s₀.1 ∈ C.buckets other →
        s.1 ∈ C.buckets other := by
    rintro s ⟨hs, hocc⟩ hst
    cases hsource : source s with
    | none => exact absurd (inserted.vacant s hs hst hsource) hocc
    | some s₀ =>
        obtain ⟨hs₀, hocc₀, hsame, hcand⟩ := inserted.moved s s₀ hs hst hsource
        exact ⟨s₀, rfl, ⟨hs₀, hocc₀⟩, congrArg C.unpackSlotCells hsame, hcand⟩
  have live : ∀ s₀, Occupied C cells s₀ → owner s₀ ≠ addr := by
    intro s₀ hs₀ heq
    obtain ⟨-, -, b, hb, -⟩ := h.entry s₀ hs₀
    rw [heq, fresh] at hb
    cases hb
  let owner' : Nat × Nat → AddressHash := fun s =>
    if s = target then addr else ((source s).map owner).getD addr
  have ownerTarget : owner' target = addr := if_pos rfl
  have ownerMoved : ∀ s s₀, s ≠ target → source s = some s₀ → owner' s = owner s₀ := by
    intro s s₀ hst hsource
    simp only [owner', if_neg hst, hsource, Option.map_some, Option.getD_some]
  refine ⟨owner', fun s hs => ?_, fun k b hk => ?_, fun s s' hs hs' heq => ?_⟩
  · by_cases hst : s = target
    · subst hst
      rw [ownerTarget, entry, write_apply, if_pos rfl]
      exact ⟨rfl, (mem_probe.mp inserted.target_probe).1, balance, if_neg hne, decode_encode henc⟩
    · obtain ⟨s₀, hsource, hs₀, hsame, hcand⟩ := origin s hs hst
      obtain ⟨hfp, hbucket, b, hb, hdec⟩ := h.entry s₀ hs₀
      rw [ownerMoved s s₀ hst hsource, hsame, write_apply, if_neg (live s₀ hs₀)]
      exact ⟨hfp, hcand _ hfp.symm hbucket, b, hb, hdec⟩
  · rw [write_apply] at hk
    split at hk
    · rename_i heq
      exact ⟨target, occupiedTarget, ownerTarget.trans heq.symm⟩
    · obtain ⟨s₀, hs₀, rfl⟩ := h.placed k b hk
      obtain ⟨s, ⟨hs, hst, hsource⟩, -⟩ := inserted.kept s₀ hs₀.1 hs₀.2
      refine ⟨s, ⟨hs, ?_⟩, ownerMoved s s₀ hst hsource⟩
      obtain ⟨-, hocc₀, hsame, -⟩ := inserted.moved s s₀ hs hst hsource
      rw [SegmentedCuckoo.slotAt, hsame]
      exact hocc₀
  · by_cases hst : s = target
    · by_cases hst' : s' = target
      · rw [hst, hst']
      · obtain ⟨s₀, hsource, hs₀, -, -⟩ := origin s' hs' hst'
        rw [hst, ownerTarget, ownerMoved s' s₀ hst' hsource] at heq
        exact absurd heq.symm (live s₀ hs₀)
    · obtain ⟨s₀, hsource, hs₀, -, -⟩ := origin s hs hst
      by_cases hst' : s' = target
      · rw [hst', ownerTarget, ownerMoved s s₀ hst hsource] at heq
        exact absurd heq (live s₀ hs₀)
      · obtain ⟨s₀', hsource', hs₀', -, -⟩ := origin s' hs' hst'
        rw [ownerMoved s s₀ hst hsource, ownerMoved s' s₀' hst' hsource'] at heq
        have same := h.once s₀ s₀' hs₀ hs₀' heq
        obtain ⟨_, -, unique⟩ := inserted.kept s₀ hs₀.1 hs₀.2
        exact (unique s ⟨hs.1, hst, hsource⟩).trans
          (unique s' ⟨hs'.1, hst', same ▸ hsource'⟩).symm

/-- Whatever a successful change does to the slots, it writes its balance into the map. -/
theorem Represents.change (laws : C.PlacementLaws) (h : Represents C codec cells m)
    {addr : AddressHash} {balance : Balance} (clear : Clear C codec m addr)
    (effect : ChangeEffect C codec cells cells' addr balance) :
    Represents C codec cells' (write m (addr, balance)) := by
  obtain ⟨owner, owned⟩ := h
  have fresh : ownSlots C codec cells addr = [] → m addr = none := by
    intro hown
    cases hm : m addr with
    | none => rfl
    | some b =>
        obtain ⟨s, hs, -, -, -⟩ := owned.ownSlots_live laws clear hm
        rw [hown] at hs
        cases hs
  have own : ∀ s, ownSlots C codec cells addr = [s] → Occupied C cells s ∧ owner s = addr :=
    fun s hs => (owned.mem_ownSlots laws clear).mp (by simp [hs])
  cases effect with
  | noop absent zero same =>
      have unchanged : write m (addr, balance) = m := by
        funext k
        rw [write_apply]
        split
        · rename_i hk
          rw [hk, fresh absent, zero]
          rfl
        · rfl
      rw [unchanged, same]
      exact ⟨owner, owned⟩
  | delete s content hown zero vacant rewritten =>
      obtain ⟨occupied, rfl⟩ := own s hown
      rw [zero]
      exact ⟨owner, owned.delete occupied vacant rewritten⟩
  | update s bytes hown nonzero encoded rewritten =>
      obtain ⟨occupied, rfl⟩ := own s hown
      exact ⟨owner, owned.update laws occupied nonzero encoded rewritten⟩
  | insert target source bytes absent nonzero encoded inserted entry =>
      exact owned.insert laws nonzero encoded (fresh absent) inserted entry

end Writing

end RisePir.Server.Refinement
