import RisePir.Feed.Snapshot
import RisePir.Server.Dispatch
import RisePir.Server.Refinement

set_option autoImplicit false
set_option relaxedAutoImplicit false

/-! The bootstrap from a snapshot. Its sink inserts every row raw, without the scan that looks
before it writes, so an address that is listed twice gets two slots of its own. -/

namespace RisePir.Rpc.Bootstrap

open RisePir.Lib.KeyedAmounts
open RisePir.Proto.Types
open RisePir.Proto.Value
open RisePir.Proto.Value.ValueCodec
open RisePir.Upstream.Cuckoo
open RisePir.Upstream.Pir
open RisePir.Upstream.ReferencePir
open RisePir.Upstream.ReferenceTable
open RisePir.Upstream.Slots
open RisePir.Server.Core
open RisePir.Server.Dispatch (Relocated relocated_of_inserted)
open RisePir.Server.Effect
open RisePir.Server.Refinement
open RisePir.Server.Small
open RisePir.Server.Verified
open RisePir.Feed.Snapshot

variable {p : CuckooParams} {C : SegmentedCuckoo p} {B : PirBackend} {codec : ValueCodec}

/-- The `Display` of a `ValueError`. -/
def displayValueError : ValueError → String
  | .balanceOverflow => "balance does not fit in balance_bits"
  | .invalidWidth => "key_tag_bits must be <= 64, balance_bits must be <= 128, and " ++
      "checksum_bits must be <= 64"

/-- The closure that `spawn` hands to `ingest`; the audit's sample and the progress lines do not
touch the store. -/
def snapshotSink (C : SegmentedCuckoo p) (codec : ValueCodec) (_addr20 : List UInt8)
    (key : AddressHash) (balance : Balance) (t : Table C) : Except String (Table C) :=
  match codec.encode key balance with
  | .error e => .error (displayValueError e)
  | .ok encoded =>
      match C.insert t.rng t.store key encoded with
      | (rng, .ok store) => .ok ⟨rng, store⟩
      | (_, .error e) => .error (debugError e)

section Sinking

variable {t t' : Table C} {addr20 : List UInt8} {key : AddressHash} {balance : Balance}

theorem snapshotSink_ok (laws : C.PlacementLaws) (bits : codec.valueBits = p.valueBits)
    (h : snapshotSink C codec addr20 key balance t = .ok t') :
    ∃ bytes target source, codec.encode key balance = .ok bytes ∧
      C.Inserted t.store.cells t'.store.cells key bytes target source ∧
      C.slotAt t'.store.cells target = (C.fp key, bytes) := by
  unfold snapshotSink at h
  cases encoded : codec.encode key balance with
  | error e =>
      rw [encoded] at h
      cases h
  | ok bytes =>
      rw [encoded] at h
      dsimp only at h
      cases inserted : C.insert t.rng t.store key bytes with
      | mk rng r =>
          rw [inserted] at h
          cases r with
          | error e => cases h
          | ok store =>
              cases h
              obtain ⟨target, source, placed⟩ := laws.insert_empty _ _ _ _ _ _ inserted
              refine ⟨bytes, target, source, rfl, placed, ?_⟩
              rw [SegmentedCuckoo.slotAt, placed.target_content]
              exact unpack_slotContent laws bits encoded

/-- A raw insert leaves every key its own slots, moved, and gives its own key one more. -/
theorem snapshotSink_ownSlots (laws : C.PlacementLaws) (bits : codec.valueBits = p.valueBits)
    (h : snapshotSink C codec addr20 key balance t = .ok t') (other : AddressHash) :
    (ownSlots C codec t.store.cells other).length + (if key = other then 1 else 0) ≤
      (ownSlots C codec t'.store.cells other).length := by
  obtain ⟨bytes, target, source, encoded, inserted, entry⟩ := snapshotSink_ok laws bits h
  obtain ⟨move, relocated⟩ := relocated_of_inserted inserted
  have occupied : ∀ s ∈ ownSlots C codec t.store.cells other,
      Server.Dispatch.Occupied C t.store.cells s := by
    intro s hs
    obtain ⟨probed, tagged⟩ := mem_ownSlots.mp hs
    refine ⟨isSlot_of_mem_probe laws probed, ?_⟩
    rw [(tagMatch_iff.mp tagged).1]
    have := (laws.fp_range other).1
    omega
  have moved : ((ownSlots C codec t.store.cells other).map move).Nodup := by
    apply List.Nodup.map_on
    · intro s hs s' hs' same
      exact relocated.injective s s' (occupied s hs) (occupied s' hs') same
    · exact (probe_nodup laws other).filter _
  have inside : ∀ s ∈ (ownSlots C codec t.store.cells other).map move,
      s ∈ ownSlots C codec t'.store.cells other ∧ s ≠ target := by
    intro s hs
    obtain ⟨s₀, hs₀, rfl⟩ := List.mem_map.mp hs
    exact ⟨(relocated.ownSlots laws hs₀).1, (relocated.apart s₀ (occupied s₀ hs₀)).2⟩
  by_cases same : key = other
  · subst same
    have own : target ∈ ownSlots C codec t'.store.cells key := by
      rw [mem_ownSlots, tagMatch_iff, entry]
      exact ⟨inserted.target_probe, rfl, extractKeyTag_encode encoded⟩
    have nodup : (target :: (ownSlots C codec t.store.cells key).map move).Nodup := by
      rw [List.nodup_cons]
      exact ⟨fun mem => (inside target mem).2 rfl, moved⟩
    have sub : target :: (ownSlots C codec t.store.cells key).map move ⊆
        ownSlots C codec t'.store.cells key := by
      intro s hs
      rcases List.mem_cons.mp hs with rfl | hs
      · exact own
      · exact (inside s hs).1
    have le := (List.subperm_of_subset nodup sub).length_le
    rw [List.length_cons, List.length_map] at le
    rwa [if_pos rfl]
  · have le := (List.subperm_of_subset moved fun s hs => (inside s hs).1).length_le
    rw [List.length_map] at le
    rwa [if_neg same]

/-- A raw insert of a key that no live key competes with, and that is not live. -/
theorem snapshotSink_represents (laws : C.PlacementLaws) (bits : codec.valueBits = p.valueBits)
    {m : Balances} (h : Represents C codec t.store.cells m) (clear : Clear C codec m key)
    (fresh : m key = none) (nonzero : balance ≠ 0)
    (step : snapshotSink C codec addr20 key balance t = .ok t') :
    Represents C codec t'.store.cells (write m (key, balance)) := by
  obtain ⟨bytes, target, source, encoded, inserted, entry⟩ := snapshotSink_ok laws bits step
  obtain ⟨owner, owned⟩ := h
  have absent := owned.ownSlots_absent laws clear fresh
  exact Represents.change laws ⟨owner, owned⟩ clear
    (.insert target source bytes absent nonzero encoded inserted entry)

end Sinking

section Rows

variable {keccak256 : List UInt8 → AddressHash} {t t' : Table C} {rows : List (List UInt8 × Balance)}

/-- The sink over the rows with a balance. -/
def sinkRows (C : SegmentedCuckoo p) (codec : ValueCodec) (keccak256 : List UInt8 → AddressHash)
    (rows : List (List UInt8 × Balance)) (t : Table C) : Except String (Table C) :=
  rows.foldlM (fun t row => snapshotSink C codec row.1 (keccak256 row.1) row.2 t) t

theorem sinkRows_cons {row : List UInt8 × Balance}
    (h : sinkRows C codec keccak256 (row :: rows) t = .ok t') :
    ∃ mid, snapshotSink C codec row.1 (keccak256 row.1) row.2 t = .ok mid ∧
      sinkRows C codec keccak256 rows mid = .ok t' := by
  rw [sinkRows, List.foldlM_cons] at h
  cases step : snapshotSink C codec row.1 (keccak256 row.1) row.2 t with
  | error e =>
      rw [step] at h
      cases h
  | ok mid =>
      rw [step] at h
      exact ⟨mid, rfl, h⟩

/-- Every row leaves one more slot to its key. -/
theorem sinkRows_ownSlots (laws : C.PlacementLaws) (bits : codec.valueBits = p.valueBits)
    (h : sinkRows C codec keccak256 rows t = .ok t') (key : AddressHash) :
    (rows.map fun row => keccak256 row.1).count key ≤ (ownSlots C codec t'.store.cells key).length := by
  have grows : (ownSlots C codec t.store.cells key).length +
      (rows.map fun row => keccak256 row.1).count key ≤
        (ownSlots C codec t'.store.cells key).length := by
    induction rows generalizing t with
    | nil =>
        cases h
        simp
    | cons row rows ih =>
        obtain ⟨mid, step, rest⟩ := sinkRows_cons h
        have one := snapshotSink_ownSlots laws bits step key
        have more := ih rest
        rw [List.map_cons, List.count_cons]
        simp only [beq_iff_eq]
        omega
  omega

/-- Two distinct addresses of `inPlay` have keys that do not compete for a slot. -/
def Apart (C : SegmentedCuckoo p) (codec : ValueCodec) (keccak256 : List UInt8 → AddressHash)
    (inPlay : List UInt8 → Prop) : Prop :=
  ∀ a a', inPlay a → inPlay a' → a ≠ a' → ¬ Conflict C codec (keccak256 a) (keccak256 a')

theorem conflict_self (laws : C.PlacementLaws) (key : AddressHash) : Conflict C codec key key := by
  have length := laws.buckets_length key
  have two := p.arity_range.1
  cases buckets : C.buckets key with
  | nil =>
      rw [buckets, List.length_nil] at length
      omega
  | cons bucket rest => exact ⟨rfl, rfl, bucket, by simp [buckets], by simp [buckets]⟩

variable {inPlay : List UInt8 → Prop}

/-- Keys apart are those of different addresses. -/
theorem Apart.injective (laws : C.PlacementLaws) (apart : Apart C codec keccak256 inPlay)
    {a a' : List UInt8} (ha : inPlay a) (ha' : inPlay a') (same : keccak256 a = keccak256 a') :
    a = a' := by
  by_contra hne
  apply apart a a' ha ha' hne
  rw [same]
  exact conflict_self laws _

/-- A map whose live keys are in play leaves every key in play clear. -/
theorem Apart.clear (apart : Apart C codec keccak256 inPlay) {m : Balances}
    (live : ∀ k, m k ≠ none → ∃ a, inPlay a ∧ keccak256 a = k) {a : List UInt8} (ha : inPlay a) :
    Clear C codec m (keccak256 a) := by
  intro k hk hne
  obtain ⟨a', ha', rfl⟩ := live k hk
  apply apart a' a ha' ha
  rintro rfl
  exact hne rfl

/-- Rows of different addresses, each with a balance: the store is their map. -/
theorem sinkRows_represents (laws : C.PlacementLaws) (bits : codec.valueBits = p.valueBits)
    (apart : Apart C codec keccak256 inPlay) {m : Balances} (start : Represents C codec t.store.cells m)
    (live : ∀ k, m k ≠ none → ∃ a, inPlay a ∧ keccak256 a = k)
    (inside : ∀ row ∈ rows, inPlay row.1 ∧ row.2 ≠ 0 ∧ m (keccak256 row.1) = none)
    (once : (rows.map Prod.fst).Nodup) (h : sinkRows C codec keccak256 rows t = .ok t') :
    Represents C codec t'.store.cells (writes m (rows.map fun row => (keccak256 row.1, row.2))) := by
  induction rows generalizing t m with
  | nil =>
      cases h
      exact start
  | cons row rows ih =>
      obtain ⟨mid, step, rest⟩ := sinkRows_cons h
      obtain ⟨play, nonzero, fresh⟩ := inside row (by simp)
      obtain ⟨once_row, once_rows⟩ := List.nodup_cons.mp once
      have first := snapshotSink_represents laws bits start (apart.clear live play) fresh nonzero step
      apply ih first _ _ once_rows rest
      · intro k hk
        rw [write_apply] at hk
        split_ifs at hk with same
        · exact ⟨row.1, play, same.symm⟩
        · exact live k hk
      · intro other hother
        obtain ⟨play', nonzero', fresh'⟩ := inside other (List.mem_cons_of_mem _ hother)
        refine ⟨play', nonzero', ?_⟩
        rw [write_apply, if_neg, fresh']
        intro same
        have eq := apart.injective laws play' play same
        exact once_row (List.mem_map.mpr ⟨other, hother, eq⟩)

end Rows

theorem balanceOf_eq_ok {server : RisePirServer C B} {key : AddressHash} {b : Option Balance} :
    server.balanceOf key = .ok b ↔
      Server.Verified.get C server.valueCodec server.store.cells key = .ok b := by
  unfold RisePirServer.balanceOf
  cases Server.Verified.get C server.valueCodec server.store.cells key with
  | ok balance => simp
  | error e => cases e <;> simp

/-- The rows of a snapshot that the sink takes. -/
def sunkRows (debug : List Char → String) (shards : List Shard) : List (List UInt8 × Balance) :=
  (listedRows debug shards).filter fun row => row.2 ≠ 0

/-- The server answers what the snapshot lists, for every address in play. -/
structure Exact (debug : List Char → String) (keccak256 : List UInt8 → AddressHash)
    (inPlay : List UInt8 → Prop) (shards : List Shard) (server : RisePirServer C B) : Prop where
  listed : ∀ row ∈ listedRows debug shards, row.2 ≠ 0 →
    server.balanceOf (keccak256 row.1) = .ok (some row.2)
  unlisted : ∀ a, inPlay a → (∀ row ∈ listedRows debug shards, row.1 = a → row.2 = 0) →
    server.balanceOf (keccak256 a) = .ok none

section Contract

variable {debug : List Char → String} {keccak256 : List UInt8 → AddressHash}
  {inPlay : List UInt8 → Prop} {shards : List Shard} {t₀ t : Table C} {server : RisePirServer C B}

theorem mem_sunkRows {row : List UInt8 × Balance} :
    row ∈ sunkRows debug shards ↔ row ∈ listedRows debug shards ∧ row.2 ≠ 0 := by
  simp [sunkRows]

theorem exact_of_once (laws : C.PlacementLaws) (bits : codec.valueBits = p.valueBits)
    (empty : ∀ s, ¬ Occupied C t₀.store.cells s)
    (sunk : sinkRows C codec keccak256 (sunkRows debug shards) t₀ = .ok t)
    (cells : server.store.cells = t.store.cells) (codec_eq : server.valueCodec = codec)
    (listed : ∀ row ∈ sunkRows debug shards, inPlay row.1)
    (apart : Apart C codec keccak256 inPlay)
    (once : ((sunkRows debug shards).map Prod.fst).Nodup) :
    Exact debug keccak256 inPlay shards server := by
  have represents := sinkRows_represents laws bits apart (represents_empty empty) (by simp)
    (fun row hrow => ⟨listed row hrow, (mem_sunkRows.mp hrow).2, rfl⟩) once sunk
  have live : ∀ k, writes (fun _ => none) ((sunkRows debug shards).map fun row =>
      (keccak256 row.1, row.2)) k ≠ none → ∃ a, inPlay a ∧ keccak256 a = k := by
    intro k hk
    by_cases named : k ∈ named ((sunkRows debug shards).map fun row => (keccak256 row.1, row.2))
    · simp only [List.map_map, List.mem_map, Function.comp] at named
      obtain ⟨row, hrow, rfl⟩ := named
      exact ⟨row.1, listed row hrow, rfl⟩
    · exact absurd (writes_of_notMem named) hk
  have read : ∀ a, inPlay a → server.balanceOf (keccak256 a) = .ok (writes (fun _ => none)
      ((sunkRows debug shards).map fun row => (keccak256 row.1, row.2)) (keccak256 a)) := by
    intro a ha
    rw [balanceOf_eq_ok, cells, codec_eq]
    exact represents.get_eq laws (apart.clear live ha)
  constructor
  · intro row hrow nonzero
    have mem := mem_sunkRows.mpr ⟨hrow, nonzero⟩
    have renamed : lastWrite ((sunkRows debug shards).map fun row => (keccak256 row.1, row.2))
        (keccak256 row.1) = lastWrite (sunkRows debug shards) row.1 := by
      apply lastWrite_map
      intro other hother same
      exact apart.injective laws (listed other hother) (listed row mem) same
    rw [read row.1 (listed row mem), writes_apply, renamed, lastWrite_of_mem once mem]
    exact congrArg Except.ok (if_neg nonzero)
  · intro a ha zero
    rw [read a ha, writes_of_notMem]
    simp only [List.map_map, List.mem_map, Function.comp]
    rintro ⟨row, hrow, same⟩
    obtain ⟨mem, nonzero⟩ := mem_sunkRows.mp hrow
    exact nonzero (zero row mem (apart.injective laws (listed row hrow) ha same))

/-- An address with two rows has two slots of its own, and is read as an ambiguity. -/
theorem once_of_exact (laws : C.PlacementLaws) (bits : codec.valueBits = p.valueBits)
    (sunk : sinkRows C codec keccak256 (sunkRows debug shards) t₀ = .ok t)
    (cells : server.store.cells = t.store.cells) (codec_eq : server.valueCodec = codec)
    (exact : Exact debug keccak256 inPlay shards server) :
    ((sunkRows debug shards).map Prod.fst).Nodup := by
  rw [List.nodup_iff_count_le_one]
  intro a
  by_contra twice
  have slots := sinkRows_ownSlots laws bits sunk (keccak256 a)
  have count : ((sunkRows debug shards).map Prod.fst).count a ≤
      ((sunkRows debug shards).map fun row => keccak256 row.1).count (keccak256 a) := by
    have mapped : ((sunkRows debug shards).map Prod.fst).count a ≤
        (((sunkRows debug shards).map Prod.fst).map keccak256).count (keccak256 a) :=
      List.count_le_count_map
    simpa [List.map_map, Function.comp_def] using mapped
  have mem : a ∈ (sunkRows debug shards).map Prod.fst := List.count_pos_iff.mp (by omega)
  obtain ⟨row, hrow, rfl⟩ := List.mem_map.mp mem
  obtain ⟨hlisted, nonzero⟩ := mem_sunkRows.mp hrow
  have answered := exact.listed row hlisted nonzero
  rw [balanceOf_eq_ok, cells, codec_eq] at answered
  match own : ownSlots C codec t.store.cells (keccak256 row.1) with
  | [] =>
      rw [own, List.length_nil] at slots
      omega
  | [s] =>
      rw [own, List.length_singleton] at slots
      omega
  | s :: s' :: rest =>
      rw [get_duplicate own] at answered
      cases answered

end Contract

/-- For every list of shards that the ingest accepts, over addresses whose keys do not compete:
the server answers the snapshot exactly when no address is listed twice with a balance. Either
way `count_rows` is the ingest's row count, and every data line was a row. -/
theorem bootstrap_exact_iff (laws : C.PlacementLaws) (bits : codec.valueBits = p.valueBits)
    (debug : List Char → String) (keccak256 : List UInt8 → AddressHash) {shards : List Shard}
    {t₀ t : Table C} {stats : SnapshotStats} (empty : ∀ s, ¬ Occupied C t₀.store.cells s)
    (accepted : ingest debug keccak256 (snapshotSink C codec) shards t₀ = .ok (stats, t))
    (config : B.Config) (coins : Nat → B.Coins) (genesisBlock : Nat) (inPlay : List UInt8 → Prop)
    (listed : ∀ row ∈ sunkRows debug shards, inPlay row.1) (apart : Apart C codec keccak256 inPlay) :
    (Exact debug keccak256 inPlay shards
        (RisePirServer.new t.store config coins codec genesisBlock bits : RisePirServer C B) ↔
      ((sunkRows debug shards).map Prod.fst).Nodup) ∧
      countRows debug shards = .ok stats.rows ∧
      ∀ shard ∈ shards, ∀ line ∈ shard.dataLines, ∃ row, parseRow debug line.2 = .ok row := by
  obtain ⟨all, counted, -, sunk⟩ := ingest_ok accepted
  refine ⟨⟨?_, ?_⟩, counted, ?_⟩
  · intro exact
    exact once_of_exact laws bits sunk rfl rfl exact
  · intro once
    exact exact_of_once laws bits empty sunk rfl rfl listed apart once
  · intro shard hshard
    exact (all shard hshard).parses

section Snapshots

/-- An address by its last byte. -/
private def shortAddress (last : UInt8) : List UInt8 := List.replicate 19 0 ++ [last]

/-- A stand-in for the digest that keeps the short addresses' tags apart. -/
private def shortDigest (bytes : List UInt8) : AddressHash := smallKey (bytes.getLastD 0).toNat 1 0 0

private def quoted (text : List Char) : String := String.ofList text

/-- The row of a short address. -/
private def shortRow (last wei : String) : String :=
  "0x00000000000000000000000000000000000000" ++ last ++ "," ++ wei ++ "\n"

/-- A header, a row with a balance and one without. -/
private def plainShard : Shard :=
  ⟨"a.csv", .ok (("address,eth_balance\n" ++ shortRow "01" "5" ++ shortRow "02" "0").toList, none)⟩

/-- One address in two rows. -/
private def repeatedShard : Shard :=
  ⟨"b.csv", .ok ((shortRow "01" "5" ++ shortRow "01" "7").toList, none)⟩

private def blankTable : Table (referenceTable smallParams) := ⟨draw 0, emptyStore smallParams⟩

private def bootstrapped (t : Table (referenceTable smallParams)) : SmallServer :=
  .new t.store ⟨1, 1⟩ (fun j => ⟨BitVec.ofNat 128 j, []⟩) smallCodec 0 smallCodec_width

private def bootstrap (shard : Shard) :
    Except SnapshotError (SnapshotStats × Table (referenceTable smallParams)) :=
  ingest quoted shortDigest (snapshotSink (referenceTable smallParams) smallCodec) [shard] blankTable

private theorem bootstrap_ok {shard : Shard} (h : (bootstrap shard).toOption.isSome = true) :
    ∃ stats t, bootstrap shard = .ok (stats, t) := by
  cases hout : bootstrap shard with
  | error e =>
      rw [hout] at h
      cases h
  | ok out => exact ⟨out.1, out.2, rfl⟩

/-- The header, the row of zero and the row of five. -/
theorem bootstrap_exact_iff_plain : ∃ stats t, bootstrap plainShard = .ok (stats, t) ∧
    (bootstrapped t).balanceOf (shortDigest (shortAddress 1)) = .ok (some 5) ∧
    (bootstrapped t).balanceOf (shortDigest (shortAddress 2)) = .ok none ∧
    countRows quoted [plainShard] = .ok stats.rows := by
  obtain ⟨stats, t, accepted⟩ := bootstrap_ok (show (bootstrap plainShard).toOption.isSome = true by
    decide +kernel)
  have rows : listedRows quoted [plainShard] = [(shortAddress 1, 5), (shortAddress 2, 0)] := by
    decide +kernel
  have sunk : sunkRows quoted [plainShard] = [(shortAddress 1, 5)] := by
    rw [sunkRows, rows]
    decide
  have empty : ∀ s, ¬ Occupied (referenceTable smallParams) blankTable.store.cells s := by
    intro s occupied
    exact occupied.2 (emptyStore_vacant occupied.1)
  have apart : Apart (referenceTable smallParams) smallCodec shortDigest
      fun a => a = shortAddress 1 ∨ a = shortAddress 2 := by
    rintro a a' (rfl | rfl) (rfl | rfl) hne
    · exact absurd rfl hne
    · decide
    · decide
    · exact absurd rfl hne
  obtain ⟨contract, counted, -⟩ := bootstrap_exact_iff (B := referencePir) (placementLaws smallParams)
    rfl quoted shortDigest empty accepted ⟨1, 1⟩ (fun j => ⟨BitVec.ofNat 128 j, []⟩) 0 _ (by simp [sunk]) apart
  have exact := contract.mpr (by simp [sunk])
  refine ⟨stats, t, accepted, ?_, ?_, counted⟩
  · exact exact.listed (shortAddress 1, 5) (by simp [rows]) (by decide)
  · apply exact.unlisted (shortAddress 2) (.inr rfl)
    rw [rows]
    decide

/-- Both rows are sunk, and the account cannot be read. -/
theorem repeated_address_ambiguous : ∃ stats t, bootstrap repeatedShard = .ok (stats, t) ∧
    (shortAddress 1, 5) ∈ listedRows quoted [repeatedShard] ∧
    (bootstrapped t).balanceOf (shortDigest (shortAddress 1)) =
      .error (.fingerprintAmbiguity false) := by
  obtain ⟨stats, t, accepted⟩ := bootstrap_ok (show (bootstrap repeatedShard).toOption.isSome = true by
    decide +kernel)
  have answer : (bootstrap repeatedShard).toOption.map (fun out =>
      (bootstrapped out.2).balanceOf (shortDigest (shortAddress 1))) =
        some (.error (.fingerprintAmbiguity false)) := by
    decide +kernel
  rw [accepted] at answer
  refine ⟨stats, t, accepted, by decide +kernel, ?_⟩
  simpa [Except.toOption] using answer

end Snapshots

end RisePir.Rpc.Bootstrap
