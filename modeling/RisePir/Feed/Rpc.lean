import RisePir.Lib.Digits
import RisePir.Lib.KeyedAmounts
import RisePir.Proto.Types

set_option autoImplicit false
set_option relaxedAutoImplicit false

/-! The JSON-RPC feed behind its JSON: what a block's diff-mode trace and its withdrawals say, and
the update that the server consumes. -/

namespace RisePir.Feed.Rpc

open RisePir.Lib.Digits
open RisePir.Lib.Sparse
open RisePir.Lib.KeyedAmounts
open RisePir.Proto.Types
open Std (ExtTreeMap)

/-- The 20 bytes of an account's address, as one word. -/
abbrev Address := BitVec 160

instance : LawfulBEq Address := inferInstance

instance : Std.TransCmp (compare : Address → Address → Ordering) := inferInstance

/-- The account that twenty bytes name. -/
def addressOf (bytes : List UInt8) : Address := BitVec.ofNat 160 (leNat bytes)

theorem addressOf_inj {bytes bytes' : List UInt8} (length : bytes.length = 20)
    (length' : bytes'.length = 20) (same : addressOf bytes = addressOf bytes') : bytes = bytes' := by
  have small : ∀ b : List UInt8, b.length = 20 → leNat b < 2 ^ 160 := by
    intro b size
    have bound := leNat_lt b
    rw [size] at bound
    exact bound
  apply leNat_inj (length.trans length'.symm)
  have words := congrArg BitVec.toNat same
  rwa [addressOf, addressOf, BitVec.toNat_ofNat, BitVec.toNat_ofNat,
    Nat.mod_eq_of_lt (small bytes length), Nat.mod_eq_of_lt (small bytes' length')] at words

def WEI_PER_GWEI : Nat := 10 ^ 9

/-- One transaction's `pre` and `post` objects; of `post` each account's `balance`, if it has one. -/
structure TxDiff where
  pre : List Address
  post : List (Address × Option Balance)
  deriving DecidableEq, Repr

/-- A block as an endpoint returns it: one diff a transaction, and the withdrawals in gwei. -/
structure TracedBlock where
  trace : List TxDiff
  withdrawals : List (Address × Nat)
  deriving DecidableEq, Repr

inductive FeedError
  | parse (method detail : String)
  deriving DecidableEq, Repr

namespace TxDiff

/-- The loop over `post`. -/
def recordPost (map : ExtTreeMap Address Balance) (tx : TxDiff) : ExtTreeMap Address Balance :=
  tx.post.foldl (fun m e => match e.2 with
    | some wei => m.insert e.1 wei
    | none => m) map

/-- The loop over `pre`: what is gone from `post` was destroyed. -/
def recordPre (map : ExtTreeMap Address Balance) (tx : TxDiff) : ExtTreeMap Address Balance :=
  tx.pre.foldl (fun m addr => if addr ∈ tx.post.map Prod.fst then m else m.insert addr 0) map

/-- The accounts whose balance the transaction changed, with the balance it left. -/
def balances (tx : TxDiff) : List (Address × Balance) :=
  tx.post.filterMap (fun e => e.2.map (Prod.mk e.1)) ++
    (tx.pre.filter fun addr => addr ∉ tx.post.map Prod.fst).map (Prod.mk · 0)

end TxDiff

namespace TracedBlock

/-- The accounts that the block's transactions changed, the last entry of an account being its
balance behind them. -/
def posted (block : TracedBlock) : List (Address × Balance) := block.trace.flatMap TxDiff.balances

/-- The withdrawals in wei. -/
def credits (block : TracedBlock) : List (Address × Balance) :=
  block.withdrawals.map fun w => (w.1, w.2 * WEI_PER_GWEI)

end TracedBlock

/-- `changes_from_trace` of diffs that spell each account one way: one entry for each account that
any transaction changed. -/
def changesFromTrace (trace : List TxDiff) : List (Address × Balance) :=
  (trace.foldl (fun map tx => TxDiff.recordPre (TxDiff.recordPost map tx) tx)
    (∅ : ExtTreeMap Address Balance)).toList

/-- `credits_from_block`: one entry for each withdrawal, in wei. -/
def creditsFromBlock (withdrawals : List (Address × Nat)) : Except FeedError (List (Address × Balance)) :=
  match withdrawals.findIdx? fun w => 2 ^ 128 ≤ w.2 * WEI_PER_GWEI with
  | none => .ok (withdrawals.map fun w => (w.1, w.2 * WEI_PER_GWEI))
  | some i => .error (.parse "eth_getBlockByNumber" s!"withdrawals[{i}]: amount overflows wei")

/-- The hashed update, and the raw views that reconciliation samples from. -/
structure FetchedBlock where
  update : BlockUpdate
  changed : List (Address × Balance)
  credited : List (Address × Balance)
  deriving DecidableEq, Repr

/-- Entries under the store's keys. -/
def hashed (keccak256 : Address → AddressHash) (es : List (Address × Balance)) :
    List (AddressHash × Balance) := es.map fun e => (keccak256 e.1, e.2)

/-- `block_update_on`, once the endpoint has returned block `n`. -/
def blockUpdate (keccak256 : Address → AddressHash) (n : Nat) (block : TracedBlock) :
    Except FeedError FetchedBlock := do
  let credited ← creditsFromBlock block.withdrawals
  let changed := changesFromTrace block.trace
  return ⟨⟨n, hashed keccak256 changed, hashed keccak256 credited⟩, changed, credited⟩

section Changes

variable {map : ExtTreeMap Address Balance} {addr : Address}

private theorem recordPost_get (tx : TxDiff) : (TxDiff.recordPost map tx)[addr]? =
    (lastWrite (tx.post.filterMap fun e => e.2.map (Prod.mk e.1)) addr).or map[addr]? := by
  rw [TxDiff.recordPost]
  generalize tx.post = post
  induction post generalizing map with
  | nil => rfl
  | cons e post ih =>
      obtain ⟨a, balance⟩ := e
      rw [List.foldl_cons, ih]
      cases balance with
      | none => rfl
      | some wei =>
          have entry : ((a, some wei) :: post).filterMap (fun e => e.2.map (Prod.mk e.1)) =
              (a, wei) :: post.filterMap fun e => e.2.map (Prod.mk e.1) := rfl
          rw [entry, lastWrite, Option.or_assoc, ExtTreeMap.getElem?_insert]
          by_cases here : a = addr <;> simp [here]

private theorem recordPre_get (tx : TxDiff) : (TxDiff.recordPre map tx)[addr]? =
    (lastWrite ((tx.pre.filter fun a => a ∉ tx.post.map Prod.fst).map (Prod.mk · 0)) addr).or
      map[addr]? := by
  rw [TxDiff.recordPre]
  generalize tx.pre = pre
  induction pre generalizing map with
  | nil => rfl
  | cons a pre ih =>
      rw [List.foldl_cons, ih]
      by_cases gone : a ∉ tx.post.map Prod.fst
      · rw [if_neg gone, List.filter_cons_of_pos (by simpa using gone), List.map_cons, lastWrite,
          Option.or_assoc, ExtTreeMap.getElem?_insert]
        by_cases here : a = addr <;> simp [here]
      · rw [if_pos (not_not.mp gone), List.filter_cons_of_neg (by simpa using gone)]

/-- After the loop an account has the balance that the last transaction to change it left. -/
private theorem record_get (trace : List TxDiff) :
    (trace.foldl (fun map tx => TxDiff.recordPre (TxDiff.recordPost map tx) tx) map)[addr]? =
      (lastWrite (trace.flatMap TxDiff.balances) addr).or map[addr]? := by
  induction trace generalizing map with
  | nil => rfl
  | cons tx trace ih =>
      rw [List.foldl_cons, ih, recordPre_get, recordPost_get, List.flatMap_cons, lastWrite_append,
        TxDiff.balances, lastWrite_append, Option.or_assoc, Option.or_assoc]

private theorem lastWrite_toList (map : ExtTreeMap Address Balance) (addr : Address) :
    lastWrite map.toList addr = map[addr]? := by
  have nodup : (named map.toList).Nodup := by
    rw [named, ExtTreeMap.map_fst_toList_eq_keys]
    exact ExtTreeMap.nodup_keys
  cases h : map[addr]? with
  | some wei => exact lastWrite_of_mem nodup (ExtTreeMap.mem_toList_iff_getElem?_eq_some.mpr h)
  | none =>
      rw [lastWrite_eq_none, named, List.mem_map]
      rintro ⟨⟨a, wei⟩, mem, rfl⟩
      rw [ExtTreeMap.mem_toList_iff_getElem?_eq_some.mp mem] at h
      cases h

/-- The change set names an account exactly when a transaction changed it, with the balance it had
after the block's last transaction. -/
theorem changesFromTrace_last (trace : List TxDiff) (addr : Address) :
    lastWrite (changesFromTrace trace) addr = lastWrite (trace.flatMap TxDiff.balances) addr := by
  rw [changesFromTrace, lastWrite_toList, record_get, ExtTreeMap.getElem?_empty, Option.or_none]

theorem mem_changesFromTrace {trace : List TxDiff} :
    addr ∈ named (changesFromTrace trace) ↔ addr ∈ named (trace.flatMap TxDiff.balances) := by
  rw [← not_iff_not, ← lastWrite_eq_none, ← lastWrite_eq_none, changesFromTrace_last]

end Changes

theorem mem_named_hashed {keccak256 : Address → AddressHash} {es : List (Address × Balance)}
    {k : AddressHash} : k ∈ named (hashed keccak256 es) ↔ ∃ e ∈ es, keccak256 e.1 = k := by
  rw [named, hashed, List.map_map, List.mem_map]
  rfl

theorem blockUpdate_ok {keccak256 : Address → AddressHash} {n : Nat} {block : TracedBlock}
    {fetched : FetchedBlock} (h : blockUpdate keccak256 n block = .ok fetched) :
    fetched = ⟨⟨n, hashed keccak256 (changesFromTrace block.trace), hashed keccak256 block.credits⟩,
      changesFromTrace block.trace, block.credits⟩ := by
  rw [blockUpdate, creditsFromBlock] at h
  cases overflows : block.withdrawals.findIdx? fun w => 2 ^ 128 ≤ w.2 * WEI_PER_GWEI with
  | none =>
      rw [overflows] at h
      exact (Except.ok.inj h).symm
  | some i =>
      rw [overflows] at h
      cases h

end RisePir.Feed.Rpc
