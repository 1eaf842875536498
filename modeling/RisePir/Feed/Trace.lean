import RisePir.Feed.Rpc
import RisePir.Lib.Digits
import RisePir.Lib.LastEffect
import RisePir.Lib.Text
import RisePir.Proto.Codec

set_option autoImplicit false
set_option relaxedAutoImplicit false

/-! `changes_from_trace` on the JSON that an endpoint returns. Every transaction's `post` object is
written into one map, and then its `pre` keys that are not keys of `post` are zeroed. That test
compares the keys as text, while the map is keyed on the addresses they name. -/

namespace RisePir.Feed.Trace

open RisePir.Lib.Digits
open RisePir.Lib.LastEffect
open RisePir.Lib.Sparse
open RisePir.Lib.Text
open RisePir.Proto.Codec (bind_eq_ok)
open RisePir.Proto.Types
open RisePir.Feed.Rpc
open Std (ExtTreeMap)

/-- `serde_json::Value`; an object lists its entries in the order of its map. -/
inductive Value
  | null
  | bool (b : Bool)
  | number (text : String)
  | string (text : String)
  | array (items : List Value)
  | object (fields : List (String × Value))

namespace Value

def get (v : Value) (key : String) : Option Value :=
  match v with
  | .object fields => fields.lookup key
  | _ => none

def asStr : Value → Option String
  | .string text => some text
  | _ => none

def asArray : Value → Option (List Value)
  | .array items => some items
  | _ => none

def asObject : Value → Option (List (String × Value))
  | .object fields => some fields
  | _ => none

end Value

variable (debug : String → String)

/-- `parse_hex_u128`; `debug` is the `Debug` form of a string. -/
def parseHexU128 (s : String) : Except String Balance :=
  match stripHexPrefix s.toList with
  | none => .error s!"expected 0x-hex quantity, got {debug s}"
  | some digits =>
      if digits = [] then .error s!"empty hex quantity: {debug s}"
      else
        match parseHex (2 ^ 128) digits with
        | some wei => .ok wei
        | none => .error s!"hex quantity does not fit u128: {debug s}"

/-- `parse_address`, its 20 bytes as one word that orders as they do. -/
def parseAddress (s : String) : Option Address := do
  let hex ← stripHexPrefix s.toList
  if hex.length ≠ 40 then none
  else
    let bytes ← hexBytes hex
    return BitVec.ofNat 160 (leNat bytes.reverse)

def parseErr (detail : String) : FeedError := .parse "debug_traceBlockByNumber" detail

/-- The `ctx` of transaction `i`. -/
def ctx (i : Nat) (what : String) : String := s!"tx[{i}]: {what}"

/-- The text of `opt`, or the error of transaction `i`. -/
def require {α : Type} (i : Nat) (what : String) : Option α → Except FeedError α
  | some a => .ok a
  | none => .error (parseErr (ctx i what))

abbrev Changes := ExtTreeMap Address Balance

/-- One entry of `post`. -/
def recordPost (i : Nat) (map : Changes) (e : String × Value) : Except FeedError Changes := do
  let addr ← require i "bad post address" (parseAddress e.1)
  match e.2.get "balance" with
  | none => return map
  | some b =>
      let b ← require i "post balance not a string" b.asStr
      match parseHexU128 debug b with
      | .ok wei => return map.insert addr wei
      | .error text => .error (parseErr (ctx i text))

/-- One entry of `pre`: what is not a key of `post` was destroyed. -/
def recordPre (i : Nat) (post : List (String × Value)) (map : Changes) (e : String × Value) :
    Except FeedError Changes :=
  if e.1 ∈ post.map Prod.fst then .ok map
  else do
    let addr ← require i "bad pre address" (parseAddress e.1)
    return map.insert addr 0

/-- One transaction. -/
def recordTx (map : Changes) (tx : Value × Nat) : Except FeedError Changes := do
  let result ← require tx.2 "missing result" (tx.1.get "result")
  match (result.get "error").bind Value.asStr with
  | some err => .error (parseErr (ctx tx.2 s!"tracer error: {err}"))
  | none =>
      let pre ← require tx.2 "missing pre object" ((result.get "pre").bind Value.asObject)
      let post ← require tx.2 "missing post object" ((result.get "post").bind Value.asObject)
      let map ← post.foldlM (recordPost debug tx.2) map
      pre.foldlM (recordPre tx.2 post) map

/-- `changes_from_trace`. -/
def changesFromTrace (trace : Value) : Except FeedError (List (Address × Balance)) :=
  match trace.asArray with
  | none => .error (parseErr "result is not an array")
  | some txs => do
      let map ← txs.zipIdx.foldlM (recordTx debug) ∅
      return map.toList

/-- A hex quantity below `2^128`. -/
def quantity (s : String) : Option Balance :=
  (stripHexPrefix s.toList).bind fun digits =>
    if digits ≠ [] ∧ digits.all (fun c => (hexValue c).isSome) ∧ hexNumeral 0 digits < 2 ^ 128 then
      some (hexNumeral 0 digits)
    else none

/-- A transaction's diff with the keys that its addresses are written under. -/
structure KeyedDiff where
  pre : List (String × Address)
  post : List (String × Address × Option Balance)
  deriving DecidableEq, Repr

/-- The diff itself, however it is written. -/
def KeyedDiff.diff (d : KeyedDiff) : TxDiff := ⟨d.pre.map Prod.snd, d.post.map Prod.snd⟩

/-- `addr` is in `pre` under a key that `post` does not have, and in `post` under another. -/
def KeyedDiff.Respelled (d : KeyedDiff) (addr : Address) : Prop :=
  (∃ p ∈ d.pre, p.2 = addr ∧ p.1 ∉ d.post.map Prod.fst) ∧ addr ∈ d.diff.post.map Prod.fst

/-- What a transaction makes of an account's balance, if it changes it. -/
def effect (tx : TxDiff) (addr : Address) : Option Balance :=
  match tx.post.lookup addr with
  | some balance => balance
  | none => if addr ∈ tx.pre then some 0 else none

/-- The effect of a block's transactions in order: the last one that changes the balance. -/
def status (txs : List TxDiff) (addr : Address) : Option Balance :=
  lastEffect (effect · addr) txs

section Reading

variable (number : String → Option Balance)

def readPre (e : String × Value) : Option (String × Address) := (parseAddress e.1).map (Prod.mk e.1)

def readPost (e : String × Value) : Option (String × Address × Option Balance) := do
  let addr ← parseAddress e.1
  match e.2.get "balance" with
  | none => return (e.1, addr, none)
  | some b =>
      let text ← b.asStr
      let wei ← number text
      return (e.1, addr, some wei)

/-- A transaction with a result, no tracer error, both objects, addresses for keys, and balances
that are numbers. -/
def readTx (tx : Value) : Option KeyedDiff := do
  let result ← tx.get "result"
  if ((result.get "error").bind Value.asStr).isSome then none
  else
    let pre ← (result.get "pre").bind Value.asObject
    let post ← (result.get "post").bind Value.asObject
    return ⟨← pre.mapM readPre, ← post.mapM (readPost number)⟩

/-- A trace whose transactions are all in diff form. -/
def readTrace (trace : Value) : Option (List KeyedDiff) := do
  let txs ← trace.asArray
  txs.mapM (readTx number)

end Reading

/-- No two keys of one `pre` or `post` object name the same address. -/
def NamesOnce (trace : Value) : Prop :=
  ∀ txs, trace.asArray = some txs → ∀ tx ∈ txs, ∀ result, tx.get "result" = some result →
    ∀ side ∈ ["pre", "post"], ∀ fields, (result.get side).bind Value.asObject = some fields →
      (fields.filterMap fun e => parseAddress e.1).Nodup

/-- A trace that is not in diff form is an error. One that is gives each account that a transaction
changed once, in ascending order, with the last balance it was left. -/
def ReadsTrace (trace : Value) : Prop :=
  match readTrace quantity trace with
  | none => ∃ e, changesFromTrace debug trace = .error e
  | some ds => ∃ out, changesFromTrace debug trace = .ok out ∧ out.Pairwise (fun e e' => e.1 < e'.1) ∧
      ∀ addr wei, (addr, wei) ∈ out ↔ status (ds.map KeyedDiff.diff) addr = some wei

/-- Where a transaction respells an account and no later one concerns it, it ends up empty. -/
def Settled (ds : List KeyedDiff) : Prop :=
  ∀ addr before d after, ds = before ++ d :: after → d.Respelled addr →
    (∀ later ∈ after, ¬ later.Respelled addr ∧ effect later.diff addr = none) →
      status ((before ++ [d]).map KeyedDiff.diff) addr = some 0

section Numbers

theorem quantity_eq_some {s : String} {wei : Balance} :
    quantity s = some wei ↔ IsQuantity (2 ^ 128) s.toList wei := by
  rw [quantity, Option.bind_eq_some_iff]
  constructor
  · rintro ⟨digits, stripped, read⟩
    obtain ⟨x, prefixed⟩ := stripHexPrefix_eq_some.mp stripped
    split_ifs at read with fits
    cases read
    exact ⟨x, digits, prefixed.1, prefixed.2, fits.1,
      List.all_eq_true.mp fits.2.1, rfl, fits.2.2⟩
  · rintro ⟨x, digits, text, prefixed, nonempty, hex, rfl, small⟩
    exact ⟨digits, stripHexPrefix_eq_some.mpr ⟨x, text, prefixed⟩,
      if_pos ⟨nonempty, List.all_eq_true.mpr hex, small⟩⟩

/-- What `parse_hex_u128` reads. -/
def lenient (s : String) : Option Balance := (stripHexPrefix s.toList).bind (parseHex (2 ^ 128))

variable {debug : String → String}

theorem parseHexU128_eq_ok {s : String} {wei : Balance} :
    parseHexU128 debug s = .ok wei ↔ lenient s = some wei := by
  unfold parseHexU128 lenient
  cases stripHexPrefix s.toList with
  | none => simp
  | some digits =>
      rw [Option.bind_some]
      by_cases empty : digits = []
      · simp [empty, parseHex]
      · simp only [if_neg empty]
        cases parseHex (2 ^ 128) digits <;> simp

theorem lenient_of_quantity {s : String} {wei : Balance} (h : quantity s = some wei) :
    lenient s = some wei :=
  (parseHex_stripped (by decide)).mpr (.inl (quantity_eq_some.mp h))

end Numbers

section Recording

variable {debug : String → String}

@[simp] theorem require_eq_ok {α : Type} {i : Nat} {what : String} {opt : Option α} {a : α} :
    require i what opt = .ok a ↔ opt = some a := by
  cases opt <;> simp [require]

/-- A read entry of `post` in the map. -/
def writePost (map : Changes) (r : String × Address × Option Balance) : Changes :=
  match r.2.2 with
  | some wei => map.insert r.2.1 wei
  | none => map

/-- A read entry of `pre` in the map, beside the keys of `post`. -/
def writePre (keys : List String) (map : Changes) (p : String × Address) : Changes :=
  if p.1 ∈ keys then map else map.insert p.2 0

/-- A read transaction in the map. -/
def KeyedDiff.record (map : Changes) (d : KeyedDiff) : Changes :=
  d.pre.foldl (writePre (d.post.map Prod.fst)) (d.post.foldl writePost map)

theorem recordPost_eq_ok {i : Nat} {map out : Changes} {e : String × Value} :
    recordPost debug i map e = .ok out ↔ ∃ r, readPost lenient e = some r ∧ writePost map r = out := by
  unfold recordPost readPost
  simp only [bind_eq_ok, require_eq_ok, Option.bind_eq_bind, Option.bind_eq_some_iff]
  constructor
  · rintro ⟨addr, named, h⟩
    cases found : e.2.get "balance" with
    | none =>
        rw [found] at h
        exact ⟨(e.1, addr, none), ⟨addr, named, rfl⟩, Except.ok.inj h⟩
    | some b =>
        rw [found] at h
        obtain ⟨text, isText, h⟩ := bind_eq_ok.mp h
        cases read : parseHexU128 debug text with
        | error reason =>
            rw [read] at h
            cases h
        | ok wei =>
            rw [read] at h
            refine ⟨(e.1, addr, some wei), ⟨addr, named, ?_⟩, Except.ok.inj h⟩
            exact Option.bind_eq_some_iff.mpr ⟨text, require_eq_ok.mp isText,
              Option.bind_eq_some_iff.mpr ⟨wei, parseHexU128_eq_ok.mp read, rfl⟩⟩
  · rintro ⟨r, ⟨addr, named, h⟩, rfl⟩
    refine ⟨addr, named, ?_⟩
    cases found : e.2.get "balance" with
    | none =>
        rw [found] at h
        cases h
        rfl
    | some b =>
        rw [found] at h
        obtain ⟨text, isText, h⟩ := Option.bind_eq_some_iff.mp h
        obtain ⟨wei, read, h⟩ := Option.bind_eq_some_iff.mp h
        cases h
        refine bind_eq_ok.mpr ⟨text, require_eq_ok.mpr isText, ?_⟩
        rw [(@parseHexU128_eq_ok debug text wei).mpr read]
        rfl

/-- Every key of `post` names an address by the time the keys of `pre` are read. -/
theorem recordPre_eq_ok {i : Nat} {post : List (String × Value)} {map out : Changes}
    (named : ∀ key ∈ post.map Prod.fst, (parseAddress key).isSome = true) {e : String × Value} :
    recordPre i post map e = .ok out ↔
      ∃ p, readPre e = some p ∧ writePre (post.map Prod.fst) map p = out := by
  unfold recordPre readPre writePre
  simp only [Option.map_eq_some_iff]
  by_cases kept : e.1 ∈ post.map Prod.fst
  · obtain ⟨addr, haddr⟩ := Option.isSome_iff_exists.mp (named e.1 kept)
    rw [if_pos kept]
    constructor
    · intro h
      exact ⟨(e.1, addr), ⟨addr, haddr, rfl⟩, (if_pos kept).trans (Except.ok.inj h)⟩
    · rintro ⟨p, ⟨addr', -, rfl⟩, rfl⟩
      rw [if_pos kept]
  · rw [if_neg kept, bind_eq_ok]
    simp only [require_eq_ok]
    constructor
    · rintro ⟨addr, haddr, h⟩
      exact ⟨(e.1, addr), ⟨addr, haddr, rfl⟩, (if_neg kept).trans (Except.ok.inj h)⟩
    · rintro ⟨p, ⟨addr, haddr, rfl⟩, rfl⟩
      exact ⟨addr, haddr, congrArg Except.ok (if_neg kept).symm⟩

theorem readPost_key {number : String → Option Balance} {e : String × Value}
    {r : String × Address × Option Balance} (h : readPost number e = some r) :
    r.1 = e.1 ∧ parseAddress e.1 = some r.2.1 := by
  unfold readPost at h
  obtain ⟨addr, named, h⟩ := Option.bind_eq_some_iff.mp h
  cases found : e.2.get "balance" with
  | none =>
      rw [found] at h
      cases h
      exact ⟨rfl, named⟩
  | some b =>
      rw [found] at h
      obtain ⟨text, -, h⟩ := Option.bind_eq_some_iff.mp h
      obtain ⟨wei, -, h⟩ := Option.bind_eq_some_iff.mp h
      cases h
      exact ⟨rfl, named⟩

/-- The keys of a read object are its own. -/
theorem keys_of_readPost {number : String → Option Balance} {post : List (String × Value)}
    {rs : List (String × Address × Option Balance)} (h : post.mapM (readPost number) = some rs) :
    rs.map Prod.fst = post.map Prod.fst ∧
      post.map (fun e => parseAddress e.1) = rs.map fun r => some r.2.1 := by
  have read := (mapM_eq_some_iff.mp h).imp fun _ _ => readPost_key
  constructor
  · rw [← List.forall₂_eq_eq_eq, List.forall₂_map_left_iff, List.forall₂_map_right_iff]
    exact (List.Forall₂.flip read).imp fun _ _ key => key.1
  · rw [← List.forall₂_eq_eq_eq, List.forall₂_map_left_iff, List.forall₂_map_right_iff]
    exact read.imp fun _ _ key => key.2

/-- The two loops over one transaction's objects. -/
theorem record_eq_ok {i : Nat} {pre post : List (String × Value)} {map out : Changes} :
    (∃ wrote, post.foldlM (recordPost debug i) map = .ok wrote ∧
        pre.foldlM (recordPre i post) wrote = .ok out) ↔
      ∃ ps, pre.mapM readPre = some ps ∧ ∃ rs, post.mapM (readPost lenient) = some rs ∧
        KeyedDiff.record map ⟨ps, rs⟩ = out := by
  have posted : ∀ wrote, post.foldlM (recordPost debug i) map = .ok wrote ↔
      ∃ rs, post.mapM (readPost lenient) = some rs ∧ rs.foldl writePost map = wrote :=
    fun wrote => foldlM_eq_ok fun e _ s t => @recordPost_eq_ok debug i s t e
  have zeroed : ∀ rs, post.mapM (readPost lenient) = some rs → ∀ wrote : Changes,
      (pre.foldlM (recordPre i post) wrote = .ok out ↔
        ∃ ps, pre.mapM readPre = some ps ∧
          ps.foldl (writePre (rs.map Prod.fst)) wrote = out) := by
    intro rs hrs wrote
    obtain ⟨keys, addrs⟩ := keys_of_readPost hrs
    have named : ∀ key ∈ post.map Prod.fst, (parseAddress key).isSome = true := by
      intro key hkey
      obtain ⟨e, he, rfl⟩ := List.mem_map.mp hkey
      have mem : parseAddress e.1 ∈ rs.map fun r => some r.2.1 := addrs ▸ List.mem_map_of_mem he
      obtain ⟨r, -, hr⟩ := List.mem_map.mp mem
      rw [← hr]
      rfl
    rw [keys]
    exact foldlM_eq_ok fun e _ s t => @recordPre_eq_ok i post s t named e
  constructor
  · rintro ⟨wrote, hpost, hpre⟩
    obtain ⟨rs, hrs, rfl⟩ := (posted wrote).mp hpost
    obtain ⟨ps, hps, hout⟩ := (zeroed rs hrs _).mp hpre
    exact ⟨ps, hps, rs, hrs, hout⟩
  · rintro ⟨ps, hps, rs, hrs, hout⟩
    exact ⟨_, (posted _).mpr ⟨rs, hrs, rfl⟩, (zeroed rs hrs _).mpr ⟨ps, hps, hout⟩⟩

theorem recordTx_eq_ok {map out : Changes} {tx : Value × Nat} :
    recordTx debug map tx = .ok out ↔ ∃ d, readTx lenient tx.1 = some d ∧ KeyedDiff.record map d = out := by
  unfold recordTx readTx
  rw [bind_eq_ok]
  simp only [require_eq_ok, Option.bind_eq_bind, Option.bind_eq_some_iff]
  constructor
  · rintro ⟨result, hresult, h⟩
    cases failed : (result.get "error").bind Value.asStr with
    | some err =>
        rw [failed] at h
        cases h
    | none =>
        rw [failed] at h
        obtain ⟨pre, hpre, h⟩ := bind_eq_ok.mp h
        obtain ⟨post, hpost, h⟩ := bind_eq_ok.mp h
        obtain ⟨ps, hps, rs, hrs, hout⟩ := record_eq_ok.mp (bind_eq_ok.mp h)
        refine ⟨⟨ps, rs⟩, ⟨result, hresult, ?_⟩, hout⟩
        rw [failed, require_eq_ok.mp hpre, require_eq_ok.mp hpost]
        simp [hps, hrs]
  · rintro ⟨d, ⟨result, hresult, h⟩, rfl⟩
    refine ⟨result, hresult, ?_⟩
    cases failed : (result.get "error").bind Value.asStr with
    | some err =>
        rw [failed] at h
        cases h
    | none =>
        rw [failed, Option.isSome_none, if_neg Bool.false_ne_true] at h
        obtain ⟨pre, hpre, h⟩ := Option.bind_eq_some_iff.mp h
        obtain ⟨post, hpost, h⟩ := Option.bind_eq_some_iff.mp h
        obtain ⟨ps, hps, h⟩ := Option.bind_eq_some_iff.mp h
        obtain ⟨rs, hrs, h⟩ := Option.bind_eq_some_iff.mp h
        cases h
        have loops := (@record_eq_ok debug tx.2 pre post map _).mpr ⟨ps, hps, rs, hrs, rfl⟩
        exact bind_eq_ok.mpr ⟨pre, require_eq_ok.mpr hpre, bind_eq_ok.mpr ⟨post, require_eq_ok.mpr hpost,
          bind_eq_ok.mpr loops⟩⟩

/-- The code accepts the traces that read with its own numbers, and records what they say. -/
theorem changesFromTrace_eq_ok {trace : Value} {out : List (Address × Balance)} :
    changesFromTrace debug trace = .ok out ↔
      ∃ ds, readTrace lenient trace = some ds ∧ (ds.foldl KeyedDiff.record ∅).toList = out := by
  unfold changesFromTrace readTrace
  cases trace.asArray with
  | none => simp
  | some txs =>
      have loop : ∀ map, txs.zipIdx.foldlM (recordTx debug) ∅ = .ok map ↔
          ∃ ds, txs.zipIdx.mapM (fun tx => readTx lenient tx.1) = some ds ∧
            ds.foldl KeyedDiff.record ∅ = map :=
        fun map => foldlM_eq_ok fun tx _ s t => @recordTx_eq_ok debug s t tx
      have unnumbered : txs.zipIdx.mapM (fun tx => readTx lenient tx.1) = txs.mapM (readTx lenient) := by
        have erased : (txs.zipIdx.map Prod.fst).mapM (readTx lenient) =
            txs.zipIdx.mapM fun tx => readTx lenient tx.1 := List.mapM_map
        rw [← erased, List.zipIdx_map_fst]
      rw [unnumbered] at loop
      constructor
      · intro h
        obtain ⟨map, hmap, h⟩ := bind_eq_ok.mp h
        obtain ⟨ds, read, rfl⟩ := (loop map).mp hmap
        exact ⟨ds, read, Except.ok.inj h⟩
      · rintro ⟨ds, read, rfl⟩
        exact bind_eq_ok.mpr ⟨_, (loop _).mpr ⟨ds, read, rfl⟩, rfl⟩

end Recording

section Effects

variable {map : Changes} {addr : Address}

/-- What the loops over a transaction make of an account. -/
def KeyedDiff.took (d : KeyedDiff) (addr : Address) : Option Balance :=
  if ∃ p ∈ d.pre, p.2 = addr ∧ p.1 ∉ d.post.map Prod.fst then some 0
  else (d.diff.post.lookup addr).join

private theorem writePost_get {rs : List (String × Address × Option Balance)}
    (once : (rs.map fun r => r.2.1).Nodup) :
    (rs.foldl writePost map)[addr]? = ((rs.map Prod.snd).lookup addr).join.or map[addr]? := by
  induction rs generalizing map with
  | nil => rfl
  | cons r rs ih =>
      obtain ⟨key, a, balance⟩ := r
      rw [List.map_cons, List.nodup_cons] at once
      rw [List.foldl_cons, ih once.2, List.map_cons, List.lookup_cons]
      by_cases here : addr = a
      · subst here
        have absent : (rs.map Prod.snd).lookup addr = none := by
          rw [List.lookup_eq_none_iff]
          intro r hr
          obtain ⟨r', hr', rfl⟩ := List.mem_map.mp hr
          rw [bne_iff_ne]
          exact fun same => once.1 (List.mem_map.mpr ⟨r', hr', same.symm⟩)
        rw [absent]
        cases balance <;> simp [writePost]
      · have apart : (addr == a) = false := by simpa using here
        rw [apart]
        cases balance with
        | none => rfl
        | some wei => simp [writePost, ExtTreeMap.getElem?_insert, Ne.symm here]

private theorem writePre_get (keys : List String) (ps : List (String × Address)) :
    (ps.foldl (writePre keys) map)[addr]? =
      if ∃ p ∈ ps, p.2 = addr ∧ p.1 ∉ keys then some 0 else map[addr]? := by
  induction ps generalizing map with
  | nil => simp
  | cons p ps ih =>
      rw [List.foldl_cons, ih]
      simp only [List.exists_mem_cons_iff]
      by_cases later : ∃ p ∈ ps, p.2 = addr ∧ p.1 ∉ keys
      · rw [if_pos later, if_pos (.inr later)]
      · rw [if_neg later]
        by_cases kept : p.1 ∈ keys
        · simp [writePre, kept, later]
        · have zeroed : writePre keys map p = map.insert p.2 0 := if_neg kept
          rw [zeroed, ExtTreeMap.getElem?_insert]
          by_cases here : p.2 = addr <;> simp [here, kept, later]

theorem record_get {d : KeyedDiff} (once : (d.post.map fun r => r.2.1).Nodup) :
    (KeyedDiff.record map d)[addr]? = (d.took addr).or map[addr]? := by
  rw [KeyedDiff.record, writePre_get, writePost_get once, KeyedDiff.took]
  split_ifs <;> rfl

theorem took_respelled {d : KeyedDiff} (h : d.Respelled addr) : d.took addr = some 0 := if_pos h.1

/-- A key of both objects names one address in both. -/
theorem held_of_kept {d : KeyedDiff} {p : String × Address} (before : parseAddress p.1 = some p.2)
    (after : ∀ r ∈ d.post, parseAddress r.1 = some r.2.1) (kept : p.1 ∈ d.post.map Prod.fst) :
    p.2 ∈ d.diff.post.map Prod.fst := by
  obtain ⟨r, hr, same⟩ := List.mem_map.mp kept
  have named := (after r hr).symm.trans (same ▸ before)
  rw [← Option.some.inj named]
  exact List.mem_map_of_mem (List.mem_map_of_mem hr)

/-- Under keys that name its addresses, a transaction takes effect where it respells nothing. -/
theorem took_eq_effect {d : KeyedDiff} (before : ∀ p ∈ d.pre, parseAddress p.1 = some p.2)
    (after : ∀ r ∈ d.post, parseAddress r.1 = some r.2.1) (h : ¬ d.Respelled addr) :
    d.took addr = effect d.diff addr := by
  unfold KeyedDiff.took effect
  cases found : d.diff.post.lookup addr with
  | some balance =>
      have held : addr ∈ d.diff.post.map Prod.fst := by
        obtain ⟨first, rest, split, -⟩ := List.lookup_eq_some_iff.mp found
        simp [split]
      rw [if_neg fun gone => h ⟨gone, held⟩]
      rfl
  | none =>
      have absent : addr ∉ d.diff.post.map Prod.fst := by
        rintro held
        obtain ⟨e, he, rfl⟩ := List.mem_map.mp held
        simpa using List.lookup_eq_none_iff.mp found e he
      have gone : (∃ p ∈ d.pre, p.2 = addr ∧ p.1 ∉ d.post.map Prod.fst) ↔ addr ∈ d.diff.pre := by
        constructor
        · rintro ⟨p, hp, rfl, -⟩
          exact List.mem_map_of_mem hp
        · intro held
          obtain ⟨p, hp, rfl⟩ := List.mem_map.mp held
          exact ⟨p, hp, rfl, fun kept => absent (held_of_kept (before p hp) after kept)⟩
      simp only [gone]
      rfl

/-- A block of read transactions leaves each account at the last balance that one of them took. -/
theorem recordAll_get {ds : List KeyedDiff} (once : ∀ d ∈ ds, (d.post.map fun r => r.2.1).Nodup) :
    (ds.foldl KeyedDiff.record ∅)[addr]? = lastEffect (fun d => d.took addr) ds := by
  induction ds using List.reverseRec with
  | nil => simp [lastEffect]
  | append_singleton ds d ih =>
      rw [List.foldl_append, List.foldl_cons, List.foldl_nil, lastEffect_concat,
        record_get (once d (by simp)), ih fun d hd => once d (by simp [hd])]

end Effects

section Wellformed

variable {number : String → Option Balance}

theorem readTx_spelled {tx : Value} {d : KeyedDiff} (h : readTx number tx = some d) :
    (∀ p ∈ d.pre, parseAddress p.1 = some p.2) ∧ (∀ r ∈ d.post, parseAddress r.1 = some r.2.1) ∧
      ∃ result fields, tx.get "result" = some result ∧
        (result.get "post").bind Value.asObject = some fields ∧
        fields.map (fun e => parseAddress e.1) = d.post.map fun r => some r.2.1 := by
  unfold readTx at h
  obtain ⟨result, hresult, h⟩ := Option.bind_eq_some_iff.mp h
  split_ifs at h
  obtain ⟨pre, -, h⟩ := Option.bind_eq_some_iff.mp h
  obtain ⟨post, hpost, h⟩ := Option.bind_eq_some_iff.mp h
  obtain ⟨ps, hps, h⟩ := Option.bind_eq_some_iff.mp h
  obtain ⟨rs, hrs, h⟩ := Option.bind_eq_some_iff.mp h
  cases h
  refine ⟨?_, ?_, result, post, hresult, hpost, (keys_of_readPost hrs).2⟩
  · intro p hp
    obtain ⟨e, -, read⟩ := exists_of_mapM hps hp
    obtain ⟨addr, named, rfl⟩ := Option.map_eq_some_iff.mp read
    exact named
  · intro r hr
    obtain ⟨e, -, read⟩ := exists_of_mapM hrs hr
    obtain ⟨key, named⟩ := readPost_key read
    exact key ▸ named

end Wellformed

section Followed

variable {debug : String → String} {trace : Value} {ds : List KeyedDiff}

theorem readTrace_spelled {number : String → Option Balance} (names : NamesOnce trace)
    (read : readTrace number trace = some ds) : ∀ d ∈ ds,
      (∀ p ∈ d.pre, parseAddress p.1 = some p.2) ∧ (∀ r ∈ d.post, parseAddress r.1 = some r.2.1) ∧
        (d.post.map fun r => r.2.1).Nodup := by
  intro d hd
  obtain ⟨txs, htxs, read⟩ := Option.bind_eq_some_iff.mp read
  obtain ⟨tx, htx, hread⟩ := exists_of_mapM read hd
  obtain ⟨pres, posts, result, fields, hresult, hfields, spelled⟩ := readTx_spelled hread
  refine ⟨pres, posts, ?_⟩
  have once := names txs htxs tx htx result hresult "post" (by simp) fields hfields
  have same : fields.filterMap (fun e => parseAddress e.1) = d.post.map fun r => r.2.1 := by
    calc fields.filterMap (fun e => parseAddress e.1)
        = (fields.map fun e => parseAddress e.1).filterMap id := by rw [List.filterMap_map]; rfl
      _ = (d.post.map fun r => some r.2.1).filterMap id := by rw [spelled]
      _ = d.post.map fun r => r.2.1 := by
        rw [List.filterMap_map, ← List.filterMap_eq_map]
        rfl
  rwa [same] at once

private theorem ascending (map : Changes) : (map.toList.map Prod.fst).Pairwise (· < ·) := by
  rw [List.pairwise_map]
  exact (@ExtTreeMap.ordered_keys_toList Address Balance compare map _).imp fun {_ _} h =>
    compareOfLessAndEq_eq_lt.mp h

/-- What the code makes of a trace that it accepts. -/
theorem changes_of_read (names : NamesOnce trace) (read : readTrace lenient trace = some ds) :
    ∃ out, changesFromTrace debug trace = .ok out ∧ out.Pairwise (fun e e' => e.1 < e'.1) ∧
      ∀ addr wei, (addr, wei) ∈ out ↔ lastEffect (fun d => d.took addr) ds = some wei := by
  have once : ∀ d ∈ ds, (d.post.map fun r => r.2.1).Nodup :=
    fun d hd => (readTrace_spelled names read d hd).2.2
  refine ⟨(ds.foldl KeyedDiff.record ∅).toList, changesFromTrace_eq_ok.mpr ⟨ds, read, rfl⟩,
    List.pairwise_map.mp (ascending _), fun addr wei => ?_⟩
  rw [ExtTreeMap.mem_toList_iff_getElem?_eq_some, recordAll_get once]

/-- The accounts end where the block's transactions leave them exactly when the trace is settled. -/
theorem took_iff_settled (names : NamesOnce trace) (read : readTrace lenient trace = some ds) :
    (∀ addr, lastEffect (fun d => d.took addr) ds = status (ds.map KeyedDiff.diff) addr) ↔ Settled ds := by
  have spelled := readTrace_spelled names read
  have agree : ∀ addr, lastEffect (fun d => d.took addr) ds = status (ds.map KeyedDiff.diff) addr ↔
      ∀ before d after, ds = before ++ d :: after → d.Respelled addr →
        (∀ later ∈ after, ¬ later.Respelled addr ∧ effect later.diff addr = none) →
          status ((before ++ [d]).map KeyedDiff.diff) addr = some 0 := by
    intro addr
    have split := @lastEffect_eq_iff _ _ (fun d => effect d.diff addr) (fun d => d.took addr)
      (fun d => d.Respelled addr) 0 ds (fun d _ => took_respelled) fun d hd =>
        took_eq_effect (spelled d hd).1 (spelled d hd).2.1
    simpa only [status, lastEffect, List.foldl_map] using split
  constructor
  · intro h addr before d after split
    exact (agree addr).mp (h addr) before d after split
  · intro h addr
    exact (agree addr).mpr fun before d after split => h addr before d after split

theorem readTrace_lenient (read : readTrace quantity trace = some ds) :
    readTrace lenient trace = some ds := by
  obtain ⟨txs, htxs, read⟩ := Option.bind_eq_some_iff.mp read
  refine Option.bind_eq_some_iff.mpr ⟨txs, htxs, mapM_mono (fun tx d h => ?_) read⟩
  unfold readTx at h ⊢
  obtain ⟨result, hresult, h⟩ := Option.bind_eq_some_iff.mp h
  split_ifs at h with failed
  obtain ⟨pre, hpre, h⟩ := Option.bind_eq_some_iff.mp h
  obtain ⟨post, hpost, h⟩ := Option.bind_eq_some_iff.mp h
  obtain ⟨ps, hps, h⟩ := Option.bind_eq_some_iff.mp h
  obtain ⟨rs, hrs, h⟩ := Option.bind_eq_some_iff.mp h
  have hrs' : post.mapM (readPost lenient) = some rs := by
    refine mapM_mono (fun e r h => ?_) hrs
    unfold readPost at h ⊢
    obtain ⟨addr, named, h⟩ := Option.bind_eq_some_iff.mp h
    refine Option.bind_eq_some_iff.mpr ⟨addr, named, ?_⟩
    cases found : e.2.get "balance" with
    | none => simpa only [found] using h
    | some b =>
        rw [found] at h
        obtain ⟨text, isText, h⟩ := Option.bind_eq_some_iff.mp h
        obtain ⟨wei, number, h⟩ := Option.bind_eq_some_iff.mp h
        exact Option.bind_eq_some_iff.mpr ⟨text, isText,
          Option.bind_eq_some_iff.mpr ⟨wei, lenient_of_quantity number, h⟩⟩
  refine Option.bind_eq_some_iff.mpr ⟨result, hresult, ?_⟩
  rw [if_neg failed]
  exact Option.bind_eq_some_iff.mpr ⟨pre, hpre, Option.bind_eq_some_iff.mpr ⟨post, hpost,
    Option.bind_eq_some_iff.mpr ⟨ps, hps, Option.bind_eq_some_iff.mpr ⟨rs, hrs', h⟩⟩⟩⟩

/-- Where nothing is respelled, the code does what it does on the diffs themselves. -/
theorem changesFromTrace_diffs (names : NamesOnce trace) (read : readTrace lenient trace = some ds)
    (alike : ∀ d ∈ ds, ∀ addr, ¬ d.Respelled addr) :
    changesFromTrace debug trace = .ok (Rpc.changesFromTrace (ds.map KeyedDiff.diff)) := by
  have step : ∀ d ∈ ds, ∀ map, KeyedDiff.record map d =
      TxDiff.recordPre (TxDiff.recordPost map d.diff) d.diff := by
    intro d hd map
    obtain ⟨pres, posts, -⟩ := readTrace_spelled names read d hd
    have posted : d.post.foldl writePost map = TxDiff.recordPost map d.diff := by
      rw [TxDiff.recordPost, KeyedDiff.diff, List.foldl_map]
      rfl
    rw [KeyedDiff.record, posted, TxDiff.recordPre]
    generalize TxDiff.recordPost map d.diff = map
    have tested : ∀ p ∈ d.pre, p.1 ∈ d.post.map Prod.fst ↔ p.2 ∈ d.diff.post.map Prod.fst := by
      intro p hp
      constructor
      · intro kept
        exact held_of_kept (pres p hp) posts kept
      · intro held
        by_contra gone
        exact alike d hd p.2 ⟨⟨p, hp, rfl, gone⟩, held⟩
    have folded : d.diff.pre = d.pre.map Prod.snd := rfl
    rw [folded, List.foldl_map]
    refine List.foldl_ext _ _ _ fun map p hp => ?_
    rw [writePre]
    simp only [tested p hp]
  refine changesFromTrace_eq_ok.mpr ⟨ds, read, ?_⟩
  rw [Rpc.changesFromTrace, List.foldl_map]
  exact congrArg _ (List.foldl_ext _ _ _ fun map d hd => step d hd map)

/-- A trace is followed exactly when no sign stands before a balance, and no account that was
respelled under a live balance is left behind empty. -/
theorem reads_trace_iff (debug : String → String) (trace : Value) (names : NamesOnce trace) :
    ReadsTrace debug trace ↔ ∀ ds, readTrace lenient trace = some ds →
      readTrace quantity trace = some ds ∧ Settled ds := by
  unfold ReadsTrace
  constructor
  · intro follows ds read
    obtain ⟨out, accepted, -, took⟩ := @changes_of_read debug trace ds names read
    cases strict : readTrace quantity trace with
    | none =>
        rw [strict] at follows
        obtain ⟨e, refused⟩ := follows
        rw [accepted] at refused
        cases refused
    | some ds' =>
        rw [strict] at follows
        obtain ⟨out', accepted', -, left⟩ := follows
        obtain rfl : ds' = ds := Option.some.inj ((readTrace_lenient strict).symm.trans read)
        obtain rfl : out = out' := Except.ok.inj (accepted.symm.trans accepted')
        refine ⟨rfl, (took_iff_settled names read).mp fun addr => ?_⟩
        apply Option.ext
        intro wei
        rw [← took, left]
  · intro plain
    cases strict : readTrace quantity trace with
    | none =>
        cases answer : changesFromTrace debug trace with
        | error e => exact ⟨e, rfl⟩
        | ok out =>
            obtain ⟨ds, read, -⟩ := changesFromTrace_eq_ok.mp answer
            rw [(plain ds read).1] at strict
            cases strict
    | some ds =>
        have read := readTrace_lenient strict
        obtain ⟨out, accepted, ascending, took⟩ := @changes_of_read debug trace ds names read
        refine ⟨out, accepted, ascending, fun addr wei => ?_⟩
        rw [took, (took_iff_settled names read).mpr (plain ds read).2 addr]

/-- One account under one spelling. -/
def spelledAlike : Value :=
  .array [.object [("result", .object [
    ("pre", .object [("0x00000000000000000000000000000000000000aa", .object [])]),
    ("post", .object [("0x00000000000000000000000000000000000000aa",
      .object [("balance", .string "0x5")])])])]]

theorem reads_trace_iff_alike : ReadsTrace id spelledAlike := by
  have names : NamesOnce spelledAlike := by
    intro txs htxs tx htx result hresult side hside fields hfields
    cases htxs
    obtain rfl := List.mem_singleton.mp htx
    cases hresult
    rcases List.mem_cons.mp hside with rfl | hside
    · cases hfields
      decide +kernel
    · obtain rfl := List.mem_singleton.mp hside
      cases hfields
      decide +kernel
  have read : readTrace quantity spelledAlike =
      some [⟨[("0x00000000000000000000000000000000000000aa", 0xaa#160)],
        [("0x00000000000000000000000000000000000000aa", 0xaa#160, some 5)]⟩] := by decide +kernel
  refine (reads_trace_iff id spelledAlike names).mpr fun ds lenient => ?_
  obtain rfl := Option.some.inj ((readTrace_lenient read).symm.trans lenient)
  refine ⟨read, fun addr before d after split respelled => ?_⟩
  have only := split ▸ List.mem_append_right before (List.mem_cons_self (a := d) (l := after))
  obtain rfl := List.mem_singleton.mp only
  obtain ⟨⟨p, hp, -, gone⟩, -⟩ := respelled
  obtain rfl := List.mem_singleton.mp hp
  simp at gone

/-- One account, touched under one spelling and left with five wei under another. -/
def respelled : Value :=
  .array [.object [("result", .object [
    ("pre", .object [("0x00000000000000000000000000000000000000AA", .object [])]),
    ("post", .object [("0x00000000000000000000000000000000000000aa",
      .object [("balance", .string "0x5")])])])]]

theorem respelled_names : NamesOnce respelled := by
  intro txs htxs tx htx result hresult side hside fields hfields
  cases htxs
  obtain rfl := List.mem_singleton.mp htx
  cases hresult
  rcases List.mem_cons.mp hside with rfl | hside
  · cases hfields
    decide +kernel
  · obtain rfl := List.mem_singleton.mp hside
    cases hfields
    decide +kernel

/-- The code empties the account, although the transaction left it five wei. -/
theorem respelled_emptied : NamesOnce respelled ∧
    changesFromTrace id respelled = .ok [(0xaa#160, 0)] ∧
    (readTrace quantity respelled).map (fun ds => status (ds.map KeyedDiff.diff) 0xaa#160) = some (some 5) ∧
    ¬ ReadsTrace id respelled := by
  have emptied : changesFromTrace id respelled = .ok [(0xaa#160, 0)] := by decide +kernel
  have left : (readTrace quantity respelled).map (fun ds => status (ds.map KeyedDiff.diff) 0xaa#160) =
      some (some 5) := by decide +kernel
  refine ⟨respelled_names, emptied, left, fun follows => ?_⟩
  unfold ReadsTrace at follows
  obtain ⟨ds, read, live⟩ := Option.map_eq_some_iff.mp left
  rw [read] at follows
  obtain ⟨out, accepted, -, same⟩ := follows
  obtain rfl : out = [(0xaa#160, 0)] := Except.ok.inj (accepted.symm.trans emptied)
  have held := (same 0xaa#160 5).mpr live
  simp at held

end Followed

end RisePir.Feed.Trace
