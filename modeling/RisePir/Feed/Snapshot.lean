import Mathlib.Data.List.Basic
import RisePir.Lib.Text
import RisePir.Proto.Types

set_option autoImplicit false
set_option relaxedAutoImplicit false

/-! The balance snapshot: shards of `address,eth_balance` rows, streamed into a sink. Two passes
read them, one to count and one to ingest, through the same loop over the data rows. -/

namespace RisePir.Feed.Snapshot

open RisePir.Lib.Text
open RisePir.Proto.Types

inductive SnapshotError
  | io (file error : String)
  | malformedRow (file : String) (line : Nat) (reason : String)
  | sink (file : String) (line : Nat) (error : String)
  deriving DecidableEq, Repr

/-- The `Display` of a `SnapshotError`. -/
def SnapshotError.display : SnapshotError → String
  | .io file error => s!"{file}: {error}"
  | .malformedRow file line reason => s!"{file}:{line}: malformed row: {reason}"
  | .sink file line error => s!"{file}:{line}: sink rejected row: {error}"

structure SnapshotStats where
  rows : Nat
  nonzero : Nat
  zeroSkipped : Nat
  maxBalance : Balance
  deriving DecidableEq, Repr

/-- A file of the snapshot: the error of opening it, or the text that reads from it, decompressed
where it is a `.gz`, with the error that ends the reading early. -/
structure Shard where
  path : String
  content : Except String (List Char × Option String)

/-- `strip_suffix('\r')`. -/
def stripReturn (line : List Char) : List Char :=
  if line.getLast? = some '\r' then line.dropLast else line

/-- `BufRead::lines`: the terminated lines, then what is left of the text or the error. -/
def bufLines (text : List Char) (failure : Option String) : List (Except String (List Char)) :=
  let pieces := text.splitOn '\n'
  let terminated := pieces.dropLast.map fun line => Except.ok (stripReturn line)
  match failure with
  | some e => terminated ++ [.error e]
  | none =>
      match pieces.getLast? with
      | none | some [] => terminated
      | some rest => terminated ++ [.ok rest]

/-- `char::is_whitespace`. -/
def isWhitespace (c : Char) : Bool :=
  (9 ≤ c.toNat ∧ c.toNat ≤ 13) ∨ c.toNat = 0x20 ∨ c.toNat = 0x85 ∨ c.toNat = 0xa0 ∨ c.toNat = 0x1680 ∨
    (0x2000 ≤ c.toNat ∧ c.toNat ≤ 0x200a) ∨ c.toNat = 0x2028 ∨ c.toNat = 0x2029 ∨ c.toNat = 0x202f ∨
    c.toNat = 0x205f ∨ c.toNat = 0x3000

/-- `str::trim`. -/
def trim (text : List Char) : List Char :=
  ((text.dropWhile isWhitespace).reverse.dropWhile isWhitespace).reverse

/-- `address,eth_balance`. -/
def HEADER : List Char := "address,eth_balance".toList

/-- `eq_ignore_ascii_case` with the header. -/
def isHeader (row : List Char) : Bool := row.map Char.toLower = HEADER

/-- `parse_address`. -/
def parseAddress (s : List Char) : Option (List UInt8) := do
  let hex ← stripHexPrefix s
  if hex.length ≠ 40 then none else hexBytes hex

variable (debug : List Char → String)

/-- `parse_wei`; `debug` is the `Debug` form of a string. -/
def parseWei (s : List Char) : Except String Balance :=
  let (intPart, fracPart) := match splitOnce '.' s with
    | some (i, f) => (i, some f)
    | none => (s, none)
  if intPart = [] ∨ ¬ intPart.all Char.isDigit then
    .error s!"balance must be decimal wei, got {debug s}"
  else if fracPart.any fun frac => frac = [] ∨ ¬ frac.all (· = '0') then
    .error (s!"balance has a nonzero (or malformed) fractional part, got {debug s} — refusing to " ++
      "round wei")
  else
    match parseUnsigned (2 ^ 128) intPart with
    | some balance => .ok balance
    | none => .error s!"balance does not fit u128, got {debug s}"

/-- `parse_row`. -/
def parseRow (row : List Char) : Except String (List UInt8 × Balance) :=
  match row.splitOn ',' with
  | [addrStr, balStr] =>
      match parseAddress (trim addrStr) with
      | none => .error s!"address must be 0x + 40 hex digits, got {debug addrStr}"
      | some addr20 =>
          match parseWei debug (trim balStr) with
          | .error reason => .error reason
          | .ok balance => .ok (addr20, balance)
  | _ => .error "expected exactly 2 comma-separated fields"

section Rows

variable {α : Type}

/-- The loop of `for_each_row`, from line `n` on. -/
def rowsFrom (path : String) (f : Nat → List UInt8 → Balance → α → Except SnapshotError α) :
    Nat → List (Except String (List Char)) → α → Except SnapshotError α
  | _, [], a => .ok a
  | n, .error e :: _, _ => .error (.io path s!"line {n}: {e}")
  | n, .ok line :: rest, a =>
      let row := stripReturn line
      if row = [] then rowsFrom path f (n + 1) rest a
      else if n = 1 ∧ isHeader row then rowsFrom path f (n + 1) rest a
      else
        match parseRow debug row with
        | .error reason => .error (.malformedRow path n reason)
        | .ok (addr20, balance) =>
            match f n addr20 balance a with
            | .error e => .error e
            | .ok a => rowsFrom path f (n + 1) rest a

/-- `for_each_row`. -/
def forEachRow (shard : Shard) (f : Nat → List UInt8 → Balance → α → Except SnapshotError α) (a : α) :
    Except SnapshotError α :=
  match shard.content with
  | .error e => .error (.io shard.path e)
  | .ok (text, failure) => rowsFrom debug shard.path f 1 (bufLines text failure) a

/-- `count_rows`. -/
def countRows (shards : List Shard) : Except SnapshotError Nat :=
  shards.foldlM (fun rows shard => forEachRow debug shard (fun _ _ _ rows => .ok (rows + 1)) rows) 0

variable {σ : Type} (keccak256 : List UInt8 → AddressHash)
  (sink : List UInt8 → AddressHash → Balance → σ → Except String σ)

/-- The closure that `ingest` drives over the rows of one shard. -/
def ingestRow (path : String) (line : Nat) (addr20 : List UInt8) (balance : Balance)
    (acc : SnapshotStats × σ) : Except SnapshotError (SnapshotStats × σ) :=
  let stats := { acc.1 with rows := acc.1.rows + 1 }
  if balance = 0 then .ok ({ stats with zeroSkipped := stats.zeroSkipped + 1 }, acc.2)
  else
    match sink addr20 (keccak256 addr20) balance acc.2 with
    | .error e => .error (.sink path line e)
    | .ok s =>
        .ok ({ stats with nonzero := stats.nonzero + 1, maxBalance := max stats.maxBalance balance }, s)

/-- `ingest`. -/
def ingest (shards : List Shard) (s : σ) : Except SnapshotError (SnapshotStats × σ) :=
  shards.foldlM (fun acc shard => forEachRow debug shard (ingestRow keccak256 sink shard.path) acc)
    (⟨0, 0, 0, 0⟩, s)

end Rows

section Listing

/-- The lines that are neither blank nor the header, with their numbers. -/
def dataFrom : Nat → List (Except String (List Char)) → List (Nat × List Char)
  | _, [] => []
  | n, .error _ :: rest => dataFrom (n + 1) rest
  | n, .ok line :: rest =>
      if stripReturn line = [] ∨ (n = 1 ∧ isHeader (stripReturn line)) then dataFrom (n + 1) rest
      else (n, stripReturn line) :: dataFrom (n + 1) rest

/-- A shard's data lines. -/
def Shard.dataLines (shard : Shard) : List (Nat × List Char) :=
  match shard.content with
  | .error _ => []
  | .ok (text, failure) => dataFrom 1 (bufLines text failure)

/-- The rows that a shard lists, line by line. -/
def Shard.listed (shard : Shard) : List (Nat × List UInt8 × Balance) :=
  shard.dataLines.filterMap fun line => (parseRow debug line.2).toOption.map (Prod.mk line.1)

/-- The rows that a snapshot lists. -/
def listedRows (shards : List Shard) : List (List UInt8 × Balance) :=
  shards.flatMap fun shard => (shard.listed debug).map Prod.snd

/-- A shard that reads to its end, every data line of it a row. -/
structure Shard.Accepted (shard : Shard) : Prop where
  readable : ∃ text, shard.content = .ok (text, none)
  parses : ∀ line ∈ shard.dataLines, ∃ row, parseRow debug line.2 = .ok row

end Listing

section Passes

variable {debug} {α : Type} {f : Nat → List UInt8 → Balance → α → Except SnapshotError α}

/-- The loop over the rows themselves. -/
def foldRows (f : Nat → List UInt8 → Balance → α → Except SnapshotError α)
    (rows : List (Nat × List UInt8 × Balance)) (a : α) : Except SnapshotError α :=
  rows.foldlM (fun a row => f row.1 row.2.1 row.2.2 a) a

/-- The rows of the remaining lines. -/
private def listedFrom (debug : List Char → String) (n : Nat)
    (lines : List (Except String (List Char))) : List (Nat × List UInt8 × Balance) :=
  (dataFrom n lines).filterMap fun line => (parseRow debug line.2).toOption.map (Prod.mk line.1)

/-- Where every line reads and every data line parses, the loop runs over the listed rows. -/
theorem rowsFrom_eq {path : String} {n : Nat} {lines : List (Except String (List Char))} {a : α}
    (read : ∀ line ∈ lines, ∃ text, line = .ok text)
    (parses : ∀ line ∈ dataFrom n lines, ∃ row, parseRow debug line.2 = .ok row) :
    rowsFrom debug path f n lines a = foldRows f (listedFrom debug n lines) a := by
  induction lines generalizing n a with
  | nil => rfl
  | cons line lines ih =>
      obtain ⟨text, rfl⟩ := read line (by simp)
      have read' : ∀ line ∈ lines, ∃ text, line = .ok text :=
        fun line hline => read line (List.mem_cons_of_mem _ hline)
      by_cases skipped : stripReturn text = [] ∨ (n = 1 ∧ isHeader (stripReturn text))
      · have data : dataFrom n (.ok text :: lines) = dataFrom (n + 1) lines := if_pos skipped
        rw [data] at parses
        have rest := ih (a := a) read' parses
        rw [listedFrom, data]
        rcases skipped with blank | header
        · simpa [rowsFrom, blank, listedFrom] using rest
        · simpa [rowsFrom, header, listedFrom] using rest
      · have data : dataFrom n (.ok text :: lines) =
            (n, stripReturn text) :: dataFrom (n + 1) lines := if_neg skipped
        rw [data] at parses
        obtain ⟨⟨addr20, balance⟩, parsed⟩ := parses (n, stripReturn text) (by simp)
        have rest := fun a => ih (a := a) read' fun line hline =>
          parses line (List.mem_cons_of_mem _ hline)
        rw [not_or] at skipped
        have listed : listedFrom debug n (.ok text :: lines) =
            (n, addr20, balance) :: listedFrom debug (n + 1) lines := by
          rw [listedFrom, data]
          simp [parsed, Except.toOption, listedFrom]
        rw [listed, foldRows, List.foldlM_cons]
        simp only [rowsFrom]
        rw [if_neg skipped.1, if_neg skipped.2, parsed]
        dsimp only
        cases f n addr20 balance a with
        | error e => rfl
        | ok a' => exact rest a'

/-- A loop that ends well has met no unreadable line and no malformed row. -/
theorem rowsFrom_ok {path : String} {n : Nat} {lines : List (Except String (List Char))} {a a' : α}
    (h : rowsFrom debug path f n lines a = .ok a') :
    (∀ line ∈ lines, ∃ text, line = .ok text) ∧
      ∀ line ∈ dataFrom n lines, ∃ row, parseRow debug line.2 = .ok row := by
  induction lines generalizing n a with
  | nil => simp [dataFrom]
  | cons line lines ih =>
      cases line with
      | error e => cases h
      | ok text =>
          simp only [rowsFrom] at h
          have rest : ∀ {a : α}, rowsFrom debug path f (n + 1) lines a = .ok a' →
              ∀ line ∈ .ok text :: lines, ∃ text, line = .ok text := by
            intro a hrest line hline
            rcases List.mem_cons.mp hline with rfl | hline
            · exact ⟨text, rfl⟩
            · exact (ih hrest).1 line hline
          by_cases blank : stripReturn text = []
          · rw [if_pos blank] at h
            refine ⟨rest h, ?_⟩
            have data : dataFrom n (.ok text :: lines) = dataFrom (n + 1) lines := if_pos (.inl blank)
            rw [data]
            exact (ih h).2
          · rw [if_neg blank] at h
            by_cases header : n = 1 ∧ isHeader (stripReturn text) = true
            · rw [if_pos header] at h
              refine ⟨rest h, ?_⟩
              have data : dataFrom n (.ok text :: lines) = dataFrom (n + 1) lines :=
                if_pos (.inr header)
              rw [data]
              exact (ih h).2
            · rw [if_neg header] at h
              cases parsed : parseRow debug (stripReturn text) with
              | error reason =>
                  rw [parsed] at h
                  cases h
              | ok row =>
                  obtain ⟨addr20, balance⟩ := row
                  rw [parsed] at h
                  dsimp only at h
                  cases stepped : f n addr20 balance a with
                  | error e =>
                      rw [stepped] at h
                      cases h
                  | ok next =>
                      rw [stepped] at h
                      refine ⟨rest h, ?_⟩
                      have data : dataFrom n (.ok text :: lines) =
                          (n, stripReturn text) :: dataFrom (n + 1) lines :=
                        if_neg (by simp [blank, header])
                      rw [data]
                      intro line hline
                      rcases List.mem_cons.mp hline with rfl | hline
                      · exact ⟨_, parsed⟩
                      · exact (ih h).2 line hline

/-- A text that reads to its end reads line by line. -/
theorem bufLines_read {text : List Char} :
    ∀ line ∈ bufLines text none, ∃ content, line = .ok content := by
  have terminated : ∀ line ∈ (text.splitOn '\n').dropLast.map
      (fun line => (Except.ok (stripReturn line) : Except String (List Char))),
      ∃ content, line = .ok content := by
    intro line hline
    obtain ⟨content, -, rfl⟩ := List.mem_map.mp hline
    exact ⟨_, rfl⟩
  unfold bufLines
  dsimp only
  cases (text.splitOn '\n').getLast? with
  | none => exact terminated
  | some rest =>
      cases rest with
      | nil => exact terminated
      | cons c rest =>
          intro line hline
          rcases List.mem_append.mp hline with hline | hline
          · exact terminated line hline
          · exact ⟨c :: rest, List.mem_singleton.mp hline⟩

/-- One shard: the loop over its rows, when it is accepted. -/
theorem forEachRow_eq {shard : Shard} (accepted : shard.Accepted debug) (a : α) :
    forEachRow debug shard f a = foldRows f (shard.listed debug) a := by
  obtain ⟨text, content⟩ := accepted.readable
  have parses := accepted.parses
  unfold Shard.dataLines at parses
  rw [content] at parses
  unfold forEachRow Shard.listed Shard.dataLines
  rw [content]
  exact rowsFrom_eq bufLines_read parses

/-- A shard that the loop gets through is accepted. -/
theorem forEachRow_ok {shard : Shard} {a a' : α} (h : forEachRow debug shard f a = .ok a') :
    shard.Accepted debug := by
  unfold forEachRow at h
  cases content : shard.content with
  | error e =>
      rw [content] at h
      cases h
  | ok read =>
      obtain ⟨text, failure⟩ := read
      rw [content] at h
      obtain ⟨readable, parses⟩ := rowsFrom_ok h
      cases failure with
      | some e =>
          obtain ⟨line, broken⟩ := readable (.error e) (by simp [bufLines])
          cases broken
      | none =>
          refine ⟨⟨text, content⟩, ?_⟩
          unfold Shard.dataLines
          rw [content]
          exact parses

/-- A pass over the shards that ends well accepts them all, and runs over their rows. -/
theorem forEachShard_ok {g : Shard → Nat → List UInt8 → Balance → α → Except SnapshotError α}
    {shards : List Shard} {a a' : α}
    (h : shards.foldlM (fun a shard => forEachRow debug shard (g shard) a) a = .ok a') :
    ∀ shard ∈ shards, shard.Accepted debug := by
  induction shards generalizing a with
  | nil => simp
  | cons shard shards ih =>
      rw [List.foldlM_cons] at h
      cases hrow : forEachRow debug shard (g shard) a with
      | error e =>
          rw [hrow] at h
          cases h
      | ok mid =>
          rw [hrow] at h
          intro other hother
          rcases List.mem_cons.mp hother with rfl | hother
          · exact forEachRow_ok hrow
          · exact ih h other hother

variable {σ : Type} {keccak256 : List UInt8 → AddressHash}
  {sink : List UInt8 → AddressHash → Balance → σ → Except String σ}

/-- What an ingest has done once it has taken `rows`: it has counted them, and sunk those with a
balance. -/
structure Taken (sink : List UInt8 → AddressHash → Balance → σ → Except String σ)
    (keccak256 : List UInt8 → AddressHash) (rows : List (List UInt8 × Balance))
    (acc acc' : SnapshotStats × σ) : Prop where
  counted : acc'.1.rows = acc.1.rows + rows.length
  sunk : (rows.filter fun row => row.2 ≠ 0).foldlM
    (fun s row => sink row.1 (keccak256 row.1) row.2 s) acc.2 = .ok acc'.2

theorem Taken.append {rows more : List (List UInt8 × Balance)} {acc mid acc' : SnapshotStats × σ}
    (first : Taken sink keccak256 rows acc mid) (rest : Taken sink keccak256 more mid acc') :
    Taken sink keccak256 (rows ++ more) acc acc' := by
  constructor
  · rw [rest.counted, first.counted, List.length_append]
    omega
  · rw [List.filter_append, List.foldlM_append, first.sunk]
    exact rest.sunk

/-- One row through the closure of `ingest`. -/
theorem taken_row {path : String} {line : Nat} {addr20 : List UInt8} {balance : Balance}
    {acc acc' : SnapshotStats × σ}
    (h : ingestRow keccak256 sink path line addr20 balance acc = .ok acc') :
    Taken sink keccak256 [(addr20, balance)] acc acc' := by
  unfold ingestRow at h
  dsimp only at h
  by_cases zero : balance = 0
  · rw [if_pos zero] at h
    cases h
    exact ⟨rfl, by simp [zero]; rfl⟩
  · rw [if_neg zero] at h
    cases hs : sink addr20 (keccak256 addr20) balance acc.2 with
    | error e =>
        rw [hs] at h
        cases h
    | ok s =>
        rw [hs] at h
        cases h
        exact ⟨rfl, by simp [zero, hs]⟩

theorem taken_rows {path : String} {rows : List (Nat × List UInt8 × Balance)}
    {acc acc' : SnapshotStats × σ}
    (h : foldRows (ingestRow keccak256 sink path) rows acc = .ok acc') :
    Taken sink keccak256 (rows.map Prod.snd) acc acc' := by
  induction rows generalizing acc with
  | nil =>
      cases h
      exact ⟨rfl, rfl⟩
  | cons row rows ih =>
      obtain ⟨line, addr20, balance⟩ := row
      rw [foldRows, List.foldlM_cons] at h
      cases hrow : ingestRow keccak256 sink path line addr20 balance acc with
      | error e =>
          rw [hrow] at h
          cases h
      | ok mid =>
          rw [hrow] at h
          exact (taken_row hrow).append (ih h)

/-- The shards in order. -/
theorem taken_shards {shards : List Shard} {acc acc' : SnapshotStats × σ}
    (h : shards.foldlM (fun acc shard =>
      forEachRow debug shard (ingestRow keccak256 sink shard.path) acc) acc = .ok acc') :
    Taken sink keccak256 (listedRows debug shards) acc acc' := by
  induction shards generalizing acc with
  | nil =>
      cases h
      exact ⟨rfl, rfl⟩
  | cons shard shards ih =>
      rw [List.foldlM_cons] at h
      cases hshard : forEachRow debug shard (ingestRow keccak256 sink shard.path) acc with
      | error e =>
          rw [hshard] at h
          cases h
      | ok mid =>
          rw [hshard] at h
          rw [forEachRow_eq (forEachRow_ok hshard)] at hshard
          exact (taken_rows hshard).append (ih h)

/-- Counting the rows that an ingest accepts. -/
theorem countRows_accepted {shards : List Shard} (accepted : ∀ shard ∈ shards, shard.Accepted debug) :
    countRows debug shards = .ok (listedRows debug shards).length := by
  have counting : ∀ (rows : List (Nat × List UInt8 × Balance)) (n : Nat),
      foldRows (fun _ _ _ n => (.ok (n + 1) : Except SnapshotError Nat)) rows n =
        .ok (n + rows.length) := by
    intro rows
    induction rows with
    | nil => exact fun n => rfl
    | cons row rows ih =>
        intro n
        have rest := ih (n + 1)
        rw [List.length_cons, show n + (rows.length + 1) = n + 1 + rows.length by omega]
        exact rest
  have counted : ∀ n, shards.foldlM (fun rows shard =>
      forEachRow debug shard (fun _ _ _ rows => .ok (rows + 1)) rows) n =
        .ok (n + (listedRows debug shards).length) := by
    induction shards with
    | nil => exact fun n => rfl
    | cons shard shards ih =>
        intro n
        rw [List.foldlM_cons, forEachRow_eq (accepted shard (by simp)), counting]
        have rest := ih (fun s hs => accepted s (List.mem_cons_of_mem _ hs)) (n + (shard.listed debug).length)
        have length : (listedRows debug (shard :: shards)).length =
            (shard.listed debug).length + (listedRows debug shards).length := by
          simp [listedRows]
        rw [length, ← Nat.add_assoc]
        exact rest
  have whole := counted 0
  rw [Nat.zero_add] at whole
  exact whole

/-- The contract of the two passes: an ingest that succeeds has skipped no malformed row, its rows
are those `count_rows` counts, and the sink took the rows with a balance, in order. -/
theorem ingest_ok {shards : List Shard} {s s' : σ} {stats : SnapshotStats}
    (h : ingest debug keccak256 sink shards s = .ok (stats, s')) :
    (∀ shard ∈ shards, shard.Accepted debug) ∧ countRows debug shards = .ok stats.rows ∧
      stats.rows = (listedRows debug shards).length ∧
      ((listedRows debug shards).filter fun row => row.2 ≠ 0).foldlM
        (fun s row => sink row.1 (keccak256 row.1) row.2 s) s = .ok s' := by
  have accepted := forEachShard_ok h
  have taken := taken_shards h
  have rows : stats.rows = (listedRows debug shards).length := by
    have counted := taken.counted
    dsimp only at counted
    omega
  refine ⟨accepted, ?_, rows, taken.sunk⟩
  rw [rows]
  exact countRows_accepted accepted

end Passes

end RisePir.Feed.Snapshot
