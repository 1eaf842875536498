import RisePir.Lib.Text
import RisePir.Http.Node

set_option autoImplicit false
set_option relaxedAutoImplicit false

/-! `GET /setup` with its conditional and range headers. A value that would be a panic of the
source is `none`. -/

namespace RisePir.Http.Ranges

open RisePir.Lib.Text
open RisePir.Upstream.Cuckoo
open RisePir.Upstream.Pir
open RisePir.Server.Core
open RisePir.Http.Node
open RisePir.Http.Wire

/-- The bytes of a header's value. -/
abbrev HeaderValue := List UInt8

/-- A visible character or a tab. -/
def visible (code : Nat) : Bool := (32 ≤ code ∧ code < 127) ∨ code = 9

def Visible (text : List Char) : Prop := ∀ c ∈ text, visible c.toNat = true

instance (text : List Char) : Decidable (Visible text) := List.decidableBAll _ text

/-- `to_str` and `from_str` of the `http` crate's `HeaderValue`. -/
structure HeaderCode where
  toStr : HeaderValue → Option (List Char)
  fromStr : List Char → Option HeaderValue

/-- Visible text makes a header's value, which reads as that text. -/
def HeaderCode.Laws (http : HeaderCode) : Prop :=
  ∀ text, Visible text → ∃ value, http.fromStr text = some value ∧ http.toStr value = some text

theorem HeaderCode.Laws.toStr_fromStr {http : HeaderCode} (laws : http.Laws) {text : List Char} {value : HeaderValue}
    (shown : Visible text) (h : http.fromStr text = some value) : http.toStr value = some text := by
  obtain ⟨value', made, reads⟩ := laws text shown
  obtain rfl := Option.some.inj (h.symm.trans made)
  exact reads

theorem HeaderCode.Laws.fromStr_inj {http : HeaderCode} (laws : http.Laws) {a b : List Char} {value : HeaderValue}
    (shownA : Visible a) (shownB : Visible b) (ha : http.fromStr a = some value)
    (hb : http.fromStr b = some value) : a = b :=
  Option.some.inj ((laws.toStr_fromStr shownA ha).symm.trans (laws.toStr_fromStr shownB hb))

/-- `str::trim` on visible text. -/
def trim (text : List Char) : List Char :=
  ((text.dropWhile fun c => c = ' ' ∨ c = '\t').reverse.dropWhile fun c => c = ' ' ∨ c = '\t').reverse

/-- `if_none_match_hits`: a list of tags, `*` among them, each perhaps marked weak. -/
def ifNoneMatchHits (http : HeaderCode) (raw : HeaderValue) (etag : List Char) : Bool :=
  match http.toStr raw with
  | none => false
  | some raw =>
      (raw.splitOn ',').any fun tok =>
        trim tok = ['*'] ∨ trim tok = etag ∨ ((trim tok).dropPrefix? ['W', '/']).map trim = some etag

inductive RangeOutcome
  | unsupported
  | unsatisfiable
  | satisfiable (first last : Nat)
  deriving DecidableEq, Repr

/-- `parse::<u64>`. -/
def parseU64 (s : List Char) : Option Nat := parseUnsigned (2 ^ 64) s

/-- Subtraction of two `u64`. -/
def checkedSub (a b : Nat) : Option Nat := if b ≤ a then some (a - b) else none

/-- The last byte of a range that starts at `first`, below `total`. -/
def closeRange (total first : Nat) (lastS : List Char) : Option RangeOutcome :=
  match lastS with
  | [] => (checkedSub total 1).map fun final => .satisfiable first final
  | _ =>
      match parseU64 lastS with
      | some l =>
          if first ≤ l then (checkedSub total 1).map fun final => .satisfiable first (min l final)
          else some .unsupported
      | none => some .unsupported

/-- `bytes=`. -/
def BYTES_UNIT : List Char := ['b', 'y', 't', 'e', 's', '=']

/-- `parse_range`. -/
def parseRange (raw : List Char) (total : Nat) : Option RangeOutcome :=
  match raw.dropPrefix? BYTES_UNIT with
  | none => some .unsupported
  | some spec =>
      if ',' ∈ spec then some .unsupported
      else
        match splitOnce '-' spec with
        | none => some .unsupported
        | some (firstS, lastS) =>
            if firstS = [] then some .unsupported
            else
              match parseU64 firstS with
              | none => some .unsupported
              | some first =>
                  if total ≤ first then some .unsatisfiable else closeRange total first lastS

/-- The headers of a request that the handler reads. -/
structure SetupHeaders where
  ifNoneMatch : Option HeaderValue
  ifRange : Option HeaderValue
  range : Option HeaderValue

structure SetupResponse where
  status : Nat
  headers : List (String × HeaderValue)
  body : List UInt8
  deriving DecidableEq, Repr

/-- A header of a response. -/
def SetupResponse.header (resp : SetupResponse) (name : String) : Option HeaderValue :=
  (resp.headers.find? fun entry => entry.1 = name).map Prod.snd

/-- `setup-<epoch>-<block>`, in quotes. -/
def etagOf (epoch : String) (block : Nat) : List Char :=
  '"' :: "setup-".toList ++ epoch.toList ++ '-' :: Nat.toDigits 10 block ++ ['"']

/-- `HeaderValue::from_static`. -/
def fromStatic (text : String) : HeaderValue := text.toList.map fun c => UInt8.ofNat c.toNat

/-- `bytes.slice(first..=last)`. -/
def sliceInclusive (bytes : List UInt8) (first last : Nat) : Option (List UInt8) :=
  if first ≤ last + 1 ∧ last < bytes.length then some ((bytes.take (last + 1)).drop first) else none

/-- The three values that every answer but a `416` is tagged with. -/
structure Tags where
  etag : HeaderValue
  epoch : HeaderValue
  mode : HeaderValue

def Tags.headers (tags : Tags) : List (String × HeaderValue) :=
  [("etag", tags.etag), ("cache-control", fromStatic "no-cache"), ("x-risepir-epoch", tags.epoch),
    ("x-risepir-mode", tags.mode)]

def notModified (tags : Tags) : SetupResponse := ⟨304, tags.headers, []⟩

def full (tags : Tags) (bytes : List UInt8) : SetupResponse :=
  ⟨200, ("content-type", fromStatic "application/octet-stream") :: tags.headers ++
    [("accept-ranges", fromStatic "bytes")], bytes⟩

def partialContent (http : HeaderCode) (tags : Tags) (bytes : List UInt8) (first last : Nat) :
    Option SetupResponse := do
  let slice ← sliceInclusive bytes first last
  let contentRange ← http.fromStr ("bytes ".toList ++ Nat.toDigits 10 first ++ '-' :: Nat.toDigits 10 last ++
    '/' :: Nat.toDigits 10 bytes.length)
  return ⟨206, ("content-type", fromStatic "application/octet-stream") :: ("content-range", contentRange) ::
    ("accept-ranges", fromStatic "bytes") :: tags.headers, slice⟩

def rangeNotSatisfiable (http : HeaderCode) (bytes : List UInt8) : Option SetupResponse := do
  let contentRange ← http.fromStr ("bytes */".toList ++ Nat.toDigits 10 bytes.length)
  return ⟨416, [("content-range", contentRange), ("accept-ranges", fromStatic "bytes")], []⟩

/-- The `Range` header, once `If-Range` names the bundle about to be sent; the full body for
everything it does not support. -/
def serveRange (http : HeaderCode) (tags : Tags) (bytes : List UInt8) (range : HeaderValue) :
    Option SetupResponse :=
  match http.toStr range with
  | none => some (full tags bytes)
  | some raw =>
      match parseRange raw bytes.length with
      | none => none
      | some (.satisfiable first last) => partialContent http tags bytes first last
      | some .unsatisfiable => rangeNotSatisfiable http bytes
      | some .unsupported => some (full tags bytes)

/-- The answer to a request once the bundle is chosen. -/
def respond (http : HeaderCode) (tags : Tags) (etag : List Char) (bytes : List UInt8)
    (headers : SetupHeaders) : Option SetupResponse :=
  if headers.ifNoneMatch.any fun raw => ifNoneMatchHits http raw etag then some (notModified tags)
  else
    match headers.range with
    | none => some (full tags bytes)
    | some range =>
        if headers.ifRange.bind http.toStr = some etag then serveRange http tags bytes range
        else some (full tags bytes)

variable {p : CuckooParams} {C : SegmentedCuckoo p} {B : PirBackend}

/-- The tags of a bundle pinned at `block`. -/
def tagsOf (http : HeaderCode) (node : NodeState C B) (block : Nat) : Option Tags := do
  let etag ← http.fromStr (etagOf node.epoch block)
  let epoch ← http.fromStr node.epoch.toList
  return ⟨etag, epoch, fromStatic (if node.complete then "1" else "0")⟩

/-- `GET /setup`: the handler, and the node with the bundle it served cached. -/
def setupHandler (http : HeaderCode) (node : NodeState C B) (headers : SetupHeaders) :
    NodeState C B × Option SetupResponse :=
  let (node', bundle) := node.setupBytes
  (node', do
    let tags ← tagsOf http node bundle.block
    respond http tags (etagOf node.epoch bundle.block) (encodeSetup bundle) headers)

section Ranges

/-- The text asks for one range that begins at `first`. -/
def Begins (raw : List Char) (first : Nat) (rest : List Char) : Prop :=
  ∃ digits, raw = BYTES_UNIT ++ (digits ++ '-' :: rest) ∧ ',' ∉ rest ∧
    parseU64 digits = some first

/-- The end that is stated for it: none, or a position not before `first`. -/
def Ends (first : Nat) (rest : List Char) : Option Nat → Prop
  | none => rest = []
  | some last => parseU64 rest = some last ∧ first ≤ last

theorem dropUnit (spec : List Char) : (BYTES_UNIT ++ spec).dropPrefix? BYTES_UNIT = some spec := by
  simp [List.dropPrefix?_append_of_beq]

theorem dropUnit_eq_some {raw spec : List Char} :
    raw.dropPrefix? BYTES_UNIT = some spec ↔ raw = BYTES_UNIT ++ spec := by
  rw [List.dropPrefix?_eq_some_iff]
  constructor
  · rintro ⟨unit, rfl, same⟩
    rw [beq_iff_eq.mp same]
  · rintro rfl
    exact ⟨BYTES_UNIT, rfl, beq_self_eq_true _⟩

/-- Digits and a `+` are neither of the separators. -/
theorem separator_free {digits : List Char} {v : Nat} (h : parseU64 digits = some v) :
    '-' ∉ digits ∧ ',' ∉ digits ∧ digits ≠ [] := by
  refine ⟨fun mem => ?_, fun mem => ?_, ?_⟩
  · rcases mem_of_parseUnsigned h _ mem with digit | plus
    · simp at digit
    · simp at plus
  · rcases mem_of_parseUnsigned h _ mem with digit | plus
    · simp at digit
    · simp at plus
  · rintro rfl
    cases h

theorem parseRange_begins {raw rest : List Char} {first : Nat} (h : Begins raw first rest) (total : Nat) :
    parseRange raw total =
      if total ≤ first then some .unsatisfiable else closeRange total first rest := by
  obtain ⟨digits, rfl, comma, read⟩ := h
  obtain ⟨dash, comma', hne⟩ := separator_free read
  have single : ',' ∉ digits ++ '-' :: rest := by
    simp [comma, comma']
  unfold parseRange
  rw [dropUnit]
  dsimp only
  rw [if_neg single, splitOnce_append dash]
  dsimp only
  rw [if_neg hne, read]

/-- Whatever does not begin a range is not supported. -/
theorem parseRange_other {raw : List Char} (h : ¬ ∃ first rest, Begins raw first rest) (total : Nat) :
    parseRange raw total = some .unsupported := by
  unfold parseRange
  cases hspec : raw.dropPrefix? BYTES_UNIT with
  | none => rfl
  | some spec =>
      dsimp only
      by_cases comma : ',' ∈ spec
      · rw [if_pos comma]
      · rw [if_neg comma]
        cases hparts : splitOnce '-' spec with
        | none => rfl
        | some parts =>
            obtain ⟨firstS, lastS⟩ := parts
            dsimp only
            by_cases suffix : firstS = []
            · rw [if_pos suffix]
            · rw [if_neg suffix]
              cases read : parseU64 firstS with
              | none => rfl
              | some first =>
                  exfalso
                  apply h
                  obtain ⟨rfl, -⟩ := splitOnce_eq_some.mp hparts
                  simp only [List.mem_append, List.mem_cons, not_or] at comma
                  exact ⟨first, lastS, firstS, dropUnit_eq_some.mp hspec, comma.2.2, read⟩

/-- The end of a range below `total`: clamped where one is stated, unsupported where what is
stated is none. -/
theorem closeRange_spec {total first : Nat} (below : first < total) (rest : List Char) :
    (∃ last, Ends first rest last ∧ closeRange total first rest =
        some (.satisfiable first (min (last.getD (total - 1)) (total - 1)))) ∨
      (¬ ∃ last, Ends first rest last) ∧ closeRange total first rest = some .unsupported := by
  have final : checkedSub total 1 = some (total - 1) := if_pos (by omega)
  cases rest with
  | nil =>
      left
      refine ⟨none, rfl, ?_⟩
      simp [closeRange, final]
  | cons c rest =>
      cases read : parseU64 (c :: rest) with
      | none =>
          right
          constructor
          · rintro ⟨last, ends⟩
            cases last with
            | none => cases ends
            | some last =>
                have stated := ends.1
                rw [read] at stated
                cases stated
          · simp [closeRange, read]
      | some l =>
          by_cases ordered : first ≤ l
          · left
            refine ⟨some l, ⟨read, ordered⟩, ?_⟩
            simp [closeRange, read, ordered, final]
          · right
            constructor
            · rintro ⟨last, ends⟩
              cases last with
              | none => cases ends
              | some last =>
                  obtain ⟨stated, le⟩ := ends
                  rw [read] at stated
                  cases stated
                  exact ordered le
            · simp [closeRange, read, ordered]

/-- What an outcome says about the text it was read from. -/
structure ParsedRange (raw : List Char) (total : Nat) (outcome : RangeOutcome) : Prop where
  /-- In range, and the range asked for, clamped to the end. -/
  satisfiable : ∀ first last, outcome = .satisfiable first last →
    first ≤ last ∧ last < total ∧ ∃ rest stated, Begins raw first rest ∧ Ends first rest stated ∧
      last = min (stated.getD (total - 1)) (total - 1)
  unsatisfiable : outcome = .unsatisfiable → ∃ first rest, Begins raw first rest ∧ total ≤ first
  /-- A suffix range. -/
  suffix : ∀ tail, raw = BYTES_UNIT ++ '-' :: tail → outcome = .unsupported
  /-- Several ranges. -/
  several : ∀ spec, raw = BYTES_UNIT ++ spec → ',' ∈ spec → outcome = .unsupported
  /-- Neither a position at or past the end nor a range. -/
  unparsed : (∀ first rest, Begins raw first rest → first < total ∧ ¬ ∃ stated, Ends first rest stated) →
    outcome = .unsupported

/-- A text that begins a range is neither a suffix range nor several ranges. -/
theorem Begins.single {raw rest spec : List Char} {first : Nat} (h : Begins raw first rest)
    (same : raw = BYTES_UNIT ++ spec) : spec.head? ≠ some '-' ∧ ',' ∉ spec := by
  obtain ⟨digits, rfl, comma, read⟩ := h
  obtain ⟨dash, comma', hne⟩ := separator_free read
  rw [← List.append_cancel_left same]
  constructor
  · cases digits with
    | nil => exact absurd rfl hne
    | cons c digits =>
        simp only [List.mem_cons, not_or] at dash
        simpa using Ne.symm dash.1
  · simp [comma, comma']

theorem ParsedRange.of_begins {raw rest : List Char} {total first : Nat} {outcome : RangeOutcome}
    (begins : Begins raw first rest)
    (satisfiable : ∀ first last, outcome = .satisfiable first last →
      first ≤ last ∧ last < total ∧ ∃ rest stated, Begins raw first rest ∧ Ends first rest stated ∧
        last = min (stated.getD (total - 1)) (total - 1))
    (unsatisfiable : outcome = .unsatisfiable → total ≤ first)
    (unparsed : first < total → (¬ ∃ stated, Ends first rest stated) → outcome = .unsupported) :
    ParsedRange raw total outcome where
  satisfiable := satisfiable
  unsatisfiable h := ⟨first, rest, begins, unsatisfiable h⟩
  suffix _ same := absurd rfl (begins.single same).1
  several _ same mem := absurd mem (begins.single same).2
  unparsed h := unparsed (h first rest begins).1 (h first rest begins).2

/-- `parse_range` never panics, and its outcome is what the text says. -/
theorem parseRange_spec (raw : List Char) (total : Nat) :
    ∃ outcome, parseRange raw total = some outcome ∧ ParsedRange raw total outcome := by
  by_cases h : ∃ first rest, Begins raw first rest
  · obtain ⟨first, rest, begins⟩ := h
    rw [parseRange_begins begins]
    by_cases past : total ≤ first
    · rw [if_pos past]
      refine ⟨_, rfl, ParsedRange.of_begins begins ?_ (fun _ => past) ?_⟩
      · intro first last eq
        cases eq
      · intro below
        omega
    · have below : first < total := by omega
      rw [if_neg past]
      rcases closeRange_spec below rest with ⟨stated, ends, closed⟩ | ⟨endless, closed⟩
      · refine ⟨_, closed, ParsedRange.of_begins begins ?_ ?_ ?_⟩
        · intro first' last eq
          cases eq
          have ordered : first ≤ stated.getD (total - 1) := by
            cases stated with
            | none =>
                simp only [Option.getD_none]
                omega
            | some l => exact ends.2
          exact ⟨by omega, by omega, rest, stated, begins, ends, rfl⟩
        · intro eq
          cases eq
        · intro _ endless
          exact absurd ⟨stated, ends⟩ endless
      · refine ⟨_, closed, ParsedRange.of_begins begins ?_ ?_ fun _ _ => rfl⟩
        · intro first last eq
          cases eq
        · intro eq
          cases eq
  · refine ⟨_, parseRange_other h total, ?_, ?_, fun _ _ => rfl, fun _ _ _ => rfl, fun _ => rfl⟩
    · intro first last eq
      cases eq
    · intro eq
      cases eq

end Ranges

end RisePir.Http.Ranges
