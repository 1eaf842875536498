import Mathlib.Data.List.Nodup
import Mathlib.Logic.Function.Basic
import RisePir.Feed.Snapshot
import RisePir.Lib.Text

set_option autoImplicit false
set_option relaxedAutoImplicit false

/-! The sidecar that keeps the last audit's counts beside the state file, as lines `key=value`. -/

namespace RisePir.Rpc.Sidecar

open RisePir.Lib.Text
open RisePir.Feed.Snapshot

structure AuditRecord where
  checked : Nat
  disagreed : Nat
  block : Nat
  seed : Nat
  deriving DecidableEq, Repr

inductive Key
  | checked
  | disagreed
  | block
  | seed
  deriving DecidableEq, Repr

def Key.text : Key → List Char
  | .checked => "checked".toList
  | .disagreed => "disagreed".toList
  | .block => "block".toList
  | .seed => "seed".toList

def Key.all : List Key := [.checked, .disagreed, .block, .seed]

def AuditRecord.field (record : AuditRecord) : Key → Nat
  | .checked => record.checked
  | .disagreed => record.disagreed
  | .block => record.block
  | .seed => record.seed

/-- One line of a sidecar. -/
def entry (key : Key) (value : List Char) : List Char := key.text ++ '=' :: value

def sidecarComment : List Char :=
  ("# risepir snapshot audit sidecar (ADR-0040) — plain key=value, " ++
    "regenerated at every snapshot bootstrap").toList

/-- The text that `write_sidecar` stages and renames into place. -/
def sidecarText (record : AuditRecord) : List Char :=
  sidecarComment ++ '\n' ::
    Key.all.flatMap fun key => entry key (Nat.toDigits 10 (record.field key)) ++ ['\n']

/-- `str::lines`. -/
def lines (text : List Char) : List (List Char) :=
  let pieces := text.splitOn '\n'
  pieces.dropLast.map stripReturn ++
    match pieces.getLast? with
    | none | some [] => []
    | some rest => [rest]

/-- The slot that a line's key selects. -/
def slotFor (k : List Char) : Option Key :=
  if k = "checked".toList then some .checked
  else if k = "disagreed".toList then some .disagreed
  else if k = "block".toList then some .block
  else if k = "seed".toList then some .seed
  else none

abbrev Slots := Key → Option Nat

/-- The loop of `parse_sidecar`; `debug` renders `{:?}`. -/
def fillSlots (debug : List Char → String) : Nat → List (List Char) → Slots → Except String Slots
  | _, [], slots => .ok slots
  | lineNo, raw :: rest, slots =>
      let line := trim raw
      if line = [] ∨ line.head? = some '#' then fillSlots debug (lineNo + 1) rest slots
      else
        match splitOnce '=' line with
        | none => .error s!"line {lineNo}: expected key=value, got {debug line}"
        | some (k, v) =>
            match slotFor k with
            | none => .error s!"line {lineNo}: unknown key {debug k}"
            | some key =>
                if (slots key).isSome then .error s!"line {lineNo}: duplicate key {debug k}"
                else
                  match parseUnsigned (2 ^ 64) v with
                  | none => .error s!"line {lineNo}: {String.ofList k}={debug v} is not a u64"
                  | some n => fillSlots debug (lineNo + 1) rest (Function.update slots key (some n))

/-- `parse_sidecar`. -/
def parseSidecar (debug : List Char → String) (text : List Char) : Except String AuditRecord :=
  match fillSlots debug 1 (lines text) (fun _ => none) with
  | .error e => .error e
  | .ok slots =>
      match slots .checked, slots .disagreed, slots .block, slots .seed with
      | some checked, some disagreed, some block, some seed =>
          if checked < disagreed then
            .error s!"disagreed ({disagreed}) exceeds checked ({checked})"
          else .ok ⟨checked, disagreed, block, seed⟩
      | _, _, _, _ =>
          .error "missing one or more required keys (checked, disagreed, block, seed)"

inductive AuditSidecar
  | unknown
  | known (record : AuditRecord)
  deriving DecidableEq, Repr

/-- `read_sidecar`, with what reading the file gives; `none` where that fails. -/
def readSidecar (debug : List Char → String) (text : Option (List Char)) : AuditSidecar :=
  match text with
  | none => .unknown
  | some text =>
      match parseSidecar debug text with
      | .ok record => .known record
      | .error _ => .unknown

/-- The lines that are neither blank nor a comment. -/
def entriesOf (lines : List (List Char)) : List (List Char) :=
  (lines.map trim).filter fun line => line ≠ [] ∧ line.head? ≠ some '#'

/-- What a sidecar has to be: one entry for each key, in any order, each a number of 64 bits. -/
structure Spells (text : List Char) (record : AuditRecord) : Prop where
  entries : ∃ value : Key → List Char,
    (entriesOf (lines text)).Perm (Key.all.map fun key => entry key (value key)) ∧
      ∀ key, parseUnsigned (2 ^ 64) (value key) = some (record.field key)
  ordered : record.disagreed ≤ record.checked

section Filling

variable {debug : List Char → String}

theorem slotFor_eq_some {k : List Char} {key : Key} : slotFor k = some key ↔ k = key.text := by
  constructor
  · intro h
    unfold slotFor at h
    split_ifs at h with checked disagreed block seed
    · cases h
      exact checked
    · cases h
      exact disagreed
    · cases h
      exact block
    · cases h
      exact seed
  · rintro rfl
    cases key <;> rfl

theorem splitOnce_entry (key : Key) (value : List Char) :
    splitOnce '=' (entry key value) = some (key.text, value) := by
  apply splitOnce_append
  cases key <;> decide

/-- The slots once `pairs` have been filled in. -/
def fill (slots : Slots) (pairs : List (Key × List Char)) : Slots :=
  pairs.foldl (fun slots pair => Function.update slots pair.1 (parseUnsigned (2 ^ 64) pair.2)) slots

/-- The pairs of key and value that a list of entries consists of, each key for a slot that is free. -/
structure Fills (slots : Slots) (lines : List (List Char)) (pairs : List (Key × List Char)) : Prop where
  spelt : lines = pairs.map fun pair => entry pair.1 pair.2
  once : (pairs.map Prod.fst).Nodup
  free : ∀ pair ∈ pairs, slots pair.1 = none
  numbers : ∀ pair ∈ pairs, (parseUnsigned (2 ^ 64) pair.2).isSome

theorem Fills.cons {slots : Slots} {lines : List (List Char)} {pairs : List (Key × List Char)}
    {key : Key} {value : List Char} {n : Nat} (free : slots key = none)
    (number : parseUnsigned (2 ^ 64) value = some n)
    (rest : Fills (Function.update slots key (some n)) lines pairs) :
    Fills slots (entry key value :: lines) ((key, value) :: pairs) := by
  have others : ∀ pair ∈ pairs, pair.1 ≠ key := by
    intro pair mem same
    have here := rest.free pair mem
    rw [same, Function.update_self] at here
    cases here
  constructor
  · rw [List.map_cons, ← rest.spelt]
  · rw [List.map_cons, List.nodup_cons]
    refine ⟨fun mem => ?_, rest.once⟩
    obtain ⟨pair, inside, same⟩ := List.mem_map.mp mem
    exact others pair inside same
  · rintro pair (_ | ⟨_, mem⟩)
    · exact free
    · have here := rest.free pair mem
      rwa [Function.update_of_ne (others pair mem)] at here
  · rintro pair (_ | ⟨_, mem⟩)
    · rw [number]
      rfl
    · exact rest.numbers pair mem

theorem Fills.tail {slots : Slots} {line : List Char} {lines : List (List Char)}
    {pairs : List (Key × List Char)} (h : Fills slots (line :: lines) pairs) :
    ∃ key value n rest, line = entry key value ∧ slots key = none ∧
      parseUnsigned (2 ^ 64) value = some n ∧ pairs = (key, value) :: rest ∧
      Fills (Function.update slots key (some n)) lines rest := by
  cases pairs with
  | nil => cases h.spelt
  | cons pair rest =>
      obtain ⟨same, spelt⟩ := List.cons.inj h.spelt
      obtain ⟨fresh, once⟩ := List.nodup_cons.mp h.once
      obtain ⟨n, number⟩ := Option.isSome_iff_exists.mp (h.numbers pair List.mem_cons_self)
      refine ⟨pair.1, pair.2, n, rest, same, h.free pair List.mem_cons_self, number, rfl, spelt, once,
        fun other mem => ?_, fun other mem => h.numbers other (List.mem_cons_of_mem _ mem)⟩
      rw [Function.update_of_ne]
      · exact h.free other (List.mem_cons_of_mem _ mem)
      · intro same
        rw [← same] at fresh
        exact fresh (List.mem_map_of_mem mem)

theorem entriesOf_cons (raw : List Char) (rest : List (List Char)) :
    entriesOf (raw :: rest) = if trim raw = [] ∨ (trim raw).head? = some '#' then entriesOf rest
      else trim raw :: entriesOf rest := by
  rw [entriesOf, List.map_cons, List.filter_cons]
  by_cases blank : trim raw = [] ∨ (trim raw).head? = some '#'
  · rw [if_pos blank, if_neg]
    · rfl
    · simpa [imp_iff_or_not, or_comm] using blank
  · rw [if_neg blank, if_pos]
    · rfl
    · simpa [not_or] using blank

theorem fillSlots_ok (debug : List Char → String) {lines : List (List Char)} {n : Nat}
    {slots slots' : Slots} : fillSlots debug n lines slots = .ok slots' ↔
      ∃ pairs, Fills slots (entriesOf lines) pairs ∧ slots' = fill slots pairs := by
  induction lines generalizing n slots with
  | nil =>
      rw [fillSlots]
      constructor
      · rintro ⟨rfl⟩
        exact ⟨[], ⟨rfl, List.nodup_nil, nofun, nofun⟩, rfl⟩
      · rintro ⟨pairs, fills, rfl⟩
        cases pairs with
        | nil => rfl
        | cons pair rest => cases fills.spelt
  | cons raw rest ih =>
      rw [fillSlots, entriesOf_cons]
      by_cases blank : trim raw = [] ∨ (trim raw).head? = some '#'
      · rw [if_pos blank, if_pos blank, ih]
      · rw [if_neg blank, if_neg blank]
        constructor
        · intro h
          cases parts : splitOnce '=' (trim raw) with
          | none =>
              rw [parts] at h
              cases h
          | some kv =>
              rw [parts] at h
              dsimp only at h
              cases selected : slotFor kv.1 with
              | none =>
                  rw [selected] at h
                  cases h
              | some key =>
                  rw [selected] at h
                  dsimp only at h
                  split_ifs at h with taken
                  cases number : parseUnsigned (2 ^ 64) kv.2 with
                  | none =>
                      rw [number] at h
                      cases h
                  | some value =>
                      rw [number] at h
                      obtain ⟨pairs, fills, rfl⟩ := ih.mp h
                      have spelt : trim raw = entry key kv.2 := by
                        rw [entry, ← slotFor_eq_some.mp selected]
                        exact (splitOnce_eq_some.mp parts).1
                      refine ⟨(key, kv.2) :: pairs, ?_, ?_⟩
                      · rw [spelt]
                        exact .cons (by simpa using taken) number fills
                      · simp only [fill, List.foldl_cons, number]
        · rintro ⟨pairs, fills, rfl⟩
          obtain ⟨key, value, number, others, spelt, free, spells, rfl, rest_fills⟩ := fills.tail
          simp only [spelt, splitOnce_entry, slotFor_eq_some.mpr rfl]
          rw [if_neg (by rw [free]; simp), spells]
          exact ih.mpr ⟨others, rest_fills, by rw [fill, List.foldl_cons, spells]; rfl⟩

theorem fill_of_notMem {slots : Slots} {pairs : List (Key × List Char)} {key : Key}
    (absent : key ∉ pairs.map Prod.fst) : fill slots pairs key = slots key := by
  induction pairs generalizing slots with
  | nil => rfl
  | cons pair rest ih =>
      rw [List.map_cons, List.mem_cons, not_or] at absent
      rw [fill, List.foldl_cons, ← fill, ih absent.2, Function.update_of_ne absent.1]

theorem fill_of_mem {slots : Slots} {pairs : List (Key × List Char)} {pair : Key × List Char}
    (once : (pairs.map Prod.fst).Nodup) (mem : pair ∈ pairs) :
    fill slots pairs pair.1 = parseUnsigned (2 ^ 64) pair.2 := by
  induction pairs generalizing slots with
  | nil => cases mem
  | cons first rest ih =>
      obtain ⟨fresh, once⟩ := List.nodup_cons.mp once
      rw [fill, List.foldl_cons, ← fill]
      rcases List.mem_cons.mp mem with rfl | mem
      · rw [fill_of_notMem fresh, Function.update_self]
      · exact ih once mem

end Filling

theorem Key.mem_all (key : Key) : key ∈ Key.all := by cases key <;> decide

theorem Key.all_nodup : Key.all.Nodup := by decide

/-- The record whose fields fill the slots. -/
theorem record_of_slots {slots : Slots} {record : AuditRecord} :
    (∀ key, slots key = some (record.field key)) ↔
      slots .checked = some record.checked ∧ slots .disagreed = some record.disagreed ∧
        slots .block = some record.block ∧ slots .seed = some record.seed := by
  constructor
  · exact fun all => ⟨all .checked, all .disagreed, all .block, all .seed⟩
  · rintro ⟨checked, disagreed, block, seed⟩ key
    cases key <;> assumption

/-- The slots are full with a record's fields exactly when there is an entry for every key. -/
theorem fills_all {lines : List (List Char)} {record : AuditRecord} :
    (∃ pairs, Fills (fun _ => none) lines pairs ∧
      ∀ key, fill (fun _ => none) pairs key = some (record.field key)) ↔
    ∃ value : Key → List Char, lines.Perm (Key.all.map fun key => entry key (value key)) ∧
      ∀ key, parseUnsigned (2 ^ 64) (value key) = some (record.field key) := by
  constructor
  · rintro ⟨pairs, fills, full⟩
    have filled : ∀ key, ∃ v, (key, v) ∈ pairs := by
      intro key
      by_contra absent
      have empty := full key
      rw [fill_of_notMem] at empty
      · cases empty
      · intro mem
        obtain ⟨pair, inside, rfl⟩ := List.mem_map.mp mem
        exact absent ⟨pair.2, inside⟩
    choose value mem using filled
    have own : ∀ pair ∈ pairs, entry pair.1 pair.2 = entry pair.1 (value pair.1) := by
      intro pair here
      have same := List.inj_on_of_nodup_map fills.once here (mem pair.1) rfl
      rw [congrArg Prod.snd same]
    have keys : (pairs.map Prod.fst).Perm Key.all := by
      rw [List.perm_ext_iff_of_nodup fills.once Key.all_nodup]
      exact fun key => ⟨fun _ => key.mem_all, fun _ => List.mem_map_of_mem (mem key)⟩
    refine ⟨value, ?_, fun key => ?_⟩
    · rw [fills.spelt, List.map_congr_left own]
      have images := keys.map fun key => entry key (value key)
      rwa [List.map_map] at images
    · rw [← full key]
      exact (fill_of_mem fills.once (mem key)).symm
  · rintro ⟨value, perm, numbers⟩
    obtain ⟨keys, spelt, keys_perm⟩ : ∃ keys : List Key,
        lines = keys.map (fun key => entry key (value key)) ∧
        keys.Perm Key.all := by
      have relation := congrFun (congrFun (List.eq_map_comp_perm fun key => entry key (value key)) lines)
        Key.all
      obtain ⟨keys, spelt, perm⟩ := relation.mpr perm
      exact ⟨keys, spelt, perm⟩
    have once : keys.Nodup := keys_perm.nodup_iff.mpr Key.all_nodup
    have firsts : (keys.map fun key => (key, value key)).map Prod.fst = keys := by
      rw [List.map_map]
      exact List.map_id _
    refine ⟨keys.map fun key => (key, value key), ⟨?_, ?_, fun _ _ => rfl, ?_⟩, fun key => ?_⟩
    · rw [spelt, List.map_map]
      rfl
    · rwa [firsts]
    · intro pair mem
      obtain ⟨key, -, rfl⟩ := List.mem_map.mp mem
      rw [numbers key]
      rfl
    · have mem : (key, value key) ∈ keys.map fun key => (key, value key) :=
        List.mem_map_of_mem (keys_perm.mem_iff.mpr key.mem_all)
      rw [← numbers key]
      exact fill_of_mem (by rwa [firsts]) mem

/-- A sidecar is accepted exactly when it spells the record. -/
theorem parseSidecar_ok (debug : List Char → String) {text : List Char} {record : AuditRecord} :
    parseSidecar debug text = .ok record ↔ Spells text record := by
  have accepted : parseSidecar debug text = .ok record ↔ (∃ slots,
      fillSlots debug 1 (lines text) (fun _ => none) = .ok slots ∧
        ∀ key, slots key = some (record.field key)) ∧ record.disagreed ≤ record.checked := by
    unfold parseSidecar
    cases filled : fillSlots debug 1 (lines text) (fun _ => none) with
    | error e => simp
    | ok slots =>
        simp only [Except.ok.injEq, exists_eq_left', record_of_slots]
        constructor
        · intro h
          split at h
          · split_ifs at h with order
            cases h
            exact ⟨⟨‹_›, ‹_›, ‹_›, ‹_›⟩, Nat.le_of_not_lt order⟩
          · cases h
        · rintro ⟨⟨checked, disagreed, block, seed⟩, order⟩
          simp only [checked, disagreed, block, seed]
          rw [if_neg (Nat.not_lt.mpr order)]
  rw [accepted]
  constructor
  · rintro ⟨⟨slots, filled, full⟩, order⟩
    obtain ⟨pairs, fills, rfl⟩ := (fillSlots_ok debug).mp filled
    exact ⟨fills_all.mp ⟨pairs, fills, full⟩, order⟩
  · rintro ⟨spelt, order⟩
    obtain ⟨pairs, fills, full⟩ := fills_all.mpr spelt
    exact ⟨⟨_, (fillSlots_ok debug).mpr ⟨pairs, fills, rfl⟩, full⟩, order⟩

section RoundTrip

theorem lines_cons {line rest : List Char} (whole : '\n' ∉ line) :
    lines (line ++ '\n' :: rest) = stripReturn line :: lines rest := by
  rw [lines, List.splitOn_append_cons_self_of_not_mem whole]
  obtain ⟨first, others, pieces⟩ := List.exists_cons_of_ne_nil (List.splitOn_ne_nil '\n' rest)
  rw [lines, pieces]
  rfl

theorem lines_nil : lines [] = [] := by decide

/-- A line that trimming and the end of a line leave as it is. -/
structure Plain (line : List Char) : Prop where
  first : ∀ c ∈ line.head?, isWhitespace c = false
  last : ∀ c ∈ line.getLast?, isWhitespace c = false

theorem Plain.trim {line : List Char} (h : Plain line) : trim line = line := by
  have before : ∀ l : List Char, (∀ c ∈ l.head?, isWhitespace c = false) →
      l.dropWhile isWhitespace = l := by
    intro l first
    cases l with
    | nil => rfl
    | cons c rest => rw [List.dropWhile_cons_of_neg (by simp [first c rfl])]
  rw [Feed.Snapshot.trim, before line h.first, before line.reverse, List.reverse_reverse]
  rw [List.head?_reverse]
  exact h.last

theorem Plain.stripReturn {line : List Char} (h : Plain line) : stripReturn line = line := by
  rw [Feed.Snapshot.stripReturn, if_neg]
  intro ends
  have := h.last _ ends
  revert this
  decide

theorem isWhitespace_digit {c : Char} (digit : c.isDigit = true) : isWhitespace c = false := by
  have range : 48 ≤ c.toNat ∧ c.toNat ≤ 57 := by
    simpa [Char.isDigit, UInt32.le_iff_toNat_le] using digit
  obtain ⟨low, high⟩ := range
  simp only [isWhitespace, decide_eq_false_iff_not]
  omega

theorem plain_entry (key : Key) (n : Nat) : Plain (entry key (Nat.toDigits 10 n)) := by
  constructor
  · intro c starts
    have first : (entry key (Nat.toDigits 10 n)).head? = key.text.head? := by
      cases key <;> rfl
    rw [first] at starts
    cases key <;> (obtain rfl := Option.some.inj starts; rfl)
  · intro c ends
    rw [entry, List.getLast?_append, List.getLast?_cons_of_ne_nil Nat.toDigits_ne_nil] at ends
    obtain ⟨last, known⟩ := Option.ne_none_iff_exists'.mp
      (List.getLast?_eq_none_iff.not.mpr (Nat.toDigits_ne_nil (n := n) (b := 10)))
    rw [known, Option.some_or, Option.mem_some_iff] at ends
    subst ends
    exact isWhitespace_digit
      (Nat.isDigit_of_mem_toDigits (by decide) (by decide) (List.mem_of_getLast? known))

theorem notMem_entry (key : Key) (n : Nat) : '\n' ∉ entry key (Nat.toDigits 10 n) := by
  intro mem
  rcases List.mem_append.mp mem with inside | value
  · revert inside
    cases key <;> decide
  · rcases List.mem_cons.mp value with equals | digit
    · cases equals
    · have := Nat.isDigit_of_mem_toDigits (by decide) (by decide) digit
      cases this

theorem lines_entries (record : AuditRecord) (keys : List Key) :
    lines (keys.flatMap fun key => entry key (Nat.toDigits 10 (record.field key)) ++ ['\n']) =
      keys.map fun key => entry key (Nat.toDigits 10 (record.field key)) := by
  induction keys with
  | nil => exact lines_nil
  | cons key rest ih =>
      rw [List.flatMap_cons, List.append_assoc, List.singleton_append,
        lines_cons (notMem_entry key _), (plain_entry key _).stripReturn, ih, List.map_cons]

theorem entriesOf_entries (record : AuditRecord) (keys : List Key) :
    entriesOf (keys.map fun key => entry key (Nat.toDigits 10 (record.field key))) =
      keys.map fun key => entry key (Nat.toDigits 10 (record.field key)) := by
  induction keys with
  | nil => rfl
  | cons key rest ih =>
      have carries : ¬ (entry key (Nat.toDigits 10 (record.field key)) = [] ∨
          (entry key (Nat.toDigits 10 (record.field key))).head? = some '#') := by
        rintro (blank | comment)
        · cases key <;> cases blank
        · cases key <;> cases comment
      rw [List.map_cons, entriesOf_cons, (plain_entry key (record.field key)).trim, if_neg carries, ih]

/-- What `write_sidecar` writes spells the record it was given. -/
theorem spells_sidecarText {record : AuditRecord} (small : ∀ key, record.field key < 2 ^ 64)
    (ordered : record.disagreed ≤ record.checked) : Spells (sidecarText record) record := by
  refine ⟨⟨fun key => Nat.toDigits 10 (record.field key), ?_, fun key => ?_⟩, ordered⟩
  · have comment : '\n' ∉ sidecarComment := by decide +kernel
    have skipped : trim (stripReturn sidecarComment) = [] ∨
        (trim (stripReturn sidecarComment)).head? = some '#' := .inr (by decide +kernel)
    rw [sidecarText, lines_cons comment, entriesOf_cons, if_pos skipped, lines_entries,
      entriesOf_entries]
  · exact parseUnsigned_toDigits (small key)

end RoundTrip

theorem readSidecar_spells (debug : List Char → String) {text : Option (List Char)}
    {record : AuditRecord} :
    readSidecar debug text = .known record ↔ ∃ chars, text = some chars ∧ Spells chars record := by
  cases text with
  | none => simp [readSidecar]
  | some chars =>
      simp only [Option.some.injEq, exists_eq_left', ← parseSidecar_ok debug]
      rw [readSidecar]
      cases parseSidecar debug chars with
      | error e => simp
      | ok other => simp

theorem readSidecar_written (debug : List Char → String) {record : AuditRecord}
    (small : ∀ key, record.field key < 2 ^ 64) (ordered : record.disagreed ≤ record.checked) :
    readSidecar debug (some (sidecarText record)) = .known record :=
  (readSidecar_spells debug).mpr ⟨_, rfl, spells_sidecarText small ordered⟩

/-- The format of the sidecar. A restart reports a record exactly when the file is there and spells
it; a file spells one record at most; and a record that was written is reported as it was. -/
theorem sidecar_format (debug : List Char → String) (record : AuditRecord) :
    (∀ text, readSidecar debug text = .known record ↔
      ∃ chars, text = some chars ∧ Spells chars record) ∧
    (∀ chars other, Spells chars record → Spells chars other → other = record) ∧
    ((∀ key, record.field key < 2 ^ 64) → record.disagreed ≤ record.checked →
      readSidecar debug (some (sidecarText record)) = .known record) := by
  refine ⟨fun text => readSidecar_spells debug, fun chars other spells also => ?_,
    readSidecar_written debug⟩
  have one := (parseSidecar_ok debug).mpr spells
  rw [(parseSidecar_ok debug).mpr also] at one
  exact Except.ok.inj one

end RisePir.Rpc.Sidecar
