import RisePir.Feed.Snapshot
import RisePir.Feed.Trace
import RisePir.Rpc.Front

set_option autoImplicit false
set_option relaxedAutoImplicit false

/-! The texts that are read as numbers: the feed's hex quantities, the front end's block selectors
and the snapshot's balances. The first two go through `from_str_radix`, which takes a plus sign. -/

namespace RisePir.Rpc.Grammar

open RisePir.Lib.Text
open RisePir.Proto.Types
open RisePir.Feed.Snapshot (parseWei)
open RisePir.Feed.Trace (parseHexU128 parseHexU128_eq_ok)
open RisePir.Rpc.Front

theorem hexNumber_eq_some {n v : Nat} {s : List Char} :
    hexNumber n s = some v ↔ (∀ c ∈ s, (hexValue c).isSome = true) ∧ hexNumeral n s = v := by
  induction s generalizing n with
  | nil => simp [hexNumber, hexNumeral]
  | cons c s ih =>
      rw [List.forall_mem_cons, hexNumber]
      cases hc : hexValue c with
      | none => simp
      | some d =>
          have spelled : hexNumeral n (c :: s) = hexNumeral (16 * n + d) s := by simp [hexNumeral, hc]
          rw [spelled]
          simpa using ih

/-- The digits of a block number. -/
theorem blockDigits_eq_some {digits : List Char} {v : Nat} :
    (if digits = [] then none
      else (hexNumber 0 digits).bind fun n => if n < 2 ^ 64 then some n else none) = some v ↔
      IsHex (2 ^ 64) digits v := by
  by_cases empty : digits = []
  · simp [empty, IsHex]
  · rw [if_neg empty, Option.bind_eq_some_iff]
    constructor
    · rintro ⟨n, hn, small⟩
      split_ifs at small with below
      cases small
      exact ⟨empty, (hexNumber_eq_some.mp hn).1, (hexNumber_eq_some.mp hn).2, below⟩
    · rintro ⟨-, all, value, below⟩
      exact ⟨v, hexNumber_eq_some.mpr ⟨all, value⟩, if_pos below⟩

/-- A block number is read as every other hexadecimal number is. -/
theorem u64FromHex_eq_some {hex : List Char} {v : Nat} :
    u64FromHex hex = some v ↔ parseHex (2 ^ 64) hex = some v := by
  rw [parseHex_eq_some (by decide)]
  unfold u64FromHex
  dsimp only
  split
  · next rest =>
      refine blockDigits_eq_some.trans ⟨fun h => .inr ⟨rest, rfl, h⟩, ?_⟩
      rintro (⟨-, all, -⟩ | ⟨digits, same, h⟩)
      · have plus := all '+' (by simp)
        exact absurd plus (by decide)
      · cases same
        exact h
  · next unsigned =>
      refine blockDigits_eq_some.trans ⟨.inl, ?_⟩
      rintro (h | ⟨digits, rfl, -⟩)
      · exact h
      · exact absurd rfl (unsigned digits)

theorem selectedBlock_eq_some {block : String} {n : Nat} : selectedBlock block = some n ↔
    IsQuantity (2 ^ 64) block.toList n ∨ IsPlusQuantity (2 ^ 64) block.toList n := by
  rw [← parseHex_stripped (by decide), selectedBlock, Option.bind_eq_bind, Option.bind_eq_some_iff,
    Option.bind_eq_some_iff]
  simp only [u64FromHex_eq_some]

theorem classifyBlockParam_eq_ok {debug : String → String} {block : String} {head : Nat}
    (untagged : isTag block = false) :
    classifyBlockParam debug block head = .ok () ↔ selectedBlock block = some head := by
  unfold classifyBlockParam
  rw [untagged, if_neg Bool.false_ne_true]
  cases selectedBlock block with
  | none => simp
  | some n =>
      dsimp only
      split_ifs with same below
      · simp [same]
      · simp [same]
      · simp [same]

/-- The digits of a balance. -/
theorem wholeWei_eq_some {digits : List Char} (hne : digits ≠ []) (all : ∀ c ∈ digits, c.isDigit = true)
    {wei : Balance} : parseUnsigned (2 ^ 128) digits = some wei ↔
      Nat.ofDigitChars 10 digits 0 = wei ∧ wei < 2 ^ 128 := by
  rw [parseUnsigned_digits (by decide) hne all]
  constructor
  · intro h
    split_ifs at h with below
    cases h
    exact ⟨rfl, below⟩
  · rintro ⟨rfl, below⟩
    exact if_pos below

/-- What `parse_wei` makes of the parts around the dot of `s`. -/
def weiOfParts (debug : List Char → String) (s intPart : List Char) (fracPart : Option (List Char)) :
    Except String Balance :=
  if intPart = [] ∨ ¬ intPart.all Char.isDigit then
    .error s!"balance must be decimal wei, got {debug s}"
  else if fracPart.any fun frac => frac = [] ∨ ¬ frac.all (· = '0') then
    .error (s!"balance has a nonzero (or malformed) fractional part, got {debug s} — refusing to " ++
      "round wei")
  else
    match parseUnsigned (2 ^ 128) intPart with
    | some balance => .ok balance
    | none => .error s!"balance does not fit u128, got {debug s}"

theorem weiOfParts_eq_ok {debug : List Char → String} {s intPart : List Char}
    {fracPart : Option (List Char)} {wei : Balance} :
    weiOfParts debug s intPart fracPart = .ok wei ↔
      (intPart ≠ [] ∧ (∀ c ∈ intPart, c.isDigit = true) ∧
        Nat.ofDigitChars 10 intPart 0 = wei ∧ wei < 2 ^ 128) ∧
      ∀ frac, fracPart = some frac → frac ≠ [] ∧ ∀ c ∈ frac, c = '0' := by
  have zeros : (fracPart.any fun frac => frac = [] ∨ ¬ frac.all (· = '0')) = true ↔
      ¬ ∀ frac, fracPart = some frac → frac ≠ [] ∧ ∀ c ∈ frac, c = '0' := by
    cases fracPart with
    | none => simp
    | some frac =>
        simp [imp_iff_not_or]
  unfold weiOfParts
  split_ifs with malformed fraction
  · refine ⟨nofun, ?_⟩
    rintro ⟨⟨hne, all, -⟩, -⟩
    rcases malformed with empty | bad
    · exact absurd empty hne
    · exact absurd (List.all_eq_true.mpr all) bad
  · exact ⟨nofun, fun h => absurd h.2 (zeros.mp fraction)⟩
  · simp only [not_or, not_not, List.all_eq_true] at malformed
    obtain ⟨hne, all⟩ := malformed
    have whole := @wholeWei_eq_some intPart hne all wei
    have zero := not_not.mp (mt zeros.mpr fraction)
    cases hread : parseUnsigned (2 ^ 128) intPart with
    | none =>
        rw [hread] at whole
        refine ⟨nofun, fun h => ?_⟩
        cases whole.mpr h.1.2.2
    | some balance =>
        rw [hread] at whole
        constructor
        · intro h
          cases h
          exact ⟨⟨hne, all, whole.mp rfl⟩, zero⟩
        · intro h
          exact congrArg _ (Option.some.inj (whole.mpr h.1.2.2))

/-- Balances are read exactly by their grammar. -/
theorem parseWei_eq_ok {debug : List Char → String} {s : List Char} {wei : Balance} :
    parseWei debug s = .ok wei ↔ IsWholeDecimal (2 ^ 128) s wei := by
  unfold parseWei
  cases hsplit : splitOnce '.' s with
  | none =>
      have dotless := splitOnce_eq_none.mp hsplit
      refine (@weiOfParts_eq_ok debug s s none wei).trans ?_
      constructor
      · rintro ⟨⟨hne, all, value, below⟩, -⟩
        exact ⟨s, [], by simp, hne, all, value, below, .inl rfl⟩
      · rintro ⟨digits, fraction, rfl, hne, all, value, below, rfl | ⟨zeros, rfl, -⟩⟩
        · rw [List.append_nil]
          exact ⟨⟨hne, all, value, below⟩, fun frac h => by cases h⟩
        · exact absurd (by simp) dotless
  | some parts =>
      obtain ⟨i, f⟩ := parts
      obtain ⟨rfl, before⟩ := splitOnce_eq_some.mp hsplit
      refine (@weiOfParts_eq_ok debug _ i (some f) wei).trans ?_
      constructor
      · rintro ⟨⟨hne, all, value, below⟩, zero⟩
        exact ⟨i, '.' :: f, rfl, hne, all, value, below, .inr ⟨f, rfl, zero f rfl⟩⟩
      · rintro ⟨digits, fraction, same, hne, all, value, below, dotted⟩
        have dotless : '.' ∉ digits := fun h => by simpa using all '.' h
        rcases dotted with rfl | ⟨zeros, rfl, some_zeros⟩
        · rw [List.append_nil] at same
          exact absurd (same ▸ (by simp : '.' ∈ i ++ '.' :: f)) dotless
        · rw [same, splitOnce_append dotless] at hsplit
          cases hsplit
          exact ⟨⟨hne, all, value, below⟩, fun frac h => by cases h; exact some_zeros⟩

/-- A reader that takes the plus sign agrees with the grammar on the texts without it. -/
theorem agrees_iff {bound : Nat} {s : List Char} {read : Nat → Prop}
    (reads : ∀ v, read v ↔ IsQuantity bound s v ∨ IsPlusQuantity bound s v) :
    (∀ v, read v ↔ IsQuantity bound s v) ↔ ¬ ∃ v, IsPlusQuantity bound s v := by
  constructor
  · rintro agree ⟨v, signed⟩
    exact signed.not_quantity ((agree v).mp ((reads v).mpr (.inr signed)))
  · intro unsigned v
    rw [reads]
    exact or_iff_left fun signed => unsigned ⟨v, signed⟩

/-- The feed's quantities and the front end's block numbers are read by their grammar exactly where
no plus sign stands before the digits, and the snapshot's balances everywhere. -/
theorem numbers_read_iff (debug : String → String) (debugRow : List Char → String) :
    (∀ s, (∀ wei, parseHexU128 debug s = .ok wei ↔ IsQuantity (2 ^ 128) s.toList wei) ↔
      ¬ ∃ wei, IsPlusQuantity (2 ^ 128) s.toList wei) ∧
    (∀ block head, isTag block = false →
      ((classifyBlockParam debug block head = .ok () ↔ IsQuantity (2 ^ 64) block.toList head) ↔
        ¬ IsPlusQuantity (2 ^ 64) block.toList head)) ∧
    ∀ s wei, parseWei debugRow s = .ok wei ↔ IsWholeDecimal (2 ^ 128) s wei := by
  refine ⟨fun s => ?_, fun block head untagged => ?_, fun s wei => parseWei_eq_ok⟩
  · apply agrees_iff
    intro wei
    exact parseHexU128_eq_ok.trans (parseHex_stripped (by decide))
  · have reads := (@classifyBlockParam_eq_ok debug block head untagged).trans selectedBlock_eq_some
    rw [reads]
    constructor
    · intro agree signed
      exact signed.not_quantity (agree.mp (.inr signed))
    · intro unsigned
      exact or_iff_left unsigned

theorem numbers_read_iff_five :
    (classifyBlockParam id "0x5" 5 = .ok () ↔ IsQuantity (2 ^ 64) "0x5".toList 5) := by
  refine ((numbers_read_iff id fun s => String.ofList s).2.1 "0x5" 5 (by decide)).mpr ?_
  rintro ⟨x, digits, same, -⟩
  cases same

/-- Five with a plus sign is a balance to the feed and a block to the front end. -/
theorem signed_five_read :
    parseHexU128 id "0x+5" = .ok 5 ∧ classifyBlockParam id "0x+5" 5 = .ok () ∧
      isTag "0x+5" = false ∧ (∀ wei, ¬ IsQuantity (2 ^ 128) "0x+5".toList wei) ∧
      ∀ head, ¬ IsQuantity (2 ^ 64) "0x+5".toList head := by
  have text : "0x+5".toList = ['0', 'x', '+', '5'] := by decide
  have plus : ∀ bound v, ¬ IsQuantity bound "0x+5".toList v := by
    rw [text]
    rintro bound v ⟨x, digits, same, -, -, all, -⟩
    cases same
    exact absurd (all '+' (by simp)) (by decide)
  exact ⟨by decide +kernel, by decide +kernel, by decide +kernel, plus _, plus _⟩

end RisePir.Rpc.Grammar
