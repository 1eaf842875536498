import Mathlib.Data.List.Basic

set_option autoImplicit false
set_option relaxedAutoImplicit false

/-! Splitting text at a separator, unsigned numbers of a bounded width in decimal and in
hexadecimal, and bytes in hexadecimal. -/

namespace RisePir.Lib.Text

/-- The text before and after the first occurrence of `sep`. -/
def splitOnce {α : Type} [DecidableEq α] (sep : α) : List α → Option (List α × List α)
  | [] => none
  | c :: s =>
      if c = sep then some ([], s) else (splitOnce sep s).map fun parts => (c :: parts.1, parts.2)

theorem splitOnce_append {α : Type} [DecidableEq α] {sep : α} {before after : List α}
    (h : sep ∉ before) : splitOnce sep (before ++ sep :: after) = some (before, after) := by
  induction before with
  | nil => simp [splitOnce]
  | cons c before ih =>
      simp only [List.mem_cons, not_or] at h
      simp [splitOnce, Ne.symm h.1, ih h.2]

theorem splitOnce_eq_some {α : Type} [DecidableEq α] {sep : α} {s before after : List α} :
    splitOnce sep s = some (before, after) ↔ s = before ++ sep :: after ∧ sep ∉ before := by
  constructor
  · intro h
    induction s generalizing before with
    | nil => cases h
    | cons c s ih =>
        simp only [splitOnce] at h
        split_ifs at h with same
        · cases h
          simp [same]
        · simp only [Option.map_eq_some_iff, Prod.exists, Prod.mk.injEq] at h
          obtain ⟨first, rest, found, rfl, rfl⟩ := h
          obtain ⟨rfl, absent⟩ := ih found
          refine ⟨rfl, ?_⟩
          simp only [List.mem_cons, not_or]
          exact ⟨fun eq => same eq.symm, absent⟩
  · rintro ⟨rfl, absent⟩
    exact splitOnce_append absent

theorem splitOnce_eq_none {α : Type} [DecidableEq α] {sep : α} {s : List α} :
    splitOnce sep s = none ↔ sep ∉ s := by
  induction s with
  | nil => simp [splitOnce]
  | cons c s ih =>
      simp only [splitOnce, List.mem_cons, not_or]
      by_cases same : c = sep
      · simp [same]
      · simp [same, ih, Ne.symm same]

/-- `char::to_digit(16)`. -/
def hexValue (c : Char) : Option Nat :=
  if '0' ≤ c ∧ c ≤ '9' then some (c.toNat - '0'.toNat)
  else if 'a' ≤ c ∧ c ≤ 'f' then some (c.toNat - 'a'.toNat + 10)
  else if 'A' ≤ c ∧ c ≤ 'F' then some (c.toNat - 'A'.toNat + 10)
  else none

/-- `strip_prefix("0x").or_else(|| strip_prefix("0X"))`. -/
def stripHexPrefix : List Char → Option (List Char)
  | '0' :: 'x' :: hex => some hex
  | '0' :: 'X' :: hex => some hex
  | _ => none

def hexBytes : List Char → Option (List UInt8)
  | [] => some []
  | [_] => none
  | c :: c' :: rest => do
      let high ← hexValue c
      let low ← hexValue c'
      let bytes ← hexBytes rest
      return UInt8.ofNat (16 * high + low) :: bytes

theorem hexBytes_length {digits : List Char} {bytes : List UInt8}
    (h : hexBytes digits = some bytes) : digits.length = 2 * bytes.length := by
  induction digits using hexBytes.induct generalizing bytes with
  | case1 =>
      cases h
      rfl
  | case2 c => cases h
  | case3 c c' rest ih =>
      rw [hexBytes] at h
      simp only [Option.bind_eq_bind, Option.bind_eq_some_iff, Option.pure_def, Option.some.injEq] at h
      obtain ⟨high, -, low, -, tail, htail, rfl⟩ := h
      have := ih htail
      simp only [List.length_cons]
      omega

/-- One more decimal digit of a number below `bound`. -/
def pushDigit (bound n : Nat) (c : Char) : Option Nat :=
  if c.isDigit = true ∧ 10 * n + (c.toNat - '0'.toNat) < bound then
    some (10 * n + (c.toNat - '0'.toNat))
  else none

/-- The number below `bound` that a text spells: digits, with an optional `+` before them. -/
def parseUnsigned (bound : Nat) : List Char → Option Nat
  | [] => none
  | ['+'] => none
  | '+' :: s => s.foldlM (pushDigit bound) 0
  | s => s.foldlM (pushDigit bound) 0

theorem le_ofDigitChars (s : List Char) (n : Nat) : n ≤ Nat.ofDigitChars 10 s n := by
  rw [Nat.ofDigitChars_eq_ofDigitChars_zero]
  have := Nat.le_mul_of_pos_left n (Nat.pow_pos (n := s.length) (show 0 < 10 by omega))
  omega

/-- Digits are read up to the bound. -/
theorem foldlM_pushDigit {bound : Nat} {s : List Char} (digits : ∀ c ∈ s, c.isDigit = true) {n : Nat}
    (small : n < bound) : s.foldlM (pushDigit bound) n =
      if Nat.ofDigitChars 10 s n < bound then some (Nat.ofDigitChars 10 s n) else none := by
  induction s generalizing n with
  | nil => simp [small]
  | cons c s ih =>
      have digit : c.isDigit = true := digits c (by simp)
      have rest : ∀ d ∈ s, d.isDigit = true := fun d hd => digits d (by simp [hd])
      rw [List.foldlM_cons, Nat.ofDigitChars_cons]
      by_cases fits : 10 * n + (c.toNat - '0'.toNat) < bound
      · have pushed : pushDigit bound n c = some (10 * n + (c.toNat - '0'.toNat)) := if_pos ⟨digit, fits⟩
        rw [pushed]
        exact ih rest fits
      · have refused : pushDigit bound n c = none := if_neg fun h => fits h.2
        have grows := le_ofDigitChars s (10 * n + (c.toNat - '0'.toNat))
        rw [refused, if_neg (by omega)]
        rfl

/-- What reads as a number has nothing but digits in it. -/
theorem digits_of_foldlM {bound : Nat} {s : List Char} {n v : Nat}
    (h : s.foldlM (pushDigit bound) n = some v) : ∀ c ∈ s, c.isDigit = true := by
  induction s generalizing n with
  | nil => simp
  | cons c s ih =>
      rw [List.foldlM_cons] at h
      cases hc : pushDigit bound n c with
      | none =>
          rw [hc] at h
          cases h
      | some m =>
          rw [hc] at h
          intro d hd
          rcases List.mem_cons.mp hd with rfl | hd
          · unfold pushDigit at hc
            split_ifs at hc with digit
            exact digit.1
          · exact ih h d hd

theorem parseUnsigned_digits {bound : Nat} (pos : 0 < bound) {s : List Char} (hne : s ≠ [])
    (digits : ∀ c ∈ s, c.isDigit = true) : parseUnsigned bound s =
      if Nat.ofDigitChars 10 s 0 < bound then some (Nat.ofDigitChars 10 s 0) else none := by
  have read := foldlM_pushDigit digits pos
  unfold parseUnsigned
  split
  · exact absurd rfl hne
  · have plus := digits '+' (by simp)
    simp at plus
  · have plus := digits '+' (by simp)
    simp at plus
  · exact read

/-- The decimal text of a number spells it. -/
theorem parseUnsigned_toDigits {bound n : Nat} (small : n < bound) :
    parseUnsigned bound (Nat.toDigits 10 n) = some n := by
  have digits : ∀ c ∈ Nat.toDigits 10 n, c.isDigit = true :=
    fun c hc => Nat.isDigit_of_mem_toDigits (by decide) (by decide) hc
  rw [parseUnsigned_digits (by omega) Nat.toDigits_ne_nil digits, Nat.ofDigitChars_ten_toDigits,
    if_pos small]

/-- A text that spells a number has digits and at most a leading `+`. -/
theorem mem_of_parseUnsigned {bound : Nat} {s : List Char} {v : Nat}
    (h : parseUnsigned bound s = some v) : ∀ c ∈ s, c.isDigit = true ∨ c = '+' := by
  intro c hc
  unfold parseUnsigned at h
  split at h
  · cases h
  · cases h
  · rcases List.mem_cons.mp hc with rfl | hc
    · exact .inr rfl
    · exact .inl (digits_of_foldlM h c hc)
  · exact .inl (digits_of_foldlM h c hc)

/-- One more hexadecimal digit of a number below `bound`. -/
def pushHexDigit (bound n : Nat) (c : Char) : Option Nat :=
  match hexValue c with
  | none => none
  | some d => if 16 * n + d < bound then some (16 * n + d) else none

/-- `from_str_radix(_, 16)` of a number below `bound`: digits, with an optional `+` before them. -/
def parseHex (bound : Nat) : List Char → Option Nat
  | [] => none
  | ['+'] => none
  | '+' :: s => s.foldlM (pushHexDigit bound) 0
  | s => s.foldlM (pushHexDigit bound) 0

/-- The number that hexadecimal digits spell behind `n`. -/
def hexNumeral (n : Nat) (digits : List Char) : Nat :=
  digits.foldl (fun n c => 16 * n + (hexValue c).getD 0) n

/-- One or more hexadecimal digits that spell `v`, which is below `bound`. -/
def IsHex (bound : Nat) (digits : List Char) (v : Nat) : Prop :=
  digits ≠ [] ∧ (∀ c ∈ digits, (hexValue c).isSome = true) ∧ hexNumeral 0 digits = v ∧ v < bound

/-- `0x` or `0X` and one or more hexadecimal digits that spell `v`, which is below `bound`. -/
def IsQuantity (bound : Nat) (s : List Char) (v : Nat) : Prop :=
  ∃ x digits, s = '0' :: x :: digits ∧ (x = 'x' ∨ x = 'X') ∧ IsHex bound digits v

/-- A quantity with a plus sign between the prefix and its digits. -/
def IsPlusQuantity (bound : Nat) (s : List Char) (v : Nat) : Prop :=
  ∃ x digits, s = '0' :: x :: '+' :: digits ∧ (x = 'x' ∨ x = 'X') ∧ IsHex bound digits v

theorem le_hexNumeral (n : Nat) (s : List Char) : n ≤ hexNumeral n s := by
  induction s generalizing n with
  | nil => exact Nat.le_refl n
  | cons c s ih =>
      have grows := ih (16 * n + (hexValue c).getD 0)
      rw [hexNumeral, List.foldl_cons, ← hexNumeral]
      omega

/-- Hexadecimal digits are read up to the bound, and nothing else is. -/
theorem foldlM_pushHexDigit {bound n : Nat} (small : n < bound) {s : List Char} {v : Nat} :
    s.foldlM (pushHexDigit bound) n = some v ↔
      (∀ c ∈ s, (hexValue c).isSome = true) ∧ hexNumeral n s = v ∧ v < bound := by
  induction s generalizing n with
  | nil =>
      simp only [List.foldlM_nil, List.not_mem_nil, false_imp_iff, implies_true, true_and, hexNumeral,
        List.foldl_nil]
      exact ⟨fun h => by cases h; exact ⟨rfl, small⟩, fun h => congrArg some h.1⟩
  | cons c s ih =>
      rw [List.foldlM_cons, List.forall_mem_cons]
      cases hc : hexValue c with
      | none => simp [pushHexDigit, hc]
      | some d =>
          have spelled : hexNumeral n (c :: s) = hexNumeral (16 * n + d) s := by
            simp [hexNumeral, hc]
          rw [spelled]
          by_cases fits : 16 * n + d < bound
          · have pushed : pushHexDigit bound n c = some (16 * n + d) := by simp [pushHexDigit, hc, fits]
            rw [pushed]
            simpa using ih fits
          · have refused : pushHexDigit bound n c = none := by simp [pushHexDigit, hc, fits]
            have grows := le_hexNumeral (16 * n + d) s
            rw [refused]
            constructor
            · intro h
              cases h
            · rintro ⟨-, rfl, below⟩
              omega

/-- The standard library reads the digits, and the digits behind a plus sign. -/
theorem parseHex_eq_some {bound : Nat} (pos : 0 < bound) {s : List Char} {v : Nat} :
    parseHex bound s = some v ↔ IsHex bound s v ∨ ∃ digits, s = '+' :: digits ∧ IsHex bound digits v := by
  have plus : hexValue '+' = none := by decide
  unfold parseHex
  split
  · simp [IsHex]
  · simp [IsHex, plus]
  · next rest alone =>
      rw [foldlM_pushHexDigit pos]
      constructor
      · intro h
        exact .inr ⟨rest, rfl, alone, h⟩
      · rintro (⟨-, digits, -⟩ | ⟨digits, same, -, h⟩)
        · have signed := digits '+' (by simp)
          simp [plus] at signed
        · cases same
          exact h
  · next empty alone unsigned =>
      rw [foldlM_pushHexDigit pos]
      constructor
      · intro h
        exact .inl ⟨empty, h⟩
      · rintro (⟨-, h⟩ | ⟨digits, rfl, -⟩)
        · exact h
        · exact absurd rfl (unsigned digits)

theorem stripHexPrefix_eq_some {s hex : List Char} :
    stripHexPrefix s = some hex ↔ ∃ x, s = '0' :: x :: hex ∧ (x = 'x' ∨ x = 'X') := by
  constructor
  · intro h
    unfold stripHexPrefix at h
    split at h
    · cases h
      exact ⟨'x', rfl, .inl rfl⟩
    · cases h
      exact ⟨'X', rfl, .inr rfl⟩
    · cases h
  · rintro ⟨x, rfl, rfl | rfl⟩ <;> rfl

/-- What is read behind the prefix: quantities, and quantities with a plus sign. -/
theorem parseHex_stripped {bound : Nat} (pos : 0 < bound) {s : List Char} {v : Nat} :
    (stripHexPrefix s).bind (parseHex bound) = some v ↔ IsQuantity bound s v ∨ IsPlusQuantity bound s v := by
  rw [Option.bind_eq_some_iff]
  constructor
  · rintro ⟨hex, stripped, read⟩
    obtain ⟨x, rfl, prefixed⟩ := stripHexPrefix_eq_some.mp stripped
    rcases (parseHex_eq_some pos).mp read with plain | ⟨digits, rfl, plain⟩
    · exact .inl ⟨x, hex, rfl, prefixed, plain⟩
    · exact .inr ⟨x, digits, rfl, prefixed, plain⟩
  · rintro (⟨x, hex, rfl, prefixed, plain⟩ | ⟨x, digits, rfl, prefixed, plain⟩)
    · exact ⟨hex, stripHexPrefix_eq_some.mpr ⟨x, rfl, prefixed⟩, (parseHex_eq_some pos).mpr (.inl plain)⟩
    · exact ⟨'+' :: digits, stripHexPrefix_eq_some.mpr ⟨x, rfl, prefixed⟩,
        (parseHex_eq_some pos).mpr (.inr ⟨digits, rfl, plain⟩)⟩

/-- The sign is no digit. -/
theorem IsPlusQuantity.not_quantity {bound : Nat} {s : List Char} {v w : Nat}
    (signed : IsPlusQuantity bound s v) : ¬ IsQuantity bound s w := by
  obtain ⟨x, digits, rfl, -, -⟩ := signed
  rintro ⟨y, hex, same, -, -, plain, -⟩
  cases same
  have plus := plain '+' (by simp)
  exact absurd plus (by decide)

theorem IsQuantity.unique {bound : Nat} {s : List Char} {v w : Nat} (h : IsQuantity bound s v)
    (h' : IsQuantity bound s w) : v = w := by
  obtain ⟨x, digits, rfl, -, -, -, rfl, -⟩ := h
  obtain ⟨y, hex, same, -, -, -, rfl, -⟩ := h'
  cases same
  rfl

/-- A decimal numeral below `bound`, which may have a dot and one or more zeros behind it. -/
def IsWholeDecimal (bound : Nat) (s : List Char) (v : Nat) : Prop :=
  ∃ digits fraction, s = digits ++ fraction ∧ digits ≠ [] ∧ (∀ c ∈ digits, c.isDigit = true) ∧
    Nat.ofDigitChars 10 digits 0 = v ∧ v < bound ∧
    (fraction = [] ∨ ∃ zeros, fraction = '.' :: zeros ∧ zeros ≠ [] ∧ ∀ c ∈ zeros, c = '0')

theorem toDigits_inj {m n : Nat} (h : Nat.toDigits 10 m = Nat.toDigits 10 n) : m = n := by
  have same := congrArg (fun s => Nat.ofDigitChars 10 s 0) h
  simpa using same

end RisePir.Lib.Text
