import Mathlib.Data.List.Induction
import Mathlib.Data.Nat.Digits.Defs
import CoreLisp.Fixnum
import CoreLisp.Proofs.Form.Descent
import CoreLisp.Proofs.Form.RoundTrip
import CoreLisp.Proofs.Token.Tiling

/-!
# Integer literals

However many digits a literal has, with whatever zeros in front, it is read as the number
that they denote in the decimal system, or refused if that number is out of range. Nothing
else is looked at, and nothing is lost when the number is worked out in 64 bits, digit by
digit from the left: as the numbers on the way never get smaller, one of them is out of
range only if the last one is.
-/
namespace CoreLisp.Form

open Token (Located scanFrom_token leading_digits)
open SyntaxError (bind_eq_ok_iff)

/-- What a digit counts. -/
def digitValue (d : Char) : Nat := d.toNat - '0'.toNat

/-- The number that digits denote: the last one counts once, the one before it ten times,
and so on. -/
def denoted (digits : List Char) : Nat := Nat.ofDigits 10 (digits.reverse.map digitValue)

/-- One more digit, unless a number on the way is out of range. -/
def gatherDigit (n : Int) (d : Char) : Option Int := do
  let shifted ← Fixnum.checked (n * 10)
  Fixnum.checked (shifted + digitValue d)

/-- The number that digits denote, worked out from the left. -/
def gathered (digits : List Char) : Option Int := digits.foldlM gatherDigit 0

variable {digits : List Char} {d : Char} {n : Nat} {source : String} {t : Located}
variable {before after : List Located} {p : Progress}

theorem maxInteger_eq : maxInteger = 2 ^ 63 - 1 := rfl

theorem denoted_snoc : denoted (digits ++ [d]) = 10 * denoted digits + digitValue d := by
  rw [denoted, List.reverse_append, List.reverse_singleton, List.singleton_append, List.map_cons,
    Nat.ofDigits_cons, Nat.add_comm, denoted]

/-- Induction on the digits, from their end. -/
theorem ofDigitChars_eq_denoted (digits : List Char) :
    Nat.ofDigitChars 10 digits 0 = denoted digits := by
  induction digits using List.reverseRecOn with
  | nil => rfl
  | append_singleton digits d ih =>
      rw [Nat.ofDigitChars_append, ih, denoted_snoc]
      rfl

theorem denoted_zeros (k : Nat) (digits : List Char) :
    denoted (List.replicate k '0' ++ digits) = denoted digits := by
  have zeros : (List.replicate k '0').map digitValue = List.replicate k 0 := List.map_replicate
  rw [denoted, List.reverse_append, List.reverse_replicate, List.map_append, Nat.ofDigits_append,
    zeros, Nat.ofDigits_replicate_zero, Nat.mul_zero, Nat.add_zero, denoted]

theorem checked_natCast (n : Nat) :
    Fixnum.checked n = if n ≤ maxInteger then some (n : Int) else none := by
  unfold maxInteger
  by_cases hn : n ≤ 0x7fffffffffffffff
  · have inRange : Fixnum.InRange n := by
      unfold Fixnum.InRange Fixnum.least Fixnum.greatest
      omega
    rw [if_pos hn]
    exact Fixnum.checked_eq_some_iff.mpr ⟨inRange, rfl⟩
  · rw [if_neg hn]
    refine Fixnum.checked_eq_none_iff.mpr fun inRange => ?_
    unfold Fixnum.InRange Fixnum.greatest at inRange
    omega

/-- A number that is too large before the digit is added is too large afterwards. -/
theorem gatherDigit_natCast (n : Nat) (d : Char) : gatherDigit n d =
    if 10 * n + digitValue d ≤ maxInteger then some ((10 * n + digitValue d : Nat) : Int)
    else none := by
  have shifted : ((n : Int) * 10) = ((10 * n : Nat) : Int) := by omega
  rw [gatherDigit, shifted, checked_natCast]
  by_cases hn : 10 * n ≤ maxInteger
  · rw [if_pos hn]
    exact checked_natCast (10 * n + digitValue d)
  · rw [if_neg hn, if_neg fun hle => hn (Nat.le_of_add_right_le hle)]
    rfl

theorem le_ofDigitChars (digits : List Char) (n : Nat) : n ≤ Nat.ofDigitChars 10 digits n := by
  induction digits generalizing n with
  | nil => exact Nat.le_refl n
  | cons d digits ih =>
      rw [Nat.ofDigitChars_cons]
      have hle := ih (10 * n + (d.toNat - '0'.toNat))
      omega

/-- Induction on the digits, with the number worked out so far. -/
theorem foldlM_gatherDigit (hn : n ≤ maxInteger) : digits.foldlM gatherDigit (n : Int) =
    if Nat.ofDigitChars 10 digits n ≤ maxInteger
    then some (Nat.ofDigitChars 10 digits n : Int) else none := by
  induction digits generalizing n with
  | nil => exact (if_pos hn).symm
  | cons d digits ih =>
      rw [List.foldlM_cons, gatherDigit_natCast, Nat.ofDigitChars_cons]
      change _ = if Nat.ofDigitChars 10 digits (10 * n + digitValue d) ≤ maxInteger then
        some (Nat.ofDigitChars 10 digits (10 * n + digitValue d) : Int) else none
      by_cases hnext : 10 * n + digitValue d ≤ maxInteger
      · rw [if_pos hnext]
        exact ih hnext
      · have larger := le_ofDigitChars digits (10 * n + digitValue d)
        rw [if_neg hnext, if_neg fun hle => hnext (Nat.le_trans larger hle)]
        rfl

theorem gathered_eq (digits : List Char) : gathered digits =
    if denoted digits ≤ maxInteger then some (denoted digits : Int) else none := by
  rw [← ofDigitChars_eq_denoted]
  exact foldlM_gatherDigit (Nat.zero_le _)

theorem feed_literal {text : String} (ht : t.token = .integer text) : p.feed t =
    if denoted text.toList ≤ maxInteger then .ok (p.add (.integer (denoted text.toList)))
    else .error (.integerOutOfRange t.span) := by
  simp only [Progress.feed, ht, ofDigitChars_eq_denoted]

/-- A literal is the next form, or ends the reading. -/
theorem readOn_literal {text : String} (ht : t.token = .integer text) : p.readOn (t :: after) =
    if denoted text.toList ≤ maxInteger
    then (p.add (.integer (denoted text.toList))).readOn after
    else .error (.integerOutOfRange t.span) := by
  rw [Progress.readOn_cons, feed_literal ht]
  split <;> rfl

theorem readAll_of_split (scanned : Token.scan source = .ok (before ++ t :: after))
    (come : before.foldlM Progress.feed {} = .ok p) : readAll source = p.readOn (t :: after) := by
  have read : readAll source = ofTokens (before ++ t :: after) := by
    rw [readAll, scanned]
    rfl
  rw [read, ofTokens, List.foldlM_append, come]
  rfl

/-- A text of digits is one token. -/
theorem scan_digits (hne : source ≠ "") (hdigits : ∀ d ∈ source.toList, d.isDigit) :
    Token.scan source = .ok [⟨.integer source, ⟨0, source.utf8ByteSize⟩⟩] := by
  have hne : source.toList ≠ [] := by simpa using hne
  have leading : Token.leading (source.toList ++ []) = _ := leading_digits hne hdigits nofun
  have scanned : Token.scanFrom [] 0 0 (source.toList ++ []) = _ := scanFrom_token leading
  rw [List.append_nil, Text.bytes_eq_utf8ByteSize, String.ofList_toList, Nat.zero_add] at scanned
  exact scanned

/-- The place of a literal is that of its digits. -/
theorem holds_literal {text : String} (scanned : Token.scan source = .ok (before ++ t :: after))
    (ht : t.token = .integer text) : text ≠ "" ∧ (∀ d ∈ text.toList, d.isDigit) ∧
      ∃ rest, t.span.Holds source.toList text.toList rest := by
  have mem : t ∈ before ++ t :: after := List.mem_append_right before List.mem_cons_self
  obtain ⟨tiles, cuts, located⟩ := Token.scan_eq_ok_iff.mp scanned
  obtain ⟨lexeme, rest, holds, longest⟩ := cuts.tiled.longest t (located ▸ mem)
  rw [ht] at longest
  cases longest.spells with
  | token spells =>
      cases spells with
      | integer hne hdigits =>
          rw [String.toList_ofList]
          exact ⟨by simpa using hne, hdigits, rest, holds⟩

/-- A text of digits is read as the number that they denote if that is at most `2 ^ 63 - 1`,
and refused otherwise; zeros in front do not matter. So is each literal in a text with
other tokens, when the reader has come to it; the complaint has the range of its digits.
Working out the number in 64 bits gives it under the same condition. And the text of a
number in this range is read as this number. -/
theorem integers_read_by_value :
    (∀ source : String, source ≠ "" → (∀ d ∈ source.toList, d.isDigit) → readAll source =
      if denoted source.toList ≤ 2 ^ 63 - 1 then .ok [.integer (denoted source.toList)]
      else .error (.integerOutOfRange ⟨0, source.utf8ByteSize⟩)) ∧
    (∀ source text before t after p, Token.scan source = .ok (before ++ t :: after) →
      t.token = .integer text → before.foldlM Progress.feed {} = .ok p →
      (text ≠ "" ∧ (∀ d ∈ text.toList, d.isDigit) ∧
        ∃ rest, t.span.Holds source.toList text.toList rest) ∧
      readAll source = if denoted text.toList ≤ 2 ^ 63 - 1
        then (p.add (.integer (denoted text.toList))).readOn after
        else .error (.integerOutOfRange t.span)) ∧
    (∀ k digits, denoted (List.replicate k '0' ++ digits) = denoted digits) ∧
    (∀ digits, gathered digits =
      if denoted digits ≤ 2 ^ 63 - 1 then some (denoted digits : Int) else none) ∧
    ∀ n : Nat, n ≤ 2 ^ 63 - 1 → readAll (Form.integer n).text = .ok [.integer n] := by
  rw [← maxInteger_eq]
  refine ⟨?_, ?_, denoted_zeros, gathered_eq, ?_⟩
  · intro source hne hdigits
    have scanned : Token.scan source = .ok ([] ++ [_]) := scan_digits hne hdigits
    rw [readAll_of_split scanned rfl, readOn_literal rfl]
    rfl
  · intro source text before t after p scanned ht come
    refine ⟨holds_literal scanned ht, ?_⟩
    rw [readAll_of_split scanned come, readOn_literal ht]
  · intro n hn
    have spelled : (Form.integer n).Spelled := .integer (Int.natCast_nonneg n) (Int.ofNat_le.mpr hn)
    have nesting : nestingAll [.integer n] ≤ maxNesting :=
      nestingAll_le_iff.mpr (List.forall_mem_singleton.mpr (Nat.zero_le maxNesting))
    have read := readAll_textAll ⟨List.forall_mem_singleton.mpr spelled, nesting⟩
    rwa [textAll, List.map_singleton, String.intercalate_singleton] at read

/-- The greatest number with zeros in front, and the number after it, alone and in a list. -/
theorem integers_read_by_value_greatest :
    readAll "0009223372036854775807" = .ok [.integer 9223372036854775807] ∧
    readAll "9223372036854775808" = .error (.integerOutOfRange ⟨0, 19⟩) ∧
    readAll "(f 9223372036854775808)" = .error (.integerOutOfRange ⟨3, 22⟩) ∧
    readAll (Form.integer 9223372036854775807).text = .ok [.integer 9223372036854775807] := by
  obtain ⟨alone, inside, -, -, written⟩ := integers_read_by_value
  have greatest := alone "0009223372036854775807" (by decide) (List.all_eq_true.mp rfl)
  have larger := alone "9223372036854775808" (by decide) (List.all_eq_true.mp rfl)
  have listed := (inside "(f 9223372036854775808)" "9223372036854775808"
    [⟨.opening .paren, ⟨0, 1⟩⟩, ⟨.symbol "f", ⟨1, 2⟩⟩] ⟨.integer "9223372036854775808", ⟨3, 22⟩⟩
    [⟨.closing .paren, ⟨22, 23⟩⟩] ⟨[], [⟨.paren, [.symbol "f"]⟩]⟩ rfl rfl rfl).2
  exact ⟨greatest, larger, listed, written 9223372036854775807 (by decide)⟩

end CoreLisp.Form
