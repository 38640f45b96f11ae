import CoreLisp.Proofs.Json.Decode
import Mathlib.Data.List.Chain
import Mathlib.Data.List.TakeWhile

/-!
# Lexemes that are written without blanks

A row of lexemes that is written without anything in between is scanned into the same
lexemes, if no two words stand next to each other: every other lexeme begins with a
character that ends a word. Strings and integers that have been written denote what was
written, a string character by character.
-/
namespace CoreLisp.Json

variable {c : Char} {cs : List Char} {read : List Nat} {r lexemes : List Lexeme} {t : Lexeme}

def Lexeme.text : Lexeme → List Char
  | .mark m => [m.char]
  | .string s => (Text.jsonString s).toList
  | .word cs => cs

def Lexeme.integer (n : Int) : Lexeme := .word n.repr.toList

def Lexeme.boolean : Bool → Lexeme
  | true => .word ['t', 'r', 'u', 'e']
  | false => .word ['f', 'a', 'l', 's', 'e']

def Lexeme.isWord : Lexeme → Bool
  | .word _ => true
  | _ => false

/-- A word has characters, and none that ends it. -/
def Lexeme.WellFormed : Lexeme → Prop
  | .word cs => cs ≠ [] ∧ ∀ c ∈ cs, isDelimiter c = false
  | _ => True

@[simp] theorem Lexeme.wellFormed_mark (m : Mark) : (mark m).WellFormed := trivial

@[simp] theorem Lexeme.wellFormed_string (s : String) : (string s).WellFormed := trivial

/-- The lexemes may stand next to each other. -/
def Lexeme.Apart (t u : Lexeme) : Prop := t.isWord = false ∨ u.isWord = false

theorem ofUnits?_map_toNat (cs : List Char) : ofUnits? (cs.map Char.toNat) = some cs := by
  induction cs with
  | nil => rfl
  | cons c cs ih =>
      have hc : c.toNat < 0xd800 ∨ 0xe000 ≤ c.toNat := by
        rcases c.valid with h | h
        · exact .inl h
        · exact .inr (by have := h.1; simp only [Char.toNat]; omega)
      have high : isHighSurrogate c.toNat = false := by
        simp only [isHighSurrogate, Bool.and_eq_false_iff, decide_eq_false_iff_not]
        omega
      have low : isLowSurrogate c.toNat = false := by
        simp only [isLowSurrogate, Bool.and_eq_false_iff, decide_eq_false_iff_not]
        omega
      unfold ofUnits?
      simp [high, low, ih]

theorem hexDigit?_digitChar : ∀ n < 16, hexDigit? (Nat.digitChar n) = some n := by
  decide

namespace Scanner

theorem run_append (s : Scanner) (cs ds : List Char) :
    s.run (cs ++ ds) = (s.run cs).bind (·.run ds) := List.foldlM_append

theorem run_cons (s : Scanner) (c : Char) (cs : List Char) :
    s.run (c :: cs) = (s.step c).bind (·.run cs) := List.foldlM_cons

/-- What is written for a character is read as this character. -/
theorem run_jsonEscape (c : Char) :
    run ⟨.string read, lexemes⟩ (Text.jsonEscape c) =
      some ⟨.string (c.toNat :: read), lexemes⟩ := by
  unfold Text.jsonEscape
  split
  case h_8 quote backslash _ _ _ _ _ =>
    split
    · rename_i hc
      have high := hexDigit?_digitChar (c.toNat / 16) (by omega)
      have low := hexDigit?_digitChar (c.toNat % 16) (Nat.mod_lt _ (by decide))
      have value : ofHexDigits [c.toNat % 16, c.toNat / 16, 0, 0] = c.toNat := by
        simp only [ofHexDigits, List.foldr_cons, List.foldr_nil]
        omega
      have zero : hexDigit? '0' = some 0 := rfl
      simp [run, step, high, low, zero, value]
    · rename_i hc
      have quote : c ≠ '\x22' := quote
      have backslash : c ≠ '\\' := backslash
      simp [run, step, quote, backslash, hc]
  all_goals rfl

theorem run_flatMap_jsonEscape (cs : List Char) :
    run ⟨.string read, lexemes⟩ (cs.flatMap Text.jsonEscape) =
      some ⟨.string ((cs.map Char.toNat).reverse ++ read), lexemes⟩ := by
  induction cs generalizing read with
  | nil => rfl
  | cons c cs ih =>
      rw [List.flatMap_cons, run_append, run_jsonEscape, Option.bind_some, ih]
      simp

/-- The scanner behind lexemes that have been written, the latest first. -/
def behind : List Lexeme → Scanner
  | .word cs :: lexemes => ⟨.word cs.reverse, lexemes⟩
  | lexemes => ⟨.between, lexemes⟩

theorem behind_of_not_word (ht : t.isWord = false) : behind (t :: r) = ⟨.between, t :: r⟩ := by
  cases t with
  | word => cases ht
  | mark | string => rfl

theorem finish_behind (r : List Lexeme) : (behind r).finish = some r.reverse := by
  unfold behind
  split
  · simp [finish]
  · rfl

/-- A word begins a lexeme of its own if there is no word in front of it. -/
theorem behind_of_apart (apart : ∀ u ∈ r.head?, u.Apart (.word cs)) :
    behind r = ⟨.between, r⟩ := by
  cases r with
  | nil => rfl
  | cons u r => exact behind_of_not_word ((apart u rfl).resolve_right nofun)

theorem start_word (hc : isDelimiter c = false) : start c r = ⟨.word [c], r⟩ := by
  simp only [isDelimiter, Bool.or_eq_false_iff, Option.isSome_eq_false_iff,
    Option.isNone_iff_eq_none, decide_eq_false_iff_not] at hc
  obtain ⟨⟨blank, quote⟩, mark⟩ := hc
  simp [start, blank, quote, mark]

/-- A delimiter begins a lexeme of its own, whatever is in front of it. -/
theorem step_behind (hc : isDelimiter c = true) : (behind r).step c = some (start c r) := by
  unfold behind
  split
  · simp [step, hc]
  · rfl

theorem run_word (hcs : ∀ c ∈ cs, isDelimiter c = false) (read : List Char) :
    run ⟨.word read, lexemes⟩ cs = some ⟨.word (cs.reverse ++ read), lexemes⟩ := by
  induction cs generalizing read with
  | nil => rfl
  | cons c cs ih =>
      obtain ⟨hc, hcs⟩ := List.forall_mem_cons.mp hcs
      have first : step ⟨.word read, lexemes⟩ c = some ⟨.word (c :: read), lexemes⟩ := by
        simp [step, hc]
      rw [run_cons, first, Option.bind_some, ih hcs]
      simp

/-- One lexeme more is scanned behind lexemes to which it may be next. -/
theorem run_text (wellFormed : t.WellFormed) (apart : ∀ u ∈ r.head?, u.Apart t) :
    (behind r).run t.text = some (behind (t :: r)) := by
  cases t with
  | mark m =>
      have delimiter : isDelimiter m.char = true := by simp [isDelimiter]
      have first : start m.char r = behind (.mark m :: r) := by cases m <;> rfl
      simp [Lexeme.text, run, step_behind delimiter, first]
  | string s =>
      have first : (behind r).step '\x22' = some ⟨.string [], r⟩ := step_behind rfl
      have last : step ⟨.string (s.toList.map Char.toNat).reverse, r⟩ '\x22' =
          some (behind (.string s :: r)) := by
        simp [step, ofUnits?_map_toNat, behind]
      rw [Lexeme.text, Text.jsonString, String.toList_ofList, run_cons, first, Option.bind_some,
        run_append, run_flatMap_jsonEscape, Option.bind_some, List.append_nil, run_cons, last]
      rfl
  | word cs =>
      obtain ⟨hne, hcs⟩ := wellFormed
      cases cs with
      | nil => exact absurd rfl hne
      | cons c cs =>
          obtain ⟨hc, hcs⟩ := List.forall_mem_cons.mp hcs
          have first : step ⟨.between, r⟩ c = some ⟨.word [c], r⟩ :=
            congrArg some (start_word hc)
          rw [Lexeme.text, behind_of_apart apart, run_cons, first, Option.bind_some, run_word hcs]
          simp [behind]

end Scanner

/-- A row of lexemes that is written without blanks is scanned into the same lexemes. -/
theorem scan_flatMap_text (wellFormed : ∀ t ∈ lexemes, t.WellFormed)
    (apart : lexemes.IsChain Lexeme.Apart) : scan (lexemes.flatMap Lexeme.text) = some lexemes := by
  have scanned : ∀ r, (∀ u ∈ r.head?, ∀ t ∈ lexemes.head?, u.Apart t) →
      (Scanner.behind r).run (lexemes.flatMap Lexeme.text) =
        some (Scanner.behind (lexemes.reverse ++ r)) := by
    induction lexemes with
    | nil => exact fun r _ => rfl
    | cons t lexemes ih =>
        intro r next
        obtain ⟨first, wellFormed⟩ := List.forall_mem_cons.mp wellFormed
        obtain ⟨here, apart⟩ := List.isChain_cons.mp apart
        rw [List.flatMap_cons, Scanner.run_append,
          Scanner.run_text first fun u hu => next u hu t rfl, Option.bind_some,
          ih wellFormed apart (t :: r) ?_]
        · simp
        · intro u hu
          cases hu
          exact here
  have whole := scanned [] nofun
  rw [List.append_nil] at whole
  change (Scanner.run (Scanner.behind []) _).bind _ = _
  rw [whole, Option.bind_some, Scanner.finish_behind, List.reverse_reverse]

theorem newline_not_mem_jsonEscape (c : Char) : '\n' ∉ Text.jsonEscape c := by
  unfold Text.jsonEscape
  split
  case h_8 _ _ _ _ newline _ _ =>
    have digit : ∀ n < 16, Nat.digitChar n ≠ '\n' := by decide
    split
    · have high := digit (c.toNat / 16) (by omega)
      have low := digit (c.toNat % 16) (Nat.mod_lt _ (by decide))
      simp [high.symm, low.symm]
    · simpa using Ne.symm newline
  all_goals decide

theorem Lexeme.WellFormed.newline_not_mem (wellFormed : t.WellFormed) : '\n' ∉ t.text := by
  cases t with
  | mark m => cases m <;> decide
  | string s =>
      have body : ∀ c ∈ s.toList, '\n' ∉ Text.jsonEscape c :=
        fun c _ => newline_not_mem_jsonEscape c
      simpa [text, Text.jsonString] using body
  | word cs =>
      intro mem
      cases wellFormed.2 _ mem

theorem isDelimiter_of_isDigit (hc : c.isDigit = true) : isDelimiter c = false := by
  have other : ∀ d, d.isDigit = false → c ≠ d := by
    rintro d hd rfl
    simp [hc] at hd
  have mark : Mark.ofChar? c = none := by
    unfold Mark.ofChar?
    split
    case h_7 => rfl
    all_goals cases hc
  simp [isDelimiter, isBlank, mark, other]

theorem isDigit_of_mem_toDigits {n : Nat} (hc : c ∈ Nat.toDigits 10 n) : c.isDigit = true :=
  Nat.isDigit_of_mem_toDigits (by decide) (by decide) hc

/-- An integer is written with the digits of its absolute value. -/
theorem toList_repr_cases (n : Int) :
    n.repr.toList = Nat.toDigits 10 n.natAbs ∧ 0 ≤ n ∨
      n.repr.toList = '-' :: Nat.toDigits 10 n.natAbs ∧ n < 0 := by
  cases n with
  | ofNat m => exact .inl ⟨Nat.toList_repr, Int.natCast_nonneg m⟩
  | negSucc m =>
      refine .inr ⟨?_, Int.negSucc_lt_zero m⟩
      rw [Int.repr, String.toList_append, Nat.toList_repr]
      rfl

/-- The digits of a number do not begin with a zero. Induction on the digits from the last
one on. -/
theorem head?_toDigits {n : Nat} (hn : 0 < n) : (Nat.toDigits 10 n).head? ≠ some '0' := by
  induction n using Nat.strongRecOn with
  | ind n ih =>
      by_cases small : n < 10
      · rw [Nat.toDigits_of_lt_base small]
        have digit : ∀ d < 10, 0 < d → [Nat.digitChar d].head? ≠ some '0' := by decide
        exact digit n small hn
      · have hle : 10 ≤ n := Nat.le_of_not_lt small
        have front := ih (n / 10) (by omega) (by omega)
        rw [Nat.toDigits_of_base_le (by decide) hle]
        cases hfront : Nat.toDigits 10 (n / 10) with
        | nil => exact absurd hfront Nat.toDigits_ne_nil
        | cons d ds =>
            rw [hfront] at front
            exact front

theorem magnitude?_toDigits (n : Nat) : magnitude? (Nat.toDigits 10 n) = some (n : Rat) := by
  have digits : ∀ c ∈ Nat.toDigits 10 n, c.isDigit = true := fun c hc => isDigit_of_mem_toDigits hc
  have whole : (Nat.toDigits 10 n).takeWhile Char.isDigit = Nat.toDigits 10 n :=
    List.takeWhile_eq_self_iff.mpr digits
  have rest : (Nat.toDigits 10 n).dropWhile Char.isDigit = [] :=
    List.dropWhile_eq_nil_iff.mpr digits
  have proper : ((Nat.toDigits 10 n).isEmpty || ((Nat.toDigits 10 n).head? = some '0' &&
      (Nat.toDigits 10 n).length ≠ 1)) = false := by
    rcases Nat.eq_zero_or_pos n with rfl | hn
    · rfl
    · simp [head?_toDigits hn, Nat.toDigits_ne_nil]
  simp only [magnitude?, whole, rest, proper]
  simp [fraction?, exponent?, Nat.ofDigitChars_ten_toDigits]

theorem sign_toDigits (n : Nat) : sign (Nat.toDigits 10 n) = (false, Nat.toDigits 10 n) := by
  unfold sign
  split
  · rename_i cs hcs
    have minus : '-' ∈ Nat.toDigits 10 n := hcs ▸ List.mem_cons_self
    cases isDigit_of_mem_toDigits minus
  · rfl

theorem number?_repr (n : Int) : number? n.repr.toList = some (n : Rat) := by
  rcases toList_repr_cases n with ⟨hrepr, hn⟩ | ⟨hrepr, hn⟩
  · have value : ((n.natAbs : Int) : Rat) = n := by rw [Int.natAbs_of_nonneg hn]
    rw [Rat.intCast_natCast] at value
    simp [number?, hrepr, sign_toDigits, magnitude?_toDigits, value]
  · have value : ((n.natAbs : Int) : Rat) = (-n : Int) := by
      rw [Int.ofNat_natAbs_of_nonpos (Int.le_of_lt hn)]
    rw [Rat.intCast_natCast, Rat.intCast_neg] at value
    simp [number?, hrepr, sign, magnitude?_toDigits, value]

/-- An integer consists of digits, and there may be a sign in front of them. -/
theorem of_mem_repr {n : Int} (hc : c ∈ n.repr.toList) : c.isDigit = true ∨ c = '-' := by
  rcases toList_repr_cases n with ⟨hrepr, -⟩ | ⟨hrepr, -⟩
  · rw [hrepr] at hc
    exact .inl (isDigit_of_mem_toDigits hc)
  · rw [hrepr] at hc
    rcases List.mem_cons.mp hc with rfl | hc
    · exact .inr rfl
    · exact .inl (isDigit_of_mem_toDigits hc)

/-- No integer has the text of a constant, because that has letters. -/
theorem ofWord?_repr (n : Int) : ofWord? n.repr.toList = some (.number n) := by
  have constant : ∀ w : List Char, (∃ c ∈ w.head?, c.isDigit = false ∧ c ≠ '-') →
      n.repr.toList ≠ w := by
    rintro w ⟨c, hc, digit, minus⟩ rfl
    rcases of_mem_repr (List.mem_of_mem_head? hc) with hdigit | rfl
    · simp [hdigit] at digit
    · exact minus rfl
  rw [ofWord?, if_neg (constant _ ⟨'n', rfl, by decide⟩), if_neg (constant _ ⟨'t', rfl, by decide⟩),
    if_neg (constant _ ⟨'f', rfl, by decide⟩), number?_repr, Option.map_some]

@[simp] theorem Lexeme.wellFormed_integer (n : Int) : (integer n).WellFormed := by
  refine ⟨?_, ?_⟩
  · rcases toList_repr_cases n with ⟨hrepr, -⟩ | ⟨hrepr, -⟩
    · exact hrepr ▸ Nat.toDigits_ne_nil
    · simp [hrepr]
  · intro c hc
    rcases of_mem_repr hc with digit | rfl
    · exact isDelimiter_of_isDigit digit
    · rfl

@[simp] theorem Lexeme.wellFormed_boolean (b : Bool) : (boolean b).WellFormed := by
  have yes : ∀ c ∈ ['t', 'r', 'u', 'e'], isDelimiter c = false := by
    simp [isDelimiter, isBlank, Mark.ofChar?]
  have no : ∀ c ∈ ['f', 'a', 'l', 's', 'e'], isDelimiter c = false := by
    simp [isDelimiter, isBlank, Mark.ofChar?]
  cases b with
  | true => exact ⟨nofun, yes⟩
  | false => exact ⟨nofun, no⟩

theorem Reader.feed_integer (n : Int) (mayClose : Bool) (around : List Open) :
    feed (.value mayClose around) (.integer n) = some (.done (.number n) around) := by
  simp only [Lexeme.integer, feed, ofWord?_repr, Option.map_some]

theorem Reader.feed_boolean (b : Bool) (mayClose : Bool) (around : List Open) :
    feed (.value mayClose around) (.boolean b) = some (.done (.boolean b) around) := by
  cases b <;> rfl

end CoreLisp.Json
