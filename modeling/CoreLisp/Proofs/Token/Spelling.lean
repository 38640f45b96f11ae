import Mathlib.Data.List.TakeWhile
import CoreLisp.Token.Basic

/-!
# How tokens are spelled

A symbol starts with a character of one class, perhaps after `#%`, and goes on
with characters of a wider class. A token that is followed by a character
outside the wider class, or by nothing, is cut off exactly where it ends: the
longest token that starts there is the token itself.
-/
namespace CoreLisp.Token

/-- The symbols of the language, as `(#%)?` with a starting character and any
number of continuing ones. -/
def IsSymbol (cs : List Char) : Prop :=
  ∃ c rest, startsSymbol c ∧ (∀ d ∈ rest, continuesSymbol d) ∧
    (cs = c :: rest ∨ cs = '#' :: '%' :: c :: rest)

/-- The text of a token is of its class. -/
def Lexical : Token → Prop
  | symbol name => IsSymbol name.toList
  | integer digits => digits.toList ≠ [] ∧ ∀ d ∈ digits.toList, d.isDigit
  | opening _ | closing _ | boolean _ | undefined => True

/-- The text does not go on with a character that a symbol or a literal could
take in. -/
def Apart (rest : List Char) : Prop := ∀ c ∈ rest.head?, continuesSymbol c = false

variable {c : Char} {cs ds rest text lexeme : List Char} {token : Token}

theorem apart_nil : Apart [] := nofun

theorem apart_cons (hc : continuesSymbol c = false) : Apart (c :: cs) := by
  intro d hd
  cases hd
  exact hc

/-- The classes of digits and of characters that start a symbol have nothing in
common. -/
theorem isDigit_eq_false_of_startsSymbol (hc : startsSymbol c) : c.isDigit = false := by
  rcases (Bool.or_eq_true _ _).mp hc with halpha | hmark
  · refine Bool.eq_false_iff.mpr fun hdigit => ?_
    have hletter : (decide (c.val ≥ 'A'.val ∧ c.val ≤ 'Z'.val) ||
        decide (c.val ≥ 'a'.val) && decide (c.val ≤ 'z'.val)) = true := halpha
    simp only [Bool.or_eq_true, Bool.and_eq_true, decide_eq_true_eq, ge_iff_le,
      UInt32.le_iff_toNat_le] at hletter
    have hle : c.val.toNat ≤ 57 := (Char.isDigit_iff_toNat.mp hdigit).2
    have hA : 'A'.val.toNat = 65 := rfl
    have ha : 'a'.val.toNat = 97 := rfl
    omega
  · have mem : c ∈ symbolMarks := List.contains_iff_mem.mp hmark
    simp only [symbolMarks, List.mem_cons, List.not_mem_nil, or_false] at mem
    rcases mem with rfl | rfl | rfl | rfl | rfl | rfl | rfl | rfl | rfl | rfl | rfl | rfl | rfl |
      rfl | rfl <;> decide

/-- The first characters of the tokens of fixed spelling. A text that starts in a
class without them starts with no such token. -/
theorem find?_fixed_eq_none {p : Char → Bool}
    (hp : ['(', '[', '\x7b', ')', ']', '\x7d', '#'].any p = false) (hc : p c) :
    fixed.find? (·.1.isPrefixOf (c :: cs)) = none := by
  have hne : ∀ d ∈ ['(', '[', '\x7b', ')', ']', '\x7d', '#'], d ≠ c := by
    intro d hd he
    rw [he] at hd
    exact List.any_eq_false.mp hp c hd hc
  simp only [List.mem_cons, List.not_mem_nil, or_false, forall_eq_or_imp, forall_eq] at hne
  simp [fixed, List.isPrefixOf, hne]

/-- A run of characters of a class ends where a character of another class comes. -/
theorem takeWhile_append_of_stop {p : Char → Bool} (hcs : ∀ d ∈ cs, p d)
    (hrest : ∀ d ∈ rest.head?, p d = false) : (cs ++ rest).takeWhile p = cs := by
  rw [List.takeWhile_append_of_pos hcs]
  cases rest with
  | nil => simp
  | cons d rest =>
      have hd : p d = false := hrest d rfl
      simp [hd]

theorem symbolAt_cons (hc : startsSymbol c) :
    symbolAt (c :: cs) = c :: cs.takeWhile continuesSymbol := by
  unfold symbolAt
  split
  · rename_i he
    rw [(List.cons.inj he).1] at hc
    exact absurd hc (by decide)
  · rename_i he
    cases he
    rw [if_pos hc]
  · rename_i he
    cases he

theorem leading_symbol (hcs : IsSymbol cs) (hrest : Apart rest) :
    leading (cs ++ rest) = some (.symbol (String.ofList cs), cs) := by
  obtain ⟨c, tail, hc, htail, hcs⟩ := hcs
  have hrun : (tail ++ rest).takeWhile continuesSymbol = tail :=
    takeWhile_append_of_stop htail hrest
  rcases hcs with rfl | rfl
  · have hfixed : fixed.find? (·.1.isPrefixOf (c :: (tail ++ rest))) = none :=
      find?_fixed_eq_none (by decide) hc
    have hdigits : digitsAt (c :: (tail ++ rest)) = [] := by
      simp [digitsAt, isDigit_eq_false_of_startsSymbol hc]
    have hsymbol : symbolAt (c :: (tail ++ rest)) = c :: tail := by rw [symbolAt_cons hc, hrun]
    simp only [leading, List.cons_append, hfixed, hdigits, hsymbol]
  · have hfixed : fixed.find? (·.1.isPrefixOf ('#' :: '%' :: c :: (tail ++ rest))) = none := rfl
    have hdigits : digitsAt ('#' :: '%' :: c :: (tail ++ rest)) = [] := rfl
    have hsymbol : symbolAt ('#' :: '%' :: c :: (tail ++ rest)) = '#' :: '%' :: c :: tail := by
      simp only [symbolAt, if_pos hc, hrun]
    simp only [leading, List.cons_append, hfixed, hdigits, hsymbol]

theorem leading_digits (hne : ds ≠ []) (hds : ∀ d ∈ ds, d.isDigit)
    (hrest : ∀ d ∈ rest.head?, d.isDigit = false) :
    leading (ds ++ rest) = some (.integer (String.ofList ds), ds) := by
  have hdigits : digitsAt (ds ++ rest) = ds := takeWhile_append_of_stop hds hrest
  cases ds with
  | nil => exact absurd rfl hne
  | cons d ds =>
      have hfixed : fixed.find? (·.1.isPrefixOf (d :: (ds ++ rest))) = none :=
        find?_fixed_eq_none (by decide) (hds d List.mem_cons_self)
      rw [List.cons_append] at hdigits
      simp only [leading, List.cons_append, hfixed, hdigits]

theorem leading_integer (hne : ds ≠ []) (hds : ∀ d ∈ ds, d.isDigit) (hrest : Apart rest) :
    leading (ds ++ rest) = some (.integer (String.ofList ds), ds) := by
  refine leading_digits hne hds ?_
  intro d hd
  have hcontinues := hrest d hd
  simp only [continuesSymbol, Bool.or_eq_false_iff] at hcontinues
  exact hcontinues.1.2

theorem Apart.ne {d : Char} (hrest : Apart (c :: rest)) (hd : continuesSymbol d) : d ≠ c := by
  intro he
  rw [he, hrest c rfl] at hd
  cases hd

theorem leading_true (hrest : Apart rest) :
    leading ('#' :: 't' :: rest) = some (.boolean true, ['#', 't']) := by
  cases rest with
  | nil => rfl
  | cons c rest =>
      have hne : 'r' ≠ c := hrest.ne (by decide)
      simp [leading, fixed, List.isPrefixOf, hne]

theorem leading_false (hrest : Apart rest) :
    leading ('#' :: 'f' :: rest) = some (.boolean false, ['#', 'f']) := by
  cases rest with
  | nil => rfl
  | cons c rest =>
      have hne : 'a' ≠ c := hrest.ne (by decide)
      simp [leading, fixed, List.isPrefixOf, hne]

theorem leading_undefined (rest : List Char) :
    leading ("#undefined".toList ++ rest) = some (.undefined, "#undefined".toList) := rfl

theorem leading_opening (kind : Delimiter) (rest : List Char) :
    leading ([kind.opener] ++ rest) = some (.opening kind, [kind.opener]) := by
  cases kind <;> rfl

theorem leading_closing (kind : Delimiter) (rest : List Char) :
    leading ([kind.closer] ++ rest) = some (.closing kind, [kind.closer]) := by
  cases kind <;> rfl

/-- No token starts with a blank or with the mark of a comment. -/
theorem leading_eq_none (hc : isBlank c ∨ c = ';') : leading (c :: cs) = none := by
  have hall : c ∈ [' ', '\t', '\r', '\n', '\x0c', ';'] := by
    rcases hc with hblank | rfl
    · have mem : c ∈ [' ', '\t', '\r', '\n', '\x0c'] := List.contains_iff_mem.mp hblank
      exact List.mem_append_left [';'] mem
    · decide
  simp only [List.mem_cons, List.not_mem_nil, or_false] at hall
  rcases hall with rfl | rfl | rfl | rfl | rfl | rfl <;> rfl

theorem isSymbol_of_symbolAt (hcs : symbolAt text = c :: cs) : IsSymbol (c :: cs) := by
  unfold symbolAt at hcs
  split at hcs
  · rename_i d tail
    split at hcs
    · rename_i hd
      refine ⟨d, tail.takeWhile continuesSymbol, hd, ?_, .inr hcs.symm⟩
      intro x hx
      exact List.mem_takeWhile_imp hx
    · cases hcs
  · rename_i d tail _
    split at hcs
    · rename_i hd
      refine ⟨d, tail.takeWhile continuesSymbol, hd, ?_, .inl hcs.symm⟩
      intro x hx
      exact List.mem_takeWhile_imp hx
    · cases hcs
  · cases hcs

theorem lexical_of_leading (hleading : leading text = some (token, lexeme)) : token.Lexical := by
  unfold leading at hleading
  split at hleading
  · rename_i spelling found hf
    cases hleading
    have mem := List.mem_of_find?_eq_some hf
    simp only [fixed, List.mem_cons, Prod.mk.injEq, List.not_mem_nil, or_false] at mem
    rcases mem with ⟨-, rfl⟩ | ⟨-, rfl⟩ | ⟨-, rfl⟩ | ⟨-, rfl⟩ | ⟨-, rfl⟩ | ⟨-, rfl⟩ | ⟨-, rfl⟩ |
      ⟨-, rfl⟩ | ⟨-, rfl⟩ | ⟨-, rfl⟩ | ⟨-, rfl⟩ <;> exact trivial
  · split at hleading
    · rename_i d ds hds
      cases hleading
      have hmem : ∀ x ∈ d :: ds, x.isDigit := by
        intro x hx
        rw [← hds] at hx
        exact List.mem_takeWhile_imp hx
      simpa [Lexical] using hmem
    · rename_i d ds hds
      cases hleading
      have hsymbol := isSymbol_of_symbolAt hds
      simpa [Lexical] using hsymbol
    · cases hleading

end CoreLisp.Token
