import CoreLisp.Text.Span

/-!
# Tokens

A source text is a row of tokens with blanks and comments between them. Tokens
come in two families. Delimiters, truth values and the undefined literal have
a fixed spelling; integers and symbols are runs of characters of a class.
Symbols may start with the two characters `#%`, which is how the keywords of
the language are written; to the tokenizer they are symbols like any other.

The classes of characters are ASCII classes. Any other character is allowed
inside a comment and nowhere else.
-/
namespace CoreLisp

abbrev Name := String

/-- The three kinds of bracket that may surround a list. -/
inductive Delimiter where
  | paren
  | bracket
  | brace
deriving DecidableEq, Repr

namespace Delimiter

def opener : Delimiter → Char
  | paren => '('
  | bracket => '['
  | brace => '{'

def closer : Delimiter → Char
  | paren => ')'
  | bracket => ']'
  | brace => '}'

end Delimiter

/-- An integer keeps its digits: whether they denote a number in range is asked
when the token is read, so that the complaint can name the place. -/
inductive Token where
  | opening (kind : Delimiter)
  | closing (kind : Delimiter)
  | boolean (value : Bool)
  | undefined
  | integer (digits : String)
  | symbol (name : Name)
deriving DecidableEq, Repr

namespace Token

/-- Blanks separate tokens and have no other meaning. -/
def isBlank (c : Char) : Bool := [' ', '\t', '\r', '\n', '\x0c'].contains c

/-- Punctuation that may stand in a symbol. -/
def symbolMarks : List Char :=
  ['!', '@', '$', '%', '^', '&', '*', '=', '+', '_', '/', '?', '<', '>', '-']

def startsSymbol (c : Char) : Bool := c.isAlpha || symbolMarks.contains c

def continuesSymbol (c : Char) : Bool := startsSymbol c || c.isDigit || c == '.'

/-- The tokens of fixed spelling. A spelling stands in front of every other one
that it extends, so the first spelling found at the start of a text is the
longest one there. -/
def fixed : List (List Char × Token) :=
  [(['('], opening .paren), (['['], opening .bracket), (['{'], opening .brace),
   ([')'], closing .paren), ([']'], closing .bracket), (['}'], closing .brace),
   (['#', 't', 'r', 'u', 'e'], boolean true), (['#', 't'], boolean true),
   (['#', 'f', 'a', 'l', 's', 'e'], boolean false), (['#', 'f'], boolean false),
   (['#', 'u', 'n', 'd', 'e', 'f', 'i', 'n', 'e', 'd'], undefined)]

/-- The longest run of digits at the start of a text. -/
def digitsAt (text : List Char) : List Char := text.takeWhile Char.isDigit

/-- The longest symbol at the start of a text, empty if none starts there. -/
def symbolAt : List Char → List Char
  | '#' :: '%' :: c :: cs =>
      if startsSymbol c then '#' :: '%' :: c :: cs.takeWhile continuesSymbol else []
  | c :: cs => if startsSymbol c then c :: cs.takeWhile continuesSymbol else []
  | [] => []

/-- The longest token at the start of a text, together with its characters. -/
def leading (text : List Char) : Option (Token × List Char) :=
  match fixed.find? (·.1.isPrefixOf text) with
  | some (spelling, token) => some (token, spelling)
  | none =>
    match digitsAt text, symbolAt text with
    | d :: ds, _ => some (integer (String.ofList (d :: ds)), d :: ds)
    | [], c :: cs => some (symbol (String.ofList (c :: cs)), c :: cs)
    | [], [] => none

theorem symbolAt_prefix (text : List Char) : symbolAt text <+: text := by
  unfold symbolAt
  split
  · split
    · simpa using List.takeWhile_prefix _
    · simp
  · split
    · simpa using List.takeWhile_prefix _
    · simp
  · simp

/-- A token takes at least one character, all from the start of the text. -/
theorem leading_prefix {text lexeme : List Char} {token : Token}
    (h : leading text = some (token, lexeme)) : lexeme ≠ [] ∧ lexeme <+: text := by
  unfold leading at h
  split at h
  · rename_i spelling found hf
    obtain ⟨rfl, rfl⟩ : found = token ∧ spelling = lexeme := by simpa using h
    have hm := List.mem_of_find?_eq_some hf
    exact ⟨by rintro rfl; simp [fixed] at hm, by simpa using List.find?_some hf⟩
  · split at h
    · rename_i hd
      obtain ⟨-, rfl⟩ := by simpa using h
      exact ⟨by simp, hd ▸ List.takeWhile_prefix Char.isDigit⟩
    · rename_i hc
      obtain ⟨-, rfl⟩ := by simpa using h
      exact ⟨by simp, hc ▸ symbolAt_prefix text⟩
    · simp at h

end Token

end CoreLisp
