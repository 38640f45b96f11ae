import CoreLisp.Text.Quoted

/-!
# What a JSON text denotes

A text is scanned into marks, strings and words, where a word is the name of a
constant or a number. Every character moves the scanner on, so a text is
scanned from left to right and can be cut in two anywhere. The lexemes are read
with a stack of the arrays and objects that are open.

The decoder is strict. It refuses control characters in strings, escapes that
are not in the format, halves of surrogate pairs, numbers with leading zeros and
anything behind the value.
-/
namespace CoreLisp

/-- A JSON value. The members of an object are in the order of the text. -/
inductive Json where
  | null
  | boolean (value : Bool)
  | number (value : Rat)
  | string (value : String)
  | array (items : List Json)
  | object (members : List (String × Json))

namespace Json

inductive Mark where
  | openObject
  | closeObject
  | openArray
  | closeArray
  | colon
  | comma
deriving DecidableEq, Repr

def Mark.ofChar? : Char → Option Mark
  | '\x7b' => some openObject
  | '\x7d' => some closeObject
  | '[' => some openArray
  | ']' => some closeArray
  | ':' => some colon
  | ',' => some comma
  | _ => none

def Mark.char : Mark → Char
  | openObject => '\x7b'
  | closeObject => '\x7d'
  | openArray => '['
  | closeArray => ']'
  | colon => ':'
  | comma => ','

@[simp] theorem Mark.ofChar?_char (m : Mark) : ofChar? m.char = some m := by
  cases m <;> rfl

inductive Lexeme where
  | mark (m : Mark)
  | string (s : String)
  | word (cs : List Char)
deriving DecidableEq, Repr

/-- What a character stands for behind a backslash, other than `u`. -/
def escaped? : Char → Option Char
  | '\x22' => some '\x22'
  | '\\' => some '\\'
  | '/' => some '/'
  | 'b' => some '\x08'
  | 'f' => some '\x0c'
  | 'n' => some '\n'
  | 'r' => some '\r'
  | 't' => some '\t'
  | _ => none

def hexDigit? (c : Char) : Option Nat :=
  if '0' ≤ c ∧ c ≤ '9' then some (c.toNat - '0'.toNat)
  else if 'a' ≤ c ∧ c ≤ 'f' then some (c.toNat - 'a'.toNat + 10)
  else if 'A' ≤ c ∧ c ≤ 'F' then some (c.toNat - 'A'.toNat + 10)
  else none

/-- The number that hexadecimal digits denote, the last digit first. -/
def ofHexDigits (digits : List Nat) : Nat := digits.foldr (fun d n => d + 16 * n) 0

def isHighSurrogate (unit : Nat) : Bool := 0xd800 ≤ unit && unit < 0xdc00

def isLowSurrogate (unit : Nat) : Bool := 0xdc00 ≤ unit && unit < 0xe000

/-- The characters that code points denote, where two surrogates in the right order denote
one character together. -/
def ofUnits? : List Nat → Option (List Char)
  | [] => some []
  | unit :: rest =>
    if isHighSurrogate unit then
      match rest with
      | low :: rest =>
        if isLowSurrogate low then
          let c := Char.ofNat (0x10000 + 0x400 * (unit - 0xd800) + (low - 0xdc00))
          (ofUnits? rest).map (c :: ·)
        else none
      | [] => none
    else if isLowSurrogate unit then none
    else (ofUnits? rest).map (Char.ofNat unit :: ·)

example : ofUnits? [0xd83d, 0xde00] = some ['😀'] := by decide

/-- Where the scanner is. What it has read of a lexeme is kept the latest first, and the
characters of a string as their code points. -/
inductive Place where
  | between
  | word (read : List Char)
  | string (read : List Nat)
  | escape (read : List Nat)
  | hex (read digits : List Nat)
deriving DecidableEq, Repr

/-- The scanner with the finished lexemes, the latest first. -/
structure Scanner where
  place : Place
  lexemes : List Lexeme
deriving DecidableEq, Repr

def isBlank (c : Char) : Bool := c = ' ' || c = '\t' || c = '\n' || c = '\r'

/-- The characters that end a word. -/
def isDelimiter (c : Char) : Bool := isBlank c || c = '\x22' || (Mark.ofChar? c).isSome

namespace Scanner

/-- Reads a character that may begin a lexeme. -/
def start (c : Char) (lexemes : List Lexeme) : Scanner :=
  if isBlank c then ⟨.between, lexemes⟩
  else if c = '\x22' then ⟨.string [], lexemes⟩
  else
    match Mark.ofChar? c with
    | some m => ⟨.between, .mark m :: lexemes⟩
    | none => ⟨.word [c], lexemes⟩

def step : Scanner → Char → Option Scanner
  | ⟨.between, lexemes⟩, c => some (start c lexemes)
  | ⟨.word read, lexemes⟩, c =>
    if isDelimiter c then some (start c (.word read.reverse :: lexemes))
    else some ⟨.word (c :: read), lexemes⟩
  | ⟨.string read, lexemes⟩, c =>
    if c = '\x22' then
      (ofUnits? read.reverse).map fun cs => ⟨.between, .string (String.ofList cs) :: lexemes⟩
    else if c = '\\' then some ⟨.escape read, lexemes⟩
    else if c.toNat < 0x20 then none
    else some ⟨.string (c.toNat :: read), lexemes⟩
  | ⟨.escape read, lexemes⟩, c =>
    if c = 'u' then some ⟨.hex read [], lexemes⟩
    else (escaped? c).map fun e => ⟨.string (e.toNat :: read), lexemes⟩
  | ⟨.hex read digits, lexemes⟩, c =>
    (hexDigit? c).map fun d =>
      if digits.length < 3 then ⟨.hex read (d :: digits), lexemes⟩
      else ⟨.string (ofHexDigits (d :: digits) :: read), lexemes⟩

def run (s : Scanner) (cs : List Char) : Option Scanner := cs.foldlM step s

/-- The lexemes of a whole text. -/
def finish : Scanner → Option (List Lexeme)
  | ⟨.between, lexemes⟩ => some lexemes.reverse
  | ⟨.word read, lexemes⟩ => some (.word read.reverse :: lexemes).reverse
  | _ => none

end Scanner

def scan (cs : List Char) : Option (List Lexeme) := (Scanner.run ⟨.between, []⟩ cs).bind (·.finish)

/-- Whether there is a minus sign, and what follows it. -/
def sign : List Char → Bool × List Char
  | '-' :: cs => (true, cs)
  | cs => (false, cs)

/-- The digits behind the point, if there is one, and what follows them. -/
def fraction? : List Char → Option (List Char × List Char)
  | '.' :: cs =>
    let digits := cs.takeWhile Char.isDigit
    if digits.isEmpty then none else some (digits, cs.dropWhile Char.isDigit)
  | cs => some ([], cs)

/-- The exponent that ends a number. -/
def exponent? : List Char → Option Int
  | [] => some 0
  | c :: cs =>
    if c = 'e' ∨ c = 'E' then
      let (negative, digits) :=
        match cs with
        | '+' :: cs => (false, cs)
        | cs => sign cs
      let value : Int := Nat.ofDigitChars 10 digits 0
      if digits.isEmpty || !digits.all Char.isDigit then none
      else some (if negative then -value else value)
    else none

/-- The value of a number without its sign. The whole part must not begin with a zero that
could be left out. -/
def magnitude? (cs : List Char) : Option Rat :=
  let whole := cs.takeWhile Char.isDigit
  if whole.isEmpty || (whole.head? = some '0' && whole.length ≠ 1) then none
  else do
    let (fraction, cs) ← fraction? (cs.dropWhile Char.isDigit)
    let exponent ← exponent? cs
    return Nat.ofDigitChars 10 (whole ++ fraction) 0 * 10 ^ (exponent - fraction.length)

def number? (cs : List Char) : Option Rat :=
  let (negative, cs) := sign cs
  (magnitude? cs).map fun r => if negative then -r else r

example : number? ['-', '1', '.', '5', 'e', '1'] = some (-15) := by decide +kernel

def ofWord? (cs : List Char) : Option Json :=
  if cs = "null".toList then some .null
  else if cs = "true".toList then some (.boolean true)
  else if cs = "false".toList then some (.boolean false)
  else (number? cs).map .number

/-- An array or an object that is open, with the items or members in front of the value
that is read, the latest first. -/
inductive Open where
  | array (items : List Json)
  | object (members : List (String × Json)) (name : String)

/-- What the reader has read last or must read next. A list that has just been opened may
be closed at once. -/
inductive Reader where
  | value (mayClose : Bool) (around : List Open)
  | name (mayClose : Bool) (members : List (String × Json)) (around : List Open)
  | colon (members : List (String × Json)) (name : String) (around : List Open)
  | done (v : Json) (around : List Open)

namespace Reader

def feed : Reader → Lexeme → Option Reader
  | .value _ around, .mark .openObject => some (.name true [] around)
  | .value _ around, .mark .openArray => some (.value true (.array [] :: around))
  | .value _ around, .string s => some (.done (.string s) around)
  | .value _ around, .word cs => (ofWord? cs).map (.done · around)
  | .value true (.array [] :: around), .mark .closeArray => some (.done (.array []) around)
  | .name _ members around, .string x => some (.colon members x around)
  | .name true _ around, .mark .closeObject => some (.done (.object []) around)
  | .colon members x around, .mark .colon => some (.value false (.object members x :: around))
  | .done v (.array items :: around), .mark .comma =>
      some (.value false (.array (v :: items) :: around))
  | .done v (.array items :: around), .mark .closeArray =>
      some (.done (.array (v :: items).reverse) around)
  | .done v (.object members x :: around), .mark .comma =>
      some (.name false ((x, v) :: members) around)
  | .done v (.object members x :: around), .mark .closeObject =>
      some (.done (.object ((x, v) :: members).reverse) around)
  | _, _ => none

/-- The value that has been read when nothing is open. -/
def finish : Reader → Option Json
  | .done v [] => some v
  | _ => none

end Reader

def read (lexemes : List Lexeme) : Option Json :=
  (lexemes.foldlM Reader.feed (.value false [])).bind (·.finish)

/-- The value that a text denotes, if it is a JSON text. -/
def decode (text : String) : Option Json := (scan text.toList).bind read

example : decode "01" = none ∧ decode "[1,]" = none ∧ decode "\"\n\"" = none ∧
    decode "\"\\ud83d\"" = none := by decide +kernel

end Json

end CoreLisp
