import CoreLisp.Text.Printable

/-!
# Text between quotation marks

Two ways to write a text between quotation marks. A JSON string escapes the
quotation mark, the backslash and the control characters below the space, and
leaves everything else as it is. A quoted name, as messages and listings show
it, also spells out the code point of every character that could not be seen.
-/
namespace CoreLisp.Text

/-- One character inside a JSON string. -/
def jsonEscape (c : Char) : List Char :=
  match c with
  | '\x22' => ['\\', '\x22']
  | '\\' => ['\\', '\\']
  | '\x08' => ['\\', 'b']
  | '\x0c' => ['\\', 'f']
  | '\n' => ['\\', 'n']
  | '\r' => ['\\', 'r']
  | '\t' => ['\\', 't']
  | c =>
    if c.toNat < 0x20 then
      ['\\', 'u', '0', '0', Nat.digitChar (c.toNat / 16), Nat.digitChar (c.toNat % 16)]
    else [c]

def jsonString (s : String) : String :=
  String.ofList ('\x22' :: (s.toList.flatMap jsonEscape ++ ['\x22']))

/-- One character inside a quoted name. -/
def quotedEscape (c : Char) : List Char :=
  match c with
  | '\x22' => ['\\', '\x22']
  | '\\' => ['\\', '\\']
  | '\x00' => ['\\', '0']
  | '\t' => ['\\', 't']
  | '\r' => ['\\', 'r']
  | '\n' => ['\\', 'n']
  | c =>
    if isPrintable c then [c]
    else ['\\', 'u', '\x7b'] ++ Nat.toDigits 16 c.toNat ++ ['\x7d']

/-- A name as messages and listings show it. -/
def quoted (s : String) : String :=
  String.ofList ('\x22' :: (s.toList.flatMap quotedEscape ++ ['\x22']))

/-- A list between square brackets. -/
def bracketed (items : List String) : String := "[" ++ ", ".intercalate items ++ "]"

end CoreLisp.Text
