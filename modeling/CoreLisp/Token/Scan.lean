import CoreLisp.SyntaxError

/-!
# From text to tokens

The text is cut from the left. Where a blank or a comment starts it is skipped;
anywhere else the longest token that starts there is taken, and if none does
the one character there is reported. The whole text is cut before any token is
looked at.

`scanFrom` walks the characters one by one. Once a comment or token has been
recognised its remaining characters are only counted down, so each call looks
at a shorter text than the one before.
-/
namespace CoreLisp

namespace Token

/-- A token and the bytes it was read from. -/
structure Located where
  token : Token
  span : Span
deriving DecidableEq, Repr

/-- Cuts the rest of a text that starts at byte `pos`. The first `skip`
characters belong to what was recognised last, and `found` holds the tokens so
far, latest first. -/
def scanFrom (found : List Located) (pos : Nat) :
    (skip : Nat) → List Char → Except SyntaxError (List Located)
  | _, [] => .ok found.reverse
  | skip + 1, c :: cs => scanFrom found (pos + c.utf8Size) skip cs
  | 0, c :: cs =>
    if isBlank c then
      scanFrom found (pos + c.utf8Size) 0 cs
    else if c = ';' then
      scanFrom found (pos + c.utf8Size) (cs.takeWhile (· ≠ '\n')).length cs
    else
      match leading (c :: cs) with
      | some (token, lexeme) =>
          scanFrom (⟨token, ⟨pos, pos + Text.bytes lexeme⟩⟩ :: found)
            (pos + c.utf8Size) (lexeme.length - 1) cs
      | none => .error (.unknownToken ⟨pos, pos + c.utf8Size⟩)

def scan (source : String) : Except SyntaxError (List Located) :=
  scanFrom [] 0 0 source.toList

/-- Counting down is the same as dropping the characters at once. -/
theorem scanFrom_skip (found : List Located) (pos skip : Nat) (cs : List Char) :
    scanFrom found pos skip cs =
      scanFrom found (pos + Text.bytes (cs.take skip)) 0 (cs.drop skip) := by
  induction skip generalizing pos cs with
  | zero => simp
  | succ skip ih =>
    cases cs with
    | nil => simp [scanFrom]
    | cons c cs =>
      rw [scanFrom, ih]
      simp [Nat.add_assoc]

/-- What has been found before has no influence on what is found after. -/
theorem scanFrom_found (found : List Located) (pos skip : Nat) (cs : List Char) :
    scanFrom found pos skip cs = (scanFrom [] pos skip cs).map (found.reverse ++ ·) := by
  induction cs generalizing found pos skip with
  | nil => simp [scanFrom, Except.map]
  | cons c cs ih =>
    cases skip with
    | succ skip => simpa only [scanFrom] using ih found _ skip
    | zero =>
      simp only [scanFrom]
      split
      · exact ih found _ 0
      · split
        · exact ih found _ _
        · split
          · rename_i token lexeme _
            rw [ih, ih [_]]
            cases scanFrom [] _ _ cs <;> simp [Except.map]
          · rfl

end Token

end CoreLisp
