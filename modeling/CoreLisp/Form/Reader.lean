import CoreLisp.Token.Scan

/-!
# From tokens to forms

The reader takes the tokens from left to right and keeps the lists that are
still open, innermost first. An opening bracket starts a list, a literal or
symbol joins the innermost open list, and a closing bracket ends that list and
lets it join the one around it. What is finished outside all lists is a form of
the program. At most `maxNesting` lists may be open at once.
-/
namespace CoreLisp

namespace Form

/-- Lists may be nested this deep. -/
def maxNesting : Nat := 512

/-- The largest integer literal, `2 ^ 63 - 1`. -/
def maxInteger : Nat := 0x7fffffffffffffff

/-- A list whose closing bracket has not been seen, its items latest first. -/
structure OpenList where
  kind : Delimiter
  items : List Form

/-- How far the reader has come: the finished forms, latest first, and the lists
that are still open, innermost first. -/
structure Progress where
  done : List Form := []
  pending : List OpenList := []

namespace Progress

/-- A finished form joins the innermost open list, or the program. -/
def add (form : Form) (p : Progress) : Progress :=
  match p.pending with
  | [] => { p with done := form :: p.done }
  | inner :: outer => { p with pending := { inner with items := form :: inner.items } :: outer }

def feed (p : Progress) (t : Token.Located) : Except SyntaxError Progress :=
  match t.token with
  | .opening kind =>
      if p.pending.length = maxNesting then .error (.nestingTooDeep maxNesting t.span)
      else .ok { p with pending := ⟨kind, []⟩ :: p.pending }
  | .closing kind =>
      match p.pending with
      | [] => .error (.unexpectedClose t.span)
      | inner :: outer =>
          if inner.kind = kind then
            .ok (Progress.add (.list inner.items.reverse) { p with pending := outer })
          else .error (.mismatchedDelimiter inner.kind.closer kind.closer t.span)
  | .integer digits =>
      let value := Nat.ofDigitChars 10 digits.toList 0
      if value ≤ maxInteger then .ok (p.add (.integer value))
      else .error (.integerOutOfRange t.span)
  | .boolean value => .ok (p.add (.boolean value))
  | .undefined => .ok (p.add .undefined)
  | .symbol name => .ok (p.add (.symbol name))

def finish (p : Progress) : Except SyntaxError (List Form) :=
  match p.pending with
  | [] => .ok p.done.reverse
  | _ :: _ => .error .unexpectedEnd

end Progress

def ofTokens (tokens : List Token.Located) : Except SyntaxError (List Form) := do
  (← tokens.foldlM Progress.feed {}).finish

/-- All forms of a source text, in order. -/
def readAll (source : String) : Except SyntaxError (List Form) := do
  ofTokens (← Token.scan source)

end Form

end CoreLisp
