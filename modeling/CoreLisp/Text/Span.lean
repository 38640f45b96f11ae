/-!
# Byte ranges of a source text

Every token and every complaint about the text names the half-open range of
bytes it concerns, counted in the UTF-8 encoding of the whole text. A text is
handled as its list of characters, so a range is measured by adding up the
sizes of the characters in front of it and inside it.
-/
namespace CoreLisp

/-- The bytes from `start` up to but not including `stop`. -/
structure Span where
  start : Nat
  stop : Nat
deriving DecidableEq, Repr

namespace Span

/-- Two points stand between the offsets, as in `3..4`. -/
def text (s : Span) : String := s.start.repr ++ ".." ++ s.stop.repr

/-- The same range in a text with `n` more bytes in front. -/
def shift (n : Nat) (s : Span) : Span := ⟨s.start + n, s.stop + n⟩

@[simp] theorem shift_start (n : Nat) (s : Span) : (s.shift n).start = s.start + n := rfl

@[simp] theorem shift_stop (n : Nat) (s : Span) : (s.shift n).stop = s.stop + n := rfl

end Span

namespace Text

/-- The number of bytes that a run of characters takes in UTF-8. -/
def bytes (cs : List Char) : Nat := cs.foldr (fun c n => c.utf8Size + n) 0

@[simp] theorem bytes_nil : bytes [] = 0 := rfl

@[simp] theorem bytes_cons (c : Char) (cs : List Char) :
    bytes (c :: cs) = c.utf8Size + bytes cs := rfl

@[simp] theorem bytes_append (cs ds : List Char) : bytes (cs ++ ds) = bytes cs + bytes ds := by
  induction cs with
  | nil => simp
  | cons c cs ih => simp [ih, Nat.add_assoc]

end Text

end CoreLisp
