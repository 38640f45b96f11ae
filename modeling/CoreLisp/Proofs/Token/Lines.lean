import CoreLisp.Proofs.Token.Tiling

/-!
# Cutting a text line by line

No token contains a blank, and a comment ends with its line. So the end of a line is a
place where the text can be taken apart: what is in front of it is cut as if it were the
whole text, and what comes after it as if it stood alone, with all bytes counted from
further on. A word, a number or a comment at the end of the first part does not go on in
the second, and a fault in the first part is the fault of the whole.
-/
namespace CoreLisp

open Text (bytes)

/-- The same fault in a text with `n` more bytes in front. -/
def SyntaxError.shift (n : Nat) : SyntaxError → SyntaxError
  | unknownToken span => unknownToken (span.shift n)
  | integerOutOfRange span => integerOutOfRange (span.shift n)
  | unexpectedEnd => unexpectedEnd
  | unexpectedClose span => unexpectedClose (span.shift n)
  | mismatchedDelimiter expected found span => mismatchedDelimiter expected found (span.shift n)
  | nestingTooDeep limit span => nestingTooDeep limit (span.shift n)
  | emptyProgram => emptyProgram
  | malformed construct fault => malformed construct fault

/-- The same fault with its place, if it has one, moved by `f`. -/
def SyntaxError.mapSpan (f : Span → Span) : SyntaxError → SyntaxError
  | unknownToken span => unknownToken (f span)
  | integerOutOfRange span => integerOutOfRange (f span)
  | unexpectedEnd => unexpectedEnd
  | unexpectedClose span => unexpectedClose (f span)
  | mismatchedDelimiter expected found span => mismatchedDelimiter expected found (f span)
  | nestingTooDeep limit span => nestingTooDeep limit (f span)
  | emptyProgram => emptyProgram
  | malformed construct fault => malformed construct fault

/-- What has a place has it elsewhere, and what has none still has none. -/
theorem SyntaxError.span?_mapSpan (f : Span → Span) (e : SyntaxError) :
    (e.mapSpan f).span? = e.span?.map f := by
  cases e <;> rfl

theorem SyntaxError.shift_eq_mapSpan (n : Nat) :
    SyntaxError.shift n = SyntaxError.mapSpan (·.shift n) := by
  funext e
  cases e <;> rfl

theorem SyntaxError.span?_shift (n : Nat) (e : SyntaxError) :
    (e.shift n).span? = e.span?.map (·.shift n) := by
  rw [shift_eq_mapSpan, span?_mapSpan]

namespace Token

/-- The same token with its place moved by `f`. -/
def Located.mapSpan (f : Span → Span) (t : Located) : Located := ⟨t.token, f t.span⟩

@[simp] theorem Located.mapSpan_token (f : Span → Span) (t : Located) :
    (t.mapSpan f).token = t.token := rfl

/-- The same token in a text with `n` more bytes in front. -/
def Located.shift (n : Nat) (t : Located) : Located := ⟨t.token, t.span.shift n⟩

@[simp] theorem Located.shift_token (n : Nat) (t : Located) : (t.shift n).token = t.token := rfl

variable {c : Char} {cs text rest : List Char} {token : Token}
variable {found : List Located} {pos skip : Nat}

/-- A character that may stand in a symbol or a number is a token itself, or a point. -/
theorem not_gap_of_continuesSymbol (hc : continuesSymbol c) : ¬ (isBlank c ∨ c = ';') := by
  simp only [continuesSymbol, Bool.or_eq_true, beq_iff_eq] at hc
  rcases hc with (hstart | hdigit) | rfl
  · have hsymbol : IsSymbol [c] := ⟨c, [], hstart, List.forall_mem_nil _, .inl rfl⟩
    exact (Spells.symbol hsymbol).starts_apart
  · exact (Spells.integer (List.cons_ne_nil c []) (by simpa using hdigit)).starts_apart
  · decide

theorem fixed_not_gap (mem : (cs, token) ∈ fixed) : ∀ c ∈ cs, ¬ (isBlank c ∨ c = ';') := by
  have hfixed : ∀ entry ∈ fixed, entry.1.all (fun c => !(isBlank c || c == ';')) := by decide
  intro c hc
  have hchar := List.all_eq_true.mp (hfixed _ mem) c hc
  simpa using hchar

/-- A token contains no blank, and nothing in it starts a comment. -/
theorem Spells.not_gap (spells : token.Spells cs) : ∀ c ∈ cs, ¬ (isBlank c ∨ c = ';') := by
  rcases spells.fixed_or_run with mem | ⟨-, hdigits⟩ | ⟨first, rest, hfirst, hrest, hcs⟩
  · exact fixed_not_gap mem
  · intro c hc
    have hdigit : c.isDigit := hdigits c hc
    exact not_gap_of_continuesSymbol (by simp [continuesSymbol, hdigit])
  · have hrun : ∀ c ∈ first :: rest, ¬ (isBlank c ∨ c = ';') := by
      refine List.forall_mem_cons.mpr ⟨not_gap_of_continuesSymbol ?_, ?_⟩
      · simp [continuesSymbol, hfirst]
      · exact fun c hc => not_gap_of_continuesSymbol (hrest c hc)
    rcases hcs with rfl | rfl
    · exact hrun
    · exact List.forall_mem_cons.mpr ⟨by decide, List.forall_mem_cons.mpr ⟨by decide, hrun⟩⟩

/-- A stretch without the character that comes after the text starts the text alone. -/
theorem prefix_append_cons_iff (hc : c ∉ cs) : cs <+: text ++ c :: rest ↔ cs <+: text := by
  constructor
  · intro starts
    rcases List.prefix_or_prefix_of_prefix starts (List.prefix_append text (c :: rest)) with
      hle | ⟨more, rfl⟩
    · exact hle
    · cases more with
      | nil => simp
      | cons d more =>
          have hmore := (List.prefix_append_right_inj text).mp starts
          obtain ⟨rfl, -⟩ := List.cons_prefix_cons.mp hmore
          exact absurd (by simp) hc
  · exact fun starts => starts.trans (List.prefix_append text (c :: rest))

/-- The token at the start of a text depends on what comes up to a blank or a comment. -/
theorem leading_append_gap (hc : isBlank c ∨ c = ';') :
    leading (text ++ c :: rest) = leading text := by
  have starts_iff : ∀ {token : Token} {cs : List Char}, token.Spells cs →
      (cs <+: text ++ c :: rest ↔ cs <+: text) :=
    fun spells => prefix_append_cons_iff fun mem => spells.not_gap c mem hc
  cases hleading : leading text with
  | none =>
      have never := leading_eq_none_iff.mp hleading
      exact leading_eq_none_iff.mpr fun token cs spells starts =>
        never token cs spells ((starts_iff spells).mp starts)
  | some taken =>
      obtain ⟨token, lexeme⟩ := taken
      obtain ⟨spells, starts, longest⟩ := leading_eq_some_iff.mp hleading
      exact leading_eq_some_iff.mpr ⟨spells, (starts_iff spells).mpr starts,
        fun other cs hother hcs => longest other cs hother ((starts_iff hother).mp hcs)⟩

theorem takeWhile_append_cons {p : Char → Bool} (hc : p c = false) :
    (cs ++ c :: rest).takeWhile p = cs.takeWhile p := by
  induction cs with
  | nil => simp [hc]
  | cons d cs ih =>
      rw [List.cons_append, List.takeWhile_cons, List.takeWhile_cons, ih]

/-- At the end of a line the scanner starts anew, unless it has come to a fault. Induction on
the line; what is skipped of it is a comment or a token, and ends within it. -/
theorem scanFrom_append_line (hskip : skip ≤ cs.length) :
    scanFrom found pos skip (cs ++ '\n' :: rest) = scanFrom found pos skip cs >>= fun located =>
      scanFrom located.reverse (pos + bytes cs + 1) 0 rest := by
  induction cs generalizing found pos skip with
  | nil =>
      obtain rfl : skip = 0 := Nat.le_zero.mp hskip
      have hblank : isBlank '\n' := by decide
      rw [List.nil_append, scanFrom, scanFrom, if_pos hblank]
      exact congrArg (scanFrom · _ 0 rest) (List.reverse_reverse found).symm
  | cons c cs ih =>
      have hpos : pos + bytes (c :: cs) = pos + c.utf8Size + bytes cs := by
        rw [Text.bytes_cons, Nat.add_assoc]
      rw [hpos]
      cases skip with
      | succ skip => exact ih (Nat.le_of_succ_le_succ hskip)
      | zero =>
          have hleading : leading (c :: cs ++ '\n' :: rest) = leading (c :: cs) :=
            leading_append_gap (.inl (by decide))
          have hcomment : (cs ++ '\n' :: rest).takeWhile (· ≠ '\n') = cs.takeWhile (· ≠ '\n') :=
            takeWhile_append_cons (by decide)
          rw [List.cons_append] at hleading ⊢
          rw [scanFrom, scanFrom, hleading, hcomment]
          split
          · exact ih (Nat.zero_le _)
          · split
            · have hline := List.takeWhile_prefix (· ≠ '\n') (l := cs)
              exact ih hline.length_le
            · split
              · rename_i token lexeme htaken
                obtain ⟨-, starts⟩ := leading_prefix htaken
                exact ih (Nat.sub_le_of_le_add starts.length_le)
              · rfl

/-- The place where a text starts is only added to the places of what is found in it. -/
theorem scanFrom_shift (n : Nat) (found : List Located) (pos skip : Nat) (cs : List Char) :
    scanFrom (found.map (·.shift n)) (pos + n) skip cs =
      ((scanFrom found pos skip cs).map (·.map (·.shift n))).mapError (·.shift n) := by
  induction cs generalizing found pos skip with
  | nil =>
      rw [scanFrom, scanFrom, ← List.map_reverse]
      rfl
  | cons c cs ih =>
      have hpos : pos + n + c.utf8Size = pos + c.utf8Size + n := Nat.add_right_comm pos n _
      cases skip with
      | succ skip =>
          rw [scanFrom, scanFrom, hpos]
          exact ih _ _ skip
      | zero =>
          rw [scanFrom, scanFrom, hpos]
          split
          · exact ih _ _ _
          · split
            · exact ih _ _ _
            · split
              · rename_i token lexeme _
                rw [← ih, List.map_cons, Located.shift, Span.shift, Nat.add_right_comm pos]
              · rfl

/-- A text of two parts, of which the second starts on a new line, is cut into the tokens
of both. -/
theorem scan_append_line (a b : String) :
    scan (a ++ "\n" ++ b) = do
      let first ← scan a
      let second ← (scan b).mapError (·.shift (a.utf8ByteSize + 1))
      return first ++ second.map (·.shift (a.utf8ByteSize + 1)) := by
  have htext : (a ++ "\n" ++ b).toList = a.toList ++ '\n' :: b.toList := by
    simp [String.toList_append]
  have hbytes : bytes a.toList = a.utf8ByteSize := by
    rw [Text.bytes_eq_utf8ByteSize, String.ofList_toList]
  rw [scan, htext, scanFrom_append_line (Nat.zero_le _), Nat.zero_add, hbytes, ← scan]
  refine congrArg (scan a >>= ·) (funext fun first => ?_)
  have second := scanFrom_shift (a.utf8ByteSize + 1) [] 0 0 b.toList
  rw [Nat.zero_add] at second
  rw [scanFrom_found, List.reverse_reverse, ← List.map_nil, second, ← scan]
  cases scan b <;> rfl

end Token

end CoreLisp
