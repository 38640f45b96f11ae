import CoreLisp.Proofs.Form.Brackets
import CoreLisp.Proofs.Token.Lines

/-!
# Reading a text line by line

Where a line ends, the text can be taken apart into its tokens, and the reader goes on
with what it has: the finished forms, which do not matter for what comes, and the lists
that are open. If none are open, the second part is read as if it stood alone. If some
are, a second part that only closes them makes the text complete, and no other fault can
be mended by what comes after it.
-/
namespace CoreLisp.Form

open Token (Lexes Located lexes_nil leading_closing scan_append_line)
open SyntaxError (bind_eq_ok_iff)

variable {tokens more : List Located} {stack : List Delimiter} {source : String} {n : Nat}

/-- The closing brackets of lists of these kinds. -/
def closers (stack : List Delimiter) : String := String.ofList (stack.map Delimiter.closer)

theorem lexes_closers (stack : List Delimiter) :
    Lexes (stack.map Delimiter.closer) (stack.map .closing) := by
  induction stack with
  | nil => exact lexes_nil
  | cons kind stack ih => exact ih.cons (leading_closing kind _)

theorem exists_scan_closers (stack : List Delimiter) :
    ∃ more, Token.scan (closers stack) = .ok more ∧
      more.map (·.token) = stack.map .closing := by
  rw [Token.scan, closers, String.toList_ofList]
  exact lexes_closers stack 0

/-- Closing brackets close what is open, whatever their places are. -/
theorem foldlM_bracket_closing (hmore : more.map (·.token) = stack.map .closing) :
    more.foldlM bracket stack = .ok [] := by
  induction stack generalizing more with
  | nil =>
      rw [List.map_eq_nil_iff.mp hmore]
      rfl
  | cons kind stack ih =>
      obtain ⟨t, more, rfl, ht, hmore⟩ := List.map_eq_cons_iff.mp hmore
      have hclose : bracket (kind :: stack) t = .ok stack := by simp [bracket, ht]
      rw [List.foldlM_cons, hclose]
      exact ih hmore

theorem unclosed_append (first second : List Located) :
    unclosed (first ++ second) = unclosed first >>= fun stack => second.foldlM bracket stack :=
  List.foldlM_append

theorem exists_readAll_iff : (∃ forms, readAll source = .ok forms) ↔
    ∃ tokens, Token.scan source = .ok tokens ∧ unclosed tokens = .ok [] := by
  have complete_iff : ∀ tokens, fault? tokens = none ↔ unclosed tokens = .ok [] := by
    intro tokens
    unfold fault?
    rcases unclosed tokens with _ | _ | _ <;> simp
  cases scanned : Token.scan source with
  | error e => simp [readAll, scanned, bind, Except.bind]
  | ok tokens => simp [readAll_of_scan scanned, exists_ofTokens_iff, complete_iff]

/-- No single token is the reason that a text ends too early. -/
theorem not_offends_unexpectedEnd {t : Located} : ¬ Offends stack t .unexpectedEnd := nofun

/-- The reader comes to the end of tokens without a fault, with the same brackets open. -/
theorem exists_progress_of_unclosed (hstack : unclosed tokens = .ok stack) :
    ∃ p, tokens.foldlM Progress.feed {} = .ok p ∧ p.kinds = stack := by
  have hkinds : (tokens.foldlM Progress.feed {}).map Progress.kinds = .ok stack :=
    (Progress.map_kinds_foldlM {} tokens).trans hstack
  cases hp : tokens.foldlM Progress.feed {} with
  | error e =>
      rw [hp] at hkinds
      cases hkinds
  | ok p =>
      rw [hp] at hkinds
      exact ⟨p, rfl, Except.ok.inj hkinds⟩

/-- A text ends too early if it can be cut into tokens and brackets are left open. -/
theorem readAll_eq_unexpectedEnd_iff : readAll source = .error .unexpectedEnd ↔
    ∃ tokens top below, Token.scan source = .ok tokens ∧ unclosed tokens = .ok (top :: below) := by
  cases scanned : Token.scan source with
  | error e =>
      obtain ⟨-, -, -, span, -, -, -, rfl⟩ := Token.scan_eq_error_iff.mp scanned
      simp [readAll, scanned, bind, Except.bind]
  | ok tokens =>
      rw [readAll_of_scan scanned, ofTokens_eq_error_iff, fault?_eq_some_iff, unclosed_eq_error_iff]
      simp [not_offends_unexpectedEnd]

/-- What is left open at the end of a text is closed on the next line. -/
theorem exists_readAll_closers (scanned : Token.scan source = .ok tokens)
    (hstack : unclosed tokens = .ok stack) :
    ∃ forms, readAll (source ++ "\n" ++ closers stack) = .ok forms := by
  obtain ⟨more, hmore, hclosing⟩ := exists_scan_closers stack
  refine exists_readAll_iff.mpr ⟨tokens ++ more.map (·.shift (source.utf8ByteSize + 1)), ?_, ?_⟩
  · rw [scan_append_line, scanned, hmore]
    rfl
  · rw [unclosed_append, hstack]
    refine foldlM_bracket_closing ?_
    rw [List.map_map]
    exact hclosing

/-- If a text is the beginning of one that can be read, its tokens have no fault. -/
theorem exists_unclosed_of_readAll {rest : String} {forms : List Form}
    (ok : readAll (source ++ "\n" ++ rest) = .ok forms) :
    ∃ tokens stack, Token.scan source = .ok tokens ∧ unclosed tokens = .ok stack := by
  obtain ⟨whole, hwhole, hclosed⟩ := exists_readAll_iff.mp ⟨forms, ok⟩
  rw [scan_append_line] at hwhole
  obtain ⟨tokens, scanned, hwhole⟩ := bind_eq_ok_iff.mp hwhole
  obtain ⟨more, -, hwhole⟩ := bind_eq_ok_iff.mp hwhole
  cases hwhole
  rw [unclosed_append] at hclosed
  obtain ⟨stack, hstack, -⟩ := bind_eq_ok_iff.mp hclosed
  exact ⟨tokens, stack, scanned, hstack⟩

/-- A text ends too early exactly if it cannot be read and some text on the lines after
it makes it one that can. It then suffices to close the lists that the reader still has
open, the innermost first. -/
theorem unexpectedEnd_iff_completable (source : String) :
    (readAll source = .error .unexpectedEnd ↔
      (¬ ∃ forms, readAll source = .ok forms) ∧
        ∃ more forms, readAll (source ++ "\n" ++ more) = .ok forms) ∧
    (readAll source = .error .unexpectedEnd →
      ∃ tokens p forms, Token.scan source = .ok tokens ∧
        tokens.foldlM Progress.feed {} = .ok p ∧ p.pending ≠ [] ∧
        readAll (source ++ "\n" ++ closers p.kinds) = .ok forms) := by
  refine ⟨⟨?_, ?_⟩, ?_⟩
  · intro early
    obtain ⟨tokens, top, below, scanned, hstack⟩ := readAll_eq_unexpectedEnd_iff.mp early
    refine ⟨?_, _, exists_readAll_closers scanned hstack⟩
    rintro ⟨forms, ok⟩
    rw [early] at ok
    cases ok
  · rintro ⟨rejected, rest, forms, ok⟩
    obtain ⟨tokens, stack, scanned, hstack⟩ := exists_unclosed_of_readAll ok
    cases stack with
    | nil => exact absurd (exists_readAll_iff.mpr ⟨tokens, scanned, hstack⟩) rejected
    | cons top below => exact readAll_eq_unexpectedEnd_iff.mpr ⟨tokens, top, below, scanned, hstack⟩
  · intro early
    obtain ⟨tokens, top, below, scanned, hstack⟩ := readAll_eq_unexpectedEnd_iff.mp early
    obtain ⟨p, hp, hkinds⟩ := exists_progress_of_unclosed hstack
    obtain ⟨forms, ok⟩ := exists_readAll_closers scanned hstack
    refine ⟨tokens, p, forms, scanned, hp, ?_, hkinds ▸ ok⟩
    intro hpending
    rw [Progress.kinds, hpending] at hkinds
    cases hkinds

/-- A list in a list, and a comment that is not ended. -/
theorem unexpectedEnd_iff_completable_comment :
    readAll "(a [#t ; x" = .error .unexpectedEnd ∧
    (¬ ∃ forms, readAll "(a [#t ; x" = .ok forms) ∧
    ∃ tokens p forms, Token.scan "(a [#t ; x" = .ok tokens ∧
      tokens.foldlM Progress.feed {} = .ok p ∧ p.pending ≠ [] ∧
      readAll ("(a [#t ; x" ++ "\n" ++ closers p.kinds) = .ok forms := by
  have early : readAll "(a [#t ; x" = .error .unexpectedEnd := rfl
  obtain ⟨⟨incomplete, -⟩, completed⟩ :=
    (unexpectedEnd_iff_completable "(a [#t ; x").imp (·.mp early) (· early)
  exact ⟨early, incomplete, completed⟩

namespace Progress

/-- The reader with these finished forms, latest first, before its own. -/
def after (done : List Form) (p : Progress) : Progress := { p with done := p.done ++ done }

variable {done : List Form} {p : Progress} {t : Located}

theorem add_after (form : Form) : (p.after done).add form = (p.add form).after done := by
  obtain ⟨earlier, pending⟩ := p
  cases pending <;> rfl

/-- What is finished before a token, and where the token stands, changes neither what the
reader does with it nor whether it is a fault. -/
theorem feed_after_mapSpan (place : Span → Span) : (p.after done).feed (t.mapSpan place) =
    ((p.feed t).map (after done)).mapError (·.mapSpan place) := by
  obtain ⟨token, span⟩ := t
  unfold feed Located.mapSpan
  cases token with
  | opening kind =>
      have hpending : (p.after done).pending = p.pending := rfl
      by_cases hdeep : p.pending.length = maxNesting
      · simp only [hpending, if_pos hdeep]
        rfl
      · simp only [hpending, if_neg hdeep]
        rfl
  | closing kind =>
      obtain ⟨earlier, pending⟩ := p
      cases pending with
      | nil => rfl
      | cons inner outer =>
          simp only [after]
          split
          · exact congrArg Except.ok (add_after (p := ⟨earlier, outer⟩) _)
          · rfl
  | integer digits =>
      simp only
      split
      · exact congrArg Except.ok (add_after _)
      · rfl
  | boolean | undefined | symbol => exact congrArg Except.ok (add_after _)

/-- That a text ends too early is a fault without a place, and the same everywhere. -/
theorem finish_after_mapSpan (place : Span → Span) : (p.after done).finish =
    (p.finish.map (done.reverse ++ ·)).mapError (·.mapSpan place) := by
  obtain ⟨earlier, pending⟩ := p
  cases pending with
  | nil => exact congrArg Except.ok List.reverse_append
  | cons => rfl

/-- Induction on the tokens. What they finish comes before `done`, which no step looks at,
and their places are only reported. -/
theorem readOn_after_mapSpan (place : Span → Span) :
    (p.after done).readOn (tokens.map (·.mapSpan place)) =
      ((p.readOn tokens).map (done.reverse ++ ·)).mapError (·.mapSpan place) := by
  induction tokens generalizing p with
  | nil => exact finish_after_mapSpan place
  | cons t tokens ih =>
      rw [List.map_cons, readOn_cons, readOn_cons, feed_after_mapSpan]
      cases p.feed t with
      | error e => rfl
      | ok p' => exact ih

end Progress

/-- Tokens in other places make the same forms or have the same fault, elsewhere. -/
theorem ofTokens_mapSpan (place : Span → Span) :
    ofTokens (tokens.map (·.mapSpan place)) = (ofTokens tokens).mapError (·.mapSpan place) := by
  have nothing : (ofTokens tokens).map (([] : List Form).reverse ++ ·) = ofTokens tokens := by
    cases ofTokens tokens <;> rfl
  exact (Progress.readOn_after_mapSpan (p := {}) place).trans (congrArg _ nothing)

theorem ofTokens_append_line {first second : List Located} {forms : List Form}
    (ok : ofTokens first = .ok forms) : ofTokens (first ++ second.map (·.shift n)) =
      ((ofTokens second).map (forms ++ ·)).mapError (·.shift n) := by
  obtain ⟨⟨done, pending⟩, hp, hfinish⟩ := bind_eq_ok_iff.mp ok
  cases pending with
  | cons => cases hfinish
  | nil =>
      cases hfinish
      rw [ofTokens, List.foldlM_append, hp, SyntaxError.shift_eq_mapSpan]
      exact Progress.readOn_after_mapSpan (p := {}) (·.shift n)

theorem readAll_append_line {a b : String} {forms : List Form} (ok : readAll a = .ok forms) :
    readAll (a ++ "\n" ++ b) =
      ((readAll b).map (forms ++ ·)).mapError (·.shift (a.utf8ByteSize + 1)) := by
  obtain ⟨first, hscan, hfirst⟩ := bind_eq_ok_iff.mp ok
  rw [readAll, scan_append_line, hscan]
  cases hb : Token.scan b with
  | error e =>
      rw [readAll, hb]
      rfl
  | ok second =>
      rw [readAll_of_scan hb, ← ofTokens_append_line hfirst]
      rfl

/-- A text whose second part starts on a new line is read part by part, if the first can
be read: the forms are those of the first and then those of the second, and a fault in
the second is the fault of the whole, as many bytes further on as are in front of it. -/
theorem reader_splits_lines (a b : String) (xs : List Form) (ok : readAll a = .ok xs) :
    (∀ ys, readAll b = .ok ys → readAll (a ++ "\n" ++ b) = .ok (xs ++ ys)) ∧
    (∀ e, readAll b = .error e →
      readAll (a ++ "\n" ++ b) = .error (e.shift (a.utf8ByteSize + 1)) ∧
      (e.shift (a.utf8ByteSize + 1)).span? = e.span?.map (·.shift (a.utf8ByteSize + 1))) := by
  constructor
  · intro ys second
    rw [readAll_append_line ok, second]
    rfl
  · intro e second
    refine ⟨?_, e.span?_shift _⟩
    rw [readAll_append_line ok, second]
    rfl

/-- A comment with a character of two bytes, and a bracket too many. -/
theorem reader_splits_lines_comment :
    readAll "(x 1) ; é" = .ok [.list [.symbol "x", .integer 1]] ∧
    readAll "y )" = .error (.unexpectedClose ⟨2, 3⟩) ∧
    readAll ("(x 1) ; é" ++ "\n" ++ "y )") = .error (.unexpectedClose ⟨13, 14⟩) := by
  have first : readAll "(x 1) ; é" = .ok [.list [.symbol "x", .integer 1]] := by rfl
  have second : readAll "y )" = .error (.unexpectedClose ⟨2, 3⟩) := by rfl
  have whole := ((reader_splits_lines _ "y )" _ first).2 _ second).1
  exact ⟨first, second, whole⟩

end CoreLisp.Form
