import CoreLisp.Proofs.Form.Descent
import CoreLisp.Proofs.Form.Grammar

/-!
# The first fault in a row of tokens

To say what is wrong with the tokens of a text one has to remember the brackets that are
open and nothing else. The scan here goes over the tokens once, keeps the kinds of these
brackets, innermost first, and stops at the first token with which it cannot go on. What
the reader has made of the tokens so far, and how deep in its lists it is when a fault
shows, is of no account: it rejects what the scan rejects, with the same fault.
-/
namespace CoreLisp

namespace Form

/-- The fault of a token that comes where these brackets are open, innermost first. -/
inductive Offends (stack : List Delimiter) : Token.Located → SyntaxError → Prop
  | tooDeep {kind : Delimiter} {span : Span} : stack.length = maxNesting →
      Offends stack ⟨.opening kind, span⟩ (.nestingTooDeep maxNesting span)
  | unopened {kind : Delimiter} {span : Span} : stack = [] →
      Offends stack ⟨.closing kind, span⟩ (.unexpectedClose span)
  | mismatched {top kind : Delimiter} {below : List Delimiter} {span : Span} :
      stack = top :: below → top ≠ kind →
      Offends stack ⟨.closing kind, span⟩ (.mismatchedDelimiter top.closer kind.closer span)
  | outOfRange {digits : String} {span : Span} : maxInteger < decimal digits →
      Offends stack ⟨.integer digits, span⟩ (.integerOutOfRange span)

/-- The brackets that are open after the token, or its fault. -/
def bracket (stack : List Delimiter) (t : Token.Located) : Except SyntaxError (List Delimiter) :=
  match t.token with
  | .opening kind =>
      if stack.length = maxNesting then .error (.nestingTooDeep maxNesting t.span)
      else .ok (kind :: stack)
  | .closing kind =>
      match stack with
      | [] => .error (.unexpectedClose t.span)
      | top :: below =>
          if top = kind then .ok below
          else .error (.mismatchedDelimiter top.closer kind.closer t.span)
  | .integer digits =>
      if decimal digits ≤ maxInteger then .ok stack else .error (.integerOutOfRange t.span)
  | .boolean _ | .undefined | .symbol _ => .ok stack

/-- The brackets that are open after the tokens, or the first fault. -/
def unclosed (tokens : List Token.Located) : Except SyntaxError (List Delimiter) :=
  tokens.foldlM bracket []

/-- The fault of the tokens as a whole, if there is one. -/
def fault? (tokens : List Token.Located) : Option SyntaxError :=
  match unclosed tokens with
  | .error e => some e
  | .ok [] => none
  | .ok (_ :: _) => some .unexpectedEnd

variable {stack : List Delimiter} {t : Token.Located} {tokens : List Token.Located}
variable {e : SyntaxError}

theorem bracket_eq_error_iff : bracket stack t = .error e ↔ Offends stack t e := by
  obtain ⟨token, span⟩ := t
  constructor
  · intro failed
    unfold bracket at failed
    cases token with
    | opening kind =>
        simp only at failed
        split at failed
        · cases failed
          exact .tooDeep ‹_›
        · cases failed
    | closing kind =>
        cases stack with
        | nil =>
            cases failed
            exact .unopened rfl
        | cons top below =>
            simp only at failed
            split at failed
            · cases failed
            · cases failed
              exact .mismatched rfl ‹_›
    | integer digits =>
        simp only at failed
        split at failed
        · cases failed
        · cases failed
          exact .outOfRange (Nat.lt_of_not_le ‹_›)
    | boolean | undefined | symbol => cases failed
  · intro offends
    cases offends with
    | tooDeep hdeep => exact if_pos hdeep
    | unopened hstack =>
        subst hstack
        rfl
    | mismatched hstack hkind =>
        subst hstack
        exact if_neg hkind
    | outOfRange hvalue => exact if_neg (Nat.not_le_of_lt hvalue)

/-- A scan that fails has gone well up to a token and fails there. -/
theorem foldlM_eq_error_iff {σ α : Type} {step : σ → α → Except SyntaxError σ} {s : σ}
    {xs : List α} : xs.foldlM step s = .error e ↔ ∃ before x after s', xs = before ++ x :: after ∧
      before.foldlM step s = .ok s' ∧ step s' x = .error e := by
  constructor
  · intro failed
    induction xs generalizing s with
    | nil => cases failed
    | cons x xs ih =>
        rw [List.foldlM_cons] at failed
        cases hx : step s x with
        | error e' =>
            rw [hx] at failed
            cases failed
            exact ⟨[], x, xs, s, rfl, rfl, hx⟩
        | ok s₁ =>
            rw [hx] at failed
            obtain ⟨before, y, after, s', rfl, hbefore, hy⟩ := ih failed
            refine ⟨x :: before, y, after, s', rfl, ?_, hy⟩
            rw [List.foldlM_cons, hx]
            exact hbefore
  · intro stops
    obtain ⟨before, x, after, s', rfl, hbefore, hx⟩ := stops
    rw [List.foldlM_append, hbefore]
    exact congrArg (· >>= fun s => after.foldlM step s) hx

theorem unclosed_eq_error_iff : unclosed tokens = .error e ↔
    ∃ before t after stack, tokens = before ++ t :: after ∧ unclosed before = .ok stack ∧
      Offends stack t e := by
  unfold unclosed
  simp only [foldlM_eq_error_iff, bracket_eq_error_iff]

theorem fault?_eq_some_iff : fault? tokens = some e ↔
    unclosed tokens = .error e ∨
      (e = .unexpectedEnd ∧ ∃ top below, unclosed tokens = .ok (top :: below)) := by
  unfold fault?
  cases unclosed tokens with
  | error e' => simp
  | ok stack => cases stack <;> simp [eq_comm]

namespace Progress

/-- The kinds of the brackets that are open. -/
def kinds (p : Progress) : List Delimiter := p.pending.map (·.kind)

theorem kinds_add (form : Form) (p : Progress) : (p.add form).kinds = p.kinds := by
  obtain ⟨done, pending⟩ := p
  cases pending <;> rfl

/-- The reader goes on exactly where the scan does, and then has the same brackets open. -/
theorem map_kinds_feed (p : Progress) (t : Token.Located) :
    (p.feed t).map kinds = bracket p.kinds t := by
  obtain ⟨done, pending⟩ := p
  unfold feed bracket
  cases t.token with
  | opening kind =>
      simp only [kinds, List.length_map]
      split <;> rfl
  | closing kind =>
      cases pending with
      | nil => rfl
      | cons inner outer =>
          simp only [kinds, List.map_cons]
          split
          · exact congrArg Except.ok (kinds_add _ _)
          · rfl
  | integer digits =>
      have hdigits : Nat.ofDigitChars 10 digits.toList 0 = decimal digits := rfl
      simp only [hdigits]
      split
      · exact congrArg Except.ok (kinds_add _ _)
      · rfl
  | boolean | undefined | symbol => exact congrArg Except.ok (kinds_add _ _)

theorem map_kinds_foldlM (p : Progress) (tokens : List Token.Located) :
    (tokens.foldlM feed p).map kinds = tokens.foldlM bracket p.kinds := by
  induction tokens generalizing p with
  | nil => rfl
  | cons t tokens ih =>
      rw [List.foldlM_cons, List.foldlM_cons, ← map_kinds_feed]
      cases p.feed t with
      | error e => rfl
      | ok p' => exact ih p'

end Progress

theorem ofTokens_eq_error_iff : ofTokens tokens = .error e ↔ fault? tokens = some e := by
  have scanned : (tokens.foldlM Progress.feed {}).map Progress.kinds = unclosed tokens :=
    Progress.map_kinds_foldlM {} tokens
  unfold ofTokens fault?
  rw [← scanned]
  cases tokens.foldlM Progress.feed {} with
  | error e' => simp [Except.map, bind, Except.bind]
  | ok p =>
      obtain ⟨done, pending⟩ := p
      cases pending <;> simp [Except.map, bind, Except.bind, Progress.kinds, Progress.finish]

theorem exists_ofTokens_iff : (∃ forms, ofTokens tokens = .ok forms) ↔ fault? tokens = none := by
  rw [Option.eq_none_iff_forall_ne_some]
  simp only [ne_eq, ← ofTokens_eq_error_iff]
  cases ofTokens tokens <;> simp

theorem readAll_of_scan {source : String} (scanned : Token.scan source = .ok tokens) :
    readAll source = ofTokens tokens := by
  rw [readAll, scanned]
  rfl

/-- A text that can be cut into tokens is rejected exactly if one scan over the tokens
finds a fault, and then with this fault: that of the first token that comes where it
cannot, given the brackets that are open, or else the end of the text where some are
open. Reading by descent finds the same faults and the same forms. -/
theorem reader_stops_at_first_fault (source : String) (tokens : List Token.Located)
    (scanned : Token.scan source = .ok tokens) :
    (∀ e, readAll source = .error e ↔ fault? tokens = some e) ∧
    ((∃ forms, readAll source = .ok forms) ↔ fault? tokens = none) ∧
    (∀ e, fault? tokens = some e ↔
      (∃ before t after stack, tokens = before ++ t :: after ∧ unclosed before = .ok stack ∧
        Offends stack t e) ∨
      (e = .unexpectedEnd ∧ ∃ top below, unclosed tokens = .ok (top :: below))) ∧
    readForms [] tokens = readAll source := by
  rw [readAll_of_scan scanned]
  refine ⟨fun e => ofTokens_eq_error_iff, exists_ofTokens_iff, ?_,
    (ofTokens_eq_readForms tokens).symm⟩
  intro e
  rw [fault?_eq_some_iff, unclosed_eq_error_iff]

/-- A bracket that is closed by one of another kind, in front of other faults. -/
theorem reader_stops_at_first_fault_mismatched :
    Token.scan "#t [(x]) 9223372036854775808" =
      .ok [⟨.boolean true, ⟨0, 2⟩⟩, ⟨.opening .bracket, ⟨3, 4⟩⟩, ⟨.opening .paren, ⟨4, 5⟩⟩,
        ⟨.symbol "x", ⟨5, 6⟩⟩, ⟨.closing .bracket, ⟨6, 7⟩⟩, ⟨.closing .paren, ⟨7, 8⟩⟩,
        ⟨.integer "9223372036854775808", ⟨9, 28⟩⟩] ∧
    readAll "#t [(x]) 9223372036854775808" =
      .error (.mismatchedDelimiter ')' ']' ⟨6, 7⟩) := by
  have scanned : Token.scan "#t [(x]) 9223372036854775808" =
      .ok [⟨.boolean true, ⟨0, 2⟩⟩, ⟨.opening .bracket, ⟨3, 4⟩⟩, ⟨.opening .paren, ⟨4, 5⟩⟩,
        ⟨.symbol "x", ⟨5, 6⟩⟩, ⟨.closing .bracket, ⟨6, 7⟩⟩, ⟨.closing .paren, ⟨7, 8⟩⟩,
        ⟨.integer "9223372036854775808", ⟨9, 28⟩⟩] := by decide
  exact ⟨scanned, ((reader_stops_at_first_fault _ _ scanned).1 _).mpr rfl⟩

end Form

end CoreLisp
