import CoreLisp.Form.Reader

/-!
# Reading by descent

The reader can also be written along the nesting of the lists: a list is read by reading
its items up to the closing bracket, and each item that is a list in the same way. What
is known of the lists around a form is then only how many there are, and the kind of the
innermost one, and a fault may be noticed at any depth of the recursion, by the function
that reads a form or by the one that reads the items of a list.

Both ways of reading agree on all tokens, in the forms and in the faults.
-/
namespace CoreLisp.Form

/-- A form at the start of the tokens, and what comes after it. -/
structure Front (tokens : List Token.Located) where
  form : Form
  rest : List Token.Located
  shorter : rest.length < tokens.length

/-- The same form, with more tokens in front. -/
def Front.widen {tokens more : List Token.Located} (front : Front tokens)
    (longer : tokens.length < more.length) : Front more :=
  ⟨front.form, front.rest, Nat.lt_trans front.shorter longer⟩

mutual

/-- The form at the start of the tokens, inside `depth` lists. -/
def readFront (depth : Nat) (tokens : List Token.Located) : Except SyntaxError (Front tokens) :=
  match tokens with
  | [] => .error .unexpectedEnd
  | t :: rest =>
    match t.token with
    | .opening kind =>
        if depth = maxNesting then .error (.nestingTooDeep maxNesting t.span)
        else do
          let list ← readItems kind (depth + 1) [] rest
          return list.widen (Nat.lt_succ_self _)
    | .closing _ => .error (.unexpectedClose t.span)
    | .integer digits =>
        let value := Nat.ofDigitChars 10 digits.toList 0
        if value ≤ maxInteger then .ok ⟨.integer value, rest, Nat.lt_succ_self _⟩
        else .error (.integerOutOfRange t.span)
    | .boolean value => .ok ⟨.boolean value, rest, Nat.lt_succ_self _⟩
    | .undefined => .ok ⟨.undefined, rest, Nat.lt_succ_self _⟩
    | .symbol name => .ok ⟨.symbol name, rest, Nat.lt_succ_self _⟩
termination_by (tokens.length, 0)

/-- The list that goes on with the tokens, `depth` lists deep and opened by a bracket of
the kind. The items so far are latest first. -/
def readItems (kind : Delimiter) (depth : Nat) (items : List Form) (tokens : List Token.Located) :
    Except SyntaxError (Front tokens) :=
  match tokens with
  | [] => .error .unexpectedEnd
  | t :: rest =>
    match t.token with
    | .closing close =>
        if kind = close then .ok ⟨.list items.reverse, rest, Nat.lt_succ_self _⟩
        else .error (.mismatchedDelimiter kind.closer close.closer t.span)
    | _ => do
        let item ← readFront depth (t :: rest)
        let list ← readItems kind depth (item.form :: items) item.rest
        return list.widen item.shorter
termination_by (tokens.length, 1)
decreasing_by
  · exact Prod.Lex.right _ Nat.zero_lt_one
  · exact Prod.Lex.left _ _ item.shorter

end

/-- All forms, up to the end of the tokens. The forms so far are latest first. -/
def readForms (done : List Form) (tokens : List Token.Located) : Except SyntaxError (List Form) :=
  match tokens with
  | [] => .ok done.reverse
  | t :: rest => do
      let first ← readFront 0 (t :: rest)
      readForms (first.form :: done) first.rest
termination_by tokens.length
decreasing_by exact first.shorter

namespace Progress

/-- What becomes of the tokens when the reader has come this far. -/
def readOn (p : Progress) (tokens : List Token.Located) : Except SyntaxError (List Form) := do
  (← tokens.foldlM feed p).finish

theorem readOn_cons {p : Progress} {t : Token.Located} {rest : List Token.Located} :
    p.readOn (t :: rest) = p.feed t >>= fun p' => p'.readOn rest := by
  rw [readOn, List.foldlM_cons, bind_assoc]
  rfl

mutual

/-- Where as many lists are open, reading on is reading a form and then reading on with it.
Closing brackets are left to the list that they close, if there is one. -/
theorem readOn_front (p : Progress) (t : Token.Located) (rest : List Token.Located)
    {depth : Nat} (hdepth : p.pending.length = depth)
    (hclose : ∀ kind, t.token = .closing kind → p.pending = []) :
    p.readOn (t :: rest) =
      readFront depth (t :: rest) >>= fun front => (p.add front.form).readOn front.rest := by
  rw [readOn_cons, readFront]
  unfold feed
  cases ht : t.token with
  | opening kind =>
      simp only [hdepth]
      split
      · rfl
      · have inside := readOn_items kind [] p.done p.pending rest (congrArg (· + 1) hdepth)
        rw [bind_assoc]
        exact inside
  | closing kind =>
      simp only [hclose kind ht]
      rfl
  | integer digits =>
      simp only
      split <;> rfl
  | boolean | undefined | symbol => rfl
termination_by (rest.length + 1, 0)

theorem readOn_items (kind : Delimiter) (items done : List Form) (outer : List OpenList)
    (tokens : List Token.Located) {depth : Nat} (hdepth : outer.length + 1 = depth) :
    readOn ⟨done, ⟨kind, items⟩ :: outer⟩ tokens =
      readItems kind depth items tokens >>= fun front =>
        (add front.form ⟨done, outer⟩).readOn front.rest := by
  cases tokens with
  | nil =>
      rw [readItems]
      rfl
  | cons t rest =>
      by_cases hclose : ∃ close, t.token = .closing close
      · obtain ⟨close, ht⟩ := hclose
        rw [readOn_cons, readItems]
        simp only [feed, ht]
        split <;> rfl
      · have first := readOn_front ⟨done, ⟨kind, items⟩ :: outer⟩ t rest hdepth
          fun close ht => absurd ⟨close, ht⟩ hclose
        rw [first, readItems]
        split
        · exact absurd ⟨_, ‹_›⟩ hclose
        · rw [bind_assoc]
          cases readFront depth (t :: rest) with
          | error e => rfl
          | ok item =>
              have shorter : item.rest.length < rest.length + 1 := item.shorter
              have later := readOn_items kind (item.form :: items) done outer item.rest hdepth
              simp only [pure_bind, bind_assoc]
              exact later
termination_by (tokens.length, 1)

end

theorem readOn_forms (done : List Form) (tokens : List Token.Located) :
    readOn ⟨done, []⟩ tokens = readForms done tokens := by
  cases tokens with
  | nil =>
      rw [readForms]
      rfl
  | cons t rest =>
      have first := readOn_front ⟨done, []⟩ t rest rfl fun _ _ => rfl
      rw [first, readForms]
      cases readFront 0 (t :: rest) with
      | error e => rfl
      | ok front =>
          have shorter : front.rest.length < rest.length + 1 := front.shorter
          exact readOn_forms (front.form :: done) front.rest
termination_by tokens.length

end Progress

/-- Reading token by token and reading by descent agree. -/
theorem ofTokens_eq_readForms (tokens : List Token.Located) :
    ofTokens tokens = readForms [] tokens :=
  Progress.readOn_forms [] tokens

end CoreLisp.Form
