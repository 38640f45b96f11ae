import CoreLisp.Proofs.Form.Reader

/-!
# The grammar of forms

A piece is a form together with the tokens it is written with. A symbol or a
literal is a piece of one token; a list is an opening bracket, the pieces of its
items, and a closing bracket of the same kind. The grammar knows the number of
lists around a piece and a limit on it; the reader works with one limit, and the
others serve to speak of lists that are too deep for it.

Nothing is said about how tokens are read. That the reader accepts exactly the
rows of pieces, that the tokens determine the pieces, and that nothing but the
depth of its lists keeps a row of pieces from being accepted, is shown here.
-/
namespace CoreLisp

open SyntaxError (bind_eq_ok_iff)

/-- The same token with round brackets. -/
def Token.round : Token → Token
  | opening _ => opening .paren
  | closing _ => closing .paren
  | token => token

namespace Form

/-- A form and the tokens it is written with. -/
structure Piece where
  tokens : List Token
  form : Form

/-- The tokens of several pieces, one piece after the other. -/
def joined (pieces : List Piece) : List Token := pieces.flatMap Piece.tokens

@[simp] theorem joined_nil : joined [] = [] := rfl

@[simp] theorem joined_cons (piece : Piece) (pieces : List Piece) :
    joined (piece :: pieces) = piece.tokens ++ joined pieces := rfl

@[simp] theorem joined_append (pieces more : List Piece) :
    joined (pieces ++ more) = joined pieces ++ joined more := List.flatMap_append

/-- The value that the digits of an integer token denote. -/
def decimal (digits : String) : Nat := Nat.ofDigitChars 10 digits.toList 0

/-- The pieces that may stand inside `depth` lists, when `limit` lists may be open
at once. -/
inductive Derives (limit : Nat) : Nat → Piece → Prop
  | symbol {depth : Nat} {name : Name} : Derives limit depth ⟨[.symbol name], .symbol name⟩
  | boolean {depth : Nat} {value : Bool} : Derives limit depth ⟨[.boolean value], .boolean value⟩
  | undefined {depth : Nat} : Derives limit depth ⟨[.undefined], .undefined⟩
  | integer {depth : Nat} {digits : String} : decimal digits ≤ maxInteger →
      Derives limit depth ⟨[.integer digits], .integer (decimal digits)⟩
  | list {depth : Nat} {kind : Delimiter} {pieces : List Piece} : depth < limit →
      (∀ piece ∈ pieces, Derives limit (depth + 1) piece) →
      Derives limit depth
        ⟨.opening kind :: (joined pieces ++ [.closing kind]), .list (pieces.map Piece.form)⟩

/-- The tokens fall into these pieces. -/
structure Decomposes (limit depth : Nat) (tokens : List Token) (pieces : List Piece) : Prop where
  tokens_eq : tokens = joined pieces
  derives : ∀ piece ∈ pieces, Derives limit depth piece

variable {limit limit' depth depth' : Nat} {piece other : Piece} {pieces others : List Piece}
variable {form : Form} {forms forms' : List Form} {ts rest rest' : List Token}

/-- No piece starts with a closing bracket. -/
theorem Derives.head (derives : Derives limit depth piece) :
    ∃ t ts, piece.tokens = t :: ts ∧ ∀ kind, t ≠ .closing kind := by
  cases derives with
  | symbol | boolean | undefined | integer | list => exact ⟨_, _, rfl, nofun⟩

theorem Derives.not_closing {kind : Delimiter} (derives : Derives limit depth piece)
    (h : .closing kind :: rest = piece.tokens ++ rest') : False := by
  obtain ⟨t, ts, htokens, hopen⟩ := derives.head
  rw [htokens, List.cons_append] at h
  exact hopen kind (List.cons.inj h).1.symm

/-- No piece is a proper beginning of another one. -/
def Prefixes (piece : Piece) : Prop :=
  ∀ {limit depth : Nat} {other : Piece} {rest rest' : List Token}, Derives limit depth other →
    piece.tokens ++ rest = other.tokens ++ rest' → piece = other ∧ rest = rest'

/-- Rows of pieces in front of a closing bracket end together if they agree piece
by piece. -/
theorem joined_inj {kind kind' : Delimiter}
    (derives : ∀ piece ∈ pieces, Derives limit depth piece)
    (prefixes : ∀ piece ∈ pieces, Prefixes piece)
    (derives' : ∀ piece ∈ others, Derives limit' depth' piece)
    (h : joined pieces ++ .closing kind :: rest = joined others ++ .closing kind' :: rest') :
    pieces = others ∧ kind = kind' ∧ rest = rest' := by
  induction pieces generalizing others with
  | nil =>
      cases others with
      | nil => simpa using h
      | cons other others =>
          rw [joined_cons, List.append_assoc] at h
          exact (derives' other List.mem_cons_self).not_closing h |>.elim
  | cons piece pieces ih =>
      obtain ⟨hpiece, hpieces⟩ := List.forall_mem_cons.mp derives
      obtain ⟨here, later⟩ := List.forall_mem_cons.mp prefixes
      rw [joined_cons, List.append_assoc] at h
      cases others with
      | nil => exact (hpiece.not_closing h.symm).elim
      | cons other others =>
          obtain ⟨hother, hothers⟩ := List.forall_mem_cons.mp derives'
          rw [joined_cons, List.append_assoc] at h
          obtain ⟨rfl, hjoined⟩ := here hother h
          obtain ⟨rfl, hrest⟩ := ih hpieces later hothers hjoined
          exact ⟨rfl, hrest⟩

/-- Induction on the piece. The items of two lists that start together are compared
up to the closing bracket. -/
theorem Derives.prefixes (derives : Derives limit depth piece) : Prefixes piece := by
  induction derives with
  | symbol | boolean | undefined | integer =>
      intro _ _ other _ _ derives' h
      cases derives' <;> simp_all
  | list _ hpieces ih =>
      intro _ _ other _ _ derives' h
      cases derives' with
      | symbol | boolean | undefined | integer => cases (List.cons.inj h).1
      | list _ hothers =>
          simp only [List.cons_append, List.append_assoc, List.nil_append, List.cons.injEq,
            Token.opening.injEq] at h
          obtain ⟨rfl, hjoined⟩ := h
          obtain ⟨rfl, -, hrest⟩ := joined_inj hpieces ih hothers hjoined
          exact ⟨rfl, hrest⟩

theorem Decomposes.unique (first : Decomposes limit depth ts pieces)
    (second : Decomposes limit' depth' ts others) : pieces = others := by
  have same : joined pieces ++ [.closing .paren] = joined others ++ [.closing .paren] := by
    rw [← first.tokens_eq, ← second.tokens_eq]
  exact (joined_inj first.derives (fun piece mem => (first.derives piece mem).prefixes)
    second.derives same).1

theorem Derives.nesting_le (derives : Derives limit depth piece) (room : depth ≤ limit) :
    piece.form.nesting + depth ≤ limit := by
  induction derives with
  | symbol | boolean | undefined | integer => simpa [nesting] using room
  | @list depth kind pieces hroom hpieces ih =>
      have inside : nestingAll (pieces.map Piece.form) ≤ limit - (depth + 1) := by
        refine nestingAll_le_iff.mpr ?_
        intro form mem
        obtain ⟨piece, hpiece, rfl⟩ := List.mem_map.mp mem
        have := ih piece hpiece hroom
        omega
      simp only [nesting]
      omega

/-- Only the nesting of the form says whether a piece keeps to a limit. -/
theorem Derives.of_nesting_le (derives : Derives limit depth piece)
    (room : piece.form.nesting + depth ≤ limit') : Derives limit' depth piece := by
  induction derives with
  | symbol => exact .symbol
  | boolean => exact .boolean
  | undefined => exact .undefined
  | integer hvalue => exact .integer hvalue
  | list _ _ ih =>
      simp only [nesting] at room
      refine .list (by omega) ?_
      intro piece mem
      have hpiece : piece.form.nesting ≤ nestingAll _ :=
        nestingAll_le_iff.mp (Nat.le_refl _) _ (List.mem_map_of_mem mem)
      exact ih piece mem (by omega)

theorem nestingAll_le_iff_derives (decomposes : Decomposes limit 0 ts pieces) :
    nestingAll (pieces.map Piece.form) ≤ limit' ↔ Decomposes limit' 0 ts pieces := by
  constructor
  · intro room
    refine ⟨decomposes.tokens_eq, ?_⟩
    intro piece mem
    have hpiece := nestingAll_le_iff.mp room _ (List.mem_map_of_mem mem)
    exact (decomposes.derives piece mem).of_nesting_le hpiece
  · intro decomposes'
    refine nestingAll_le_iff.mpr ?_
    intro form mem
    obtain ⟨piece, hpiece, rfl⟩ := List.mem_map.mp mem
    exact (decomposes'.derives piece hpiece).nesting_le (Nat.zero_le _)

/-- The same piece with round brackets. -/
def Piece.round (piece : Piece) : Piece := ⟨piece.tokens.map Token.round, piece.form⟩

theorem joined_round (pieces : List Piece) :
    joined (pieces.map Piece.round) = (joined pieces).map Token.round := by
  induction pieces with
  | nil => rfl
  | cons piece pieces ih => simp [Piece.round, ih]

theorem map_form_round (pieces : List Piece) :
    (pieces.map Piece.round).map Piece.form = pieces.map Piece.form := by
  simp [Piece.round]

theorem Derives.round (derives : Derives limit depth piece) :
    Derives limit depth piece.round := by
  induction derives with
  | symbol => exact .symbol
  | boolean => exact .boolean
  | undefined => exact .undefined
  | integer hvalue => exact .integer hvalue
  | @list depth kind pieces hroom hpieces ih =>
      have items : ∀ piece ∈ pieces.map Piece.round, Derives limit (depth + 1) piece :=
        List.forall_mem_map.mpr ih
      have whole := @Derives.list limit depth .paren _ hroom items
      rw [joined_round, map_form_round] at whole
      simpa [Piece.round, Token.round] using whole

theorem Decomposes.round (decomposes : Decomposes limit depth ts pieces) :
    Decomposes limit depth (ts.map Token.round) (pieces.map Piece.round) := by
  refine ⟨by rw [decomposes.tokens_eq, joined_round], ?_⟩
  exact List.forall_mem_map.mpr fun piece mem => (decomposes.derives piece mem).round

namespace Progress

variable {p p' : Progress} {t : Token.Located} {located : List Token.Located}

/-- From any progress with so many open lists, the tokens of the piece are read and
its form joins. -/
def Reads (depth : Nat) (piece : Piece) : Prop :=
  ∀ {p : Progress} {located : List Token.Located}, p.pending.length = depth →
    located.map (·.token) = piece.tokens → located.foldlM feed p = .ok (p.add piece.form)

theorem foldlM_joined (reads : ∀ piece ∈ pieces, Reads depth piece)
    (hdepth : p.pending.length = depth) (htokens : located.map (·.token) = joined pieces) :
    located.foldlM feed p = .ok (p.addAll (pieces.map Piece.form)) := by
  induction pieces generalizing p located with
  | nil =>
      obtain rfl := List.map_eq_nil_iff.mp htokens
      rfl
  | cons piece pieces ih =>
      obtain ⟨here, later⟩ := List.forall_mem_cons.mp reads
      obtain ⟨first, rest, rfl, hfirst, hrest⟩ := List.map_eq_append_iff.mp htokens
      -- adding the first form leaves the open lists as many as they were
      have hdepth' : (p.add piece.form).pending.length = depth := by
        rw [length_pending_add, hdepth]
      rw [List.foldlM_append, here hdepth hfirst]
      exact bind_eq_ok_iff.mpr ⟨_, rfl, ih later hdepth' hrest⟩

/-- Induction on the piece. The items of a list are read into a new open list, which
the closing bracket ends. -/
theorem reads_of_derives (derives : Derives maxNesting depth piece) : Reads depth piece := by
  induction derives with
  | symbol | boolean | undefined =>
      intro p located _ htokens
      obtain ⟨t, rfl, ht⟩ := List.map_eq_singleton_iff.mp htokens
      exact foldlM_single (by simp only [feed, ht])
  | @integer _ digits hvalue =>
      intro p located _ htokens
      obtain ⟨t, rfl, ht⟩ := List.map_eq_singleton_iff.mp htokens
      refine foldlM_single ?_
      simp only [feed, ht]
      exact if_pos hvalue
  | @list depth kind pieces hroom _ ih =>
      intro p located hdepth htokens
      obtain ⟨first, rest, rfl, hfirst, hrest⟩ := List.map_eq_cons_iff.mp htokens
      obtain ⟨inside, last, rfl, hinside, hlast⟩ := List.map_eq_append_iff.mp hrest
      obtain ⟨closing, rfl, hclosing⟩ := List.map_eq_singleton_iff.mp hlast
      have hopen : p.feed first = .ok { p with pending := ⟨kind, []⟩ :: p.pending } := by
        simp only [feed, hfirst, if_neg (show p.pending.length ≠ maxNesting by omega)]
      have hitems := foldlM_joined (p := { p with pending := ⟨kind, []⟩ :: p.pending }) ih
        (by simp [hdepth]) hinside
      rw [List.foldlM_cons, hopen]
      refine bind_eq_ok_iff.mpr ⟨_, rfl, ?_⟩
      rw [List.foldlM_append, hitems, addAll_inside]
      refine bind_eq_ok_iff.mpr ⟨_, rfl, foldlM_single ?_⟩
      simp [feed, hclosing]

/-- The tokens read so far are the pieces that the progress holds, with the opening
brackets of the lists that are still open. -/
inductive Holds : List Token → Progress → Prop
  | outside {pieces : List Piece} : (∀ piece ∈ pieces, Derives maxNesting 0 piece) →
      Holds (joined pieces) ⟨(pieces.map Piece.form).reverse, []⟩
  | inside {ts : List Token} {done : List Form} {outer : List OpenList} {kind : Delimiter}
      {pieces : List Piece} : Holds ts ⟨done, outer⟩ → outer.length < maxNesting →
      (∀ piece ∈ pieces, Derives maxNesting (outer.length + 1) piece) →
      Holds (ts ++ .opening kind :: joined pieces)
        ⟨done, ⟨kind, (pieces.map Piece.form).reverse⟩ :: outer⟩

theorem Holds.length_le (holds : Holds ts p) : p.pending.length ≤ maxNesting := by
  cases holds with
  | outside => exact Nat.zero_le _
  | inside _ hroom _ => exact hroom

theorem Holds.add (holds : Holds ts p) (derives : Derives maxNesting p.pending.length piece) :
    Holds (ts ++ piece.tokens) (p.add piece.form) := by
  cases holds with
  | @outside pieces hpieces =>
      have more := @Holds.outside (pieces ++ [piece])
        (List.forall_mem_append.mpr ⟨hpieces, List.forall_mem_singleton.mpr derives⟩)
      simpa [Progress.add] using more
  | @inside ts done outer kind pieces houter hroom hpieces =>
      have more := @Holds.inside ts done outer kind (pieces ++ [piece]) houter hroom
        (List.forall_mem_append.mpr ⟨hpieces, List.forall_mem_singleton.mpr derives⟩)
      simpa [Progress.add] using more

theorem Holds.feed (holds : Holds ts p) (ok : p.feed t = .ok p') :
    Holds (ts ++ [t.token]) p' := by
  unfold Progress.feed at ok
  cases ht : t.token with
  | opening kind =>
      simp only [ht] at ok
      split at ok
      · cases ok
      · rename_i hroom
        cases ok
        have hlt : p.pending.length < maxNesting := Nat.lt_of_le_of_ne holds.length_le hroom
        exact @Holds.inside ts p.done p.pending kind [] holds hlt nofun
  | closing kind =>
      simp only [ht] at ok
      cases holds with
      | outside => cases ok
      | @inside ts done outer opened pieces houter hroom hpieces =>
          simp only at ok
          split at ok
          · rename_i hkind
            cases ok
            have whole := houter.add (@Derives.list _ _ opened _ hroom hpieces)
            simpa [hkind] using whole
          · cases ok
  | integer digits =>
      simp only [ht] at ok
      split at ok
      · rename_i hvalue
        cases ok
        exact holds.add (.integer hvalue)
      · cases ok
  | boolean value =>
      simp only [ht] at ok
      cases ok
      exact holds.add .boolean
  | undefined =>
      simp only [ht] at ok
      cases ok
      exact holds.add .undefined
  | symbol name =>
      simp only [ht] at ok
      cases ok
      exact holds.add .symbol

theorem Holds.foldlM (ok : located.foldlM Progress.feed p = .ok p') (holds : Holds ts p) :
    Holds (ts ++ located.map (·.token)) p' := by
  induction located generalizing ts p with
  | nil =>
      cases ok
      simpa using holds
  | cons t located ih =>
      rw [List.foldlM_cons] at ok
      obtain ⟨q, hq, ok⟩ := bind_eq_ok_iff.mp ok
      simpa using ih ok (holds.feed hq)

end Progress

variable {located : List Token.Located}

theorem ofTokens_eq_ok_iff : ofTokens located = .ok forms ↔
    ∃ pieces, Decomposes maxNesting 0 (located.map (·.token)) pieces ∧
      forms = pieces.map Piece.form := by
  constructor
  · intro ok
    obtain ⟨p, hp, ok⟩ := bind_eq_ok_iff.mp ok
    have holds := Progress.Holds.foldlM hp (@Progress.Holds.outside [] nofun)
    generalize htokens : joined [] ++ located.map (·.token) = tokens at holds
    cases holds with
    | @outside pieces hpieces =>
        cases ok
        exact ⟨pieces, ⟨htokens, hpieces⟩, List.reverse_reverse _⟩
    | inside => cases ok
  · intro accepted
    obtain ⟨pieces, ⟨htokens, hpieces⟩, rfl⟩ := accepted
    have reads : ∀ piece ∈ pieces, Progress.Reads 0 piece :=
      fun piece mem => Progress.reads_of_derives (hpieces piece mem)
    refine bind_eq_ok_iff.mpr ⟨_, Progress.foldlM_joined (p := {}) reads rfl htokens, ?_⟩
    rw [Progress.addAll_outside]
    simp [Progress.finish]

/-- Properly bracketed tokens are accepted when the lists are not nested too deep. -/
theorem Decomposes.accepted_iff (decomposes : Decomposes limit 0 (located.map (·.token)) pieces) :
    (∃ forms, ofTokens located = .ok forms) ↔
      nestingAll (pieces.map Piece.form) ≤ maxNesting := by
  rw [nestingAll_le_iff_derives decomposes]
  constructor
  · intro accepted
    obtain ⟨forms, ok⟩ := accepted
    obtain ⟨others, decomposes', -⟩ := ofTokens_eq_ok_iff.mp ok
    rw [decomposes.unique decomposes']
    exact decomposes'
  · intro within
    exact ⟨_, ofTokens_eq_ok_iff.mpr ⟨pieces, within, rfl⟩⟩

/-- The kinds of the brackets are not in the result. -/
theorem ofTokens_eq_of_round {located' : List Token.Located}
    (same : located.map (·.token.round) = located'.map (·.token.round))
    (ok : ofTokens located = .ok forms) (ok' : ofTokens located' = .ok forms') :
    forms = forms' := by
  obtain ⟨pieces, decomposes, rfl⟩ := ofTokens_eq_ok_iff.mp ok
  obtain ⟨others, decomposes', rfl⟩ := ofTokens_eq_ok_iff.mp ok'
  have first := decomposes.round
  have second := decomposes'.round
  simp only [List.map_map, Function.comp_def] at first second
  rw [← same] at second
  rw [← map_form_round pieces, ← map_form_round others, first.unique second]

/-- A symbol inside brackets of these kinds, the outermost first. -/
def enclosed (name : Name) : List Delimiter → Piece
  | [] => ⟨[.symbol name], .symbol name⟩
  | kind :: kinds =>
      ⟨.opening kind :: ((enclosed name kinds).tokens ++ [.closing kind]),
        .list [(enclosed name kinds).form]⟩

theorem derives_enclosed (name : Name) {kinds : List Delimiter}
    (room : depth + kinds.length ≤ limit) : Derives limit depth (enclosed name kinds) := by
  induction kinds generalizing depth with
  | nil => exact .symbol
  | cons kind kinds ih =>
      rw [List.length_cons] at room
      have inner : Derives limit (depth + 1) (enclosed name kinds) := ih (by omega)
      have whole := @Derives.list limit depth kind [enclosed name kinds] (by omega)
        (List.forall_mem_singleton.mpr inner)
      simpa [enclosed] using whole

theorem nesting_enclosed (name : Name) (kinds : List Delimiter) :
    (enclosed name kinds).form.nesting = kinds.length := by
  induction kinds with
  | nil => rfl
  | cons kind kinds ih => simp [enclosed, nestingAll, ih]

/-- The reader accepts the tokens that fall into pieces and gives the forms of these
in order, and no tokens fall into pieces in two ways. The depth of the lists is
the only other thing that it looks at, brackets in brackets are accepted up to
exactly `maxNesting` of them, and the kinds of brackets are forgotten. -/
theorem reader_accepts_grammar (located : List Token.Located) :
    (∀ forms, ofTokens located = .ok forms ↔
      ∃ pieces, Decomposes maxNesting 0 (located.map (·.token)) pieces ∧
        forms = pieces.map Piece.form) ∧
    (∀ source, Token.scan source = .ok located → readAll source = ofTokens located) ∧
    (∀ limit limit' depth depth' pieces others,
      Decomposes limit depth (located.map (·.token)) pieces →
      Decomposes limit' depth' (located.map (·.token)) others → pieces = others) ∧
    (∀ limit pieces, Decomposes limit 0 (located.map (·.token)) pieces →
      ((∃ forms, ofTokens located = .ok forms) ↔
        nestingAll (pieces.map Piece.form) ≤ maxNesting)) ∧
    (∀ name kinds, located.map (·.token) = (enclosed name kinds).tokens →
      ((∃ forms, ofTokens located = .ok forms) ↔ kinds.length ≤ maxNesting)) ∧
    (∀ located' forms forms', located.map (·.token.round) = located'.map (·.token.round) →
      ofTokens located = .ok forms → ofTokens located' = .ok forms' → forms = forms') := by
  refine ⟨fun forms => ofTokens_eq_ok_iff, ?_, ?_, ?_, ?_, ?_⟩
  · intro source scanned
    rw [readAll, scanned]
    rfl
  · intro limit limit' depth depth' pieces others first second
    exact first.unique second
  · intro limit pieces decomposes
    exact decomposes.accepted_iff
  · intro name kinds htokens
    have decomposes : Decomposes kinds.length 0 (located.map (·.token)) [enclosed name kinds] :=
      ⟨by simpa using htokens,
        List.forall_mem_singleton.mpr (derives_enclosed name (by omega))⟩
    rw [decomposes.accepted_iff]
    simp [nestingAll, nesting_enclosed]
  · intro located' forms forms' same ok ok'
    exact ofTokens_eq_of_round same ok ok'

end Form

end CoreLisp
