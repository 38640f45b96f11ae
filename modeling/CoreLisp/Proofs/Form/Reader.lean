import CoreLisp.Form.Reader
import CoreLisp.Proofs.Token.Spelling

/-!
# What the reader makes of tokens

A form is fitting at a depth if its symbols and integers are ones that source
text can spell and its lists, together with those around it, are not nested too
deep. The reader makes only fitting forms, and from the tokens of a fitting form
it makes this form again, whichever lists are open around it.
-/
namespace CoreLisp

namespace SyntaxError

variable {α β : Type} {x : Except SyntaxError α} {f : α → Except SyntaxError β} {y : β}

theorem bind_eq_ok_iff : x >>= f = .ok y ↔ ∃ a, x = .ok a ∧ f a = .ok y := by
  cases x <;> simp [bind, Except.bind]

end SyntaxError

open SyntaxError (bind_eq_ok_iff)

namespace Form

/-- The symbols and integers of a form are those that source text can spell. -/
inductive Spelled : Form → Prop
  | symbol {name : Name} : Token.IsSymbol name.toList → Spelled (.symbol name)
  | integer {value : Int} : 0 ≤ value → value ≤ maxInteger → Spelled (.integer value)
  | boolean {value : Bool} : Spelled (.boolean value)
  | undefined : Spelled .undefined
  | list {items : List Form} : (∀ item ∈ items, Spelled item) → Spelled (.list items)

theorem Spelled.isSymbol {x : Name} (spelled : (Form.symbol x).Spelled) :
    Token.IsSymbol x.toList := by
  cases spelled with
  | symbol hx => exact hx

theorem Spelled.items {parts : List Form} (spelled : (Form.list parts).Spelled) :
    ∀ part ∈ parts, part.Spelled := by
  cases spelled with
  | list spelled => exact spelled

/-- The form may stand inside `depth` lists. -/
structure Fits (depth : Nat) (form : Form) : Prop where
  spelled : form.Spelled
  nesting : form.nesting + depth ≤ maxNesting

/-- The forms that a source text can denote. -/
structure Readable (forms : List Form) : Prop where
  spelled : ∀ form ∈ forms, form.Spelled
  nesting : nestingAll forms ≤ maxNesting

variable {form : Form} {forms items : List Form} {depth n : Nat}

@[simp] theorem nestingAll_nil : nestingAll [] = 0 := rfl

@[simp] theorem nestingAll_cons (form : Form) (forms : List Form) :
    nestingAll (form :: forms) = max form.nesting (nestingAll forms) := rfl

@[simp] theorem nesting_list (items : List Form) :
    (Form.list items).nesting = nestingAll items + 1 := rfl

@[simp] theorem nesting_symbol (x : Name) : (Form.symbol x).nesting = 0 := rfl

theorem nestingAll_le_iff : nestingAll forms ≤ n ↔ ∀ form ∈ forms, form.nesting ≤ n := by
  induction forms with
  | nil => simp [nestingAll]
  | cons form forms ih => rw [nestingAll, Nat.max_le, ih, List.forall_mem_cons]

theorem readable_iff : Readable forms ↔ ∀ form ∈ forms, form.Fits 0 := by
  constructor
  · intro readable form mem
    exact ⟨readable.spelled form mem, nestingAll_le_iff.mp readable.nesting form mem⟩
  · intro fits
    exact ⟨fun form mem => (fits form mem).spelled,
      nestingAll_le_iff.mpr fun form mem => (fits form mem).nesting⟩

/-- The items of a list stand one list deeper than the list. -/
theorem fits_list_iff : (Form.list items).Fits depth ↔
    depth < maxNesting ∧ ∀ item ∈ items, item.Fits (depth + 1) := by
  constructor
  · intro fits
    obtain ⟨spelled, hnesting⟩ := fits
    rw [nesting] at hnesting
    refine ⟨by omega, ?_⟩
    intro item mem
    have hitem := nestingAll_le_iff.mp (Nat.le_refl _) item mem
    cases spelled with
    | list hitems => exact ⟨hitems item mem, by omega⟩
  · intro fits
    obtain ⟨hdepth, hitems⟩ := fits
    have hall : nestingAll items ≤ maxNesting - (depth + 1) := by
      refine nestingAll_le_iff.mpr ?_
      intro item mem
      have := (hitems item mem).nesting
      omega
    refine ⟨.list fun item mem => (hitems item mem).spelled, ?_⟩
    rw [nesting]
    omega

mutual

/-- The tokens of the canonical text of a form. -/
def tokens : Form → List Token
  | symbol name => [.symbol name]
  | integer value => [.integer value.repr]
  | boolean value => [.boolean value]
  | undefined => [.undefined]
  | list items => .opening .paren :: (tokensAll items ++ [.closing .paren])

def tokensAll : List Form → List Token
  | [] => []
  | form :: forms => tokens form ++ tokensAll forms

end

theorem toList_repr {value : Int} (hvalue : 0 ≤ value) :
    value.repr.toList = Nat.toDigits 10 value.toNat := by
  obtain ⟨n, rfl⟩ := Int.eq_ofNat_of_zero_le hvalue
  exact Nat.toList_repr

namespace Progress

variable {p p' : Progress} {t : Token.Located} {located : List Token.Located}

/-- Several finished forms join one after the other. -/
def addAll (forms : List Form) (p : Progress) : Progress :=
  forms.foldl (fun p form => p.add form) p

theorem length_pending_add (form : Form) (p : Progress) :
    (p.add form).pending.length = p.pending.length := by
  unfold add
  split <;> simp [*]

theorem addAll_inside (forms : List Form) (p : Progress) (inner : OpenList)
    (outer : List OpenList) :
    addAll forms { p with pending := inner :: outer } =
      { p with pending := { inner with items := forms.reverse ++ inner.items } :: outer } := by
  induction forms generalizing inner with
  | nil => rfl
  | cons form forms ih =>
      have hstep : addAll (form :: forms) { p with pending := inner :: outer } =
          addAll forms { p with pending := { inner with items := form :: inner.items } :: outer } :=
        rfl
      rw [hstep, ih]
      simp

theorem addAll_outside (forms done : List Form) :
    addAll forms ⟨done, []⟩ = ⟨forms.reverse ++ done, []⟩ := by
  induction forms generalizing done with
  | nil => rfl
  | cons form forms ih =>
      have hstep : addAll (form :: forms) ⟨done, []⟩ = addAll forms ⟨form :: done, []⟩ := rfl
      rw [hstep, ih]
      simp

/-- The tokens of a single symbol or literal. -/
theorem foldlM_single (ht : p.feed t = .ok p') : [t].foldlM feed p = .ok p' := by
  rw [List.foldlM_cons, ht]
  rfl

theorem feed_integer {value : Int} (hvalue : 0 ≤ value) (hmax : value ≤ maxInteger)
    (ht : t.token = .integer value.repr) : p.feed t = .ok (p.add (.integer value)) := by
  have hle : value.toNat ≤ maxInteger := by omega
  have hcast : (value.toNat : Int) = value := Int.toNat_of_nonneg hvalue
  simp only [feed, ht, toList_repr hvalue, Nat.ofDigitChars_ten_toDigits, if_pos hle, hcast]

mutual

/-- Induction on the form. The items of a list are read into a new open list, which
the closing bracket ends. -/
theorem foldlM_tokens {form : Form} {p : Progress} {located : List Token.Located}
    (htokens : located.map (·.token) = form.tokens) (fits : form.Fits p.pending.length) :
    located.foldlM feed p = .ok (p.add form) := by
  match form with
  | .symbol name =>
      obtain ⟨t, rfl, ht⟩ := List.map_eq_singleton_iff.mp htokens
      exact foldlM_single (by simp only [feed, ht])
  | .integer value =>
      obtain ⟨t, rfl, ht⟩ := List.map_eq_singleton_iff.mp htokens
      cases fits.spelled with
      | integer hvalue hmax => exact foldlM_single (feed_integer hvalue hmax ht)
  | .boolean value =>
      obtain ⟨t, rfl, ht⟩ := List.map_eq_singleton_iff.mp htokens
      exact foldlM_single (by simp only [feed, ht])
  | .undefined =>
      obtain ⟨t, rfl, ht⟩ := List.map_eq_singleton_iff.mp htokens
      exact foldlM_single (by simp only [feed, ht])
  | .list items =>
      obtain ⟨hroom, hitems⟩ := fits_list_iff.mp fits
      obtain ⟨first, rest, rfl, hfirst, hrest⟩ := List.map_eq_cons_iff.mp htokens
      obtain ⟨inside, last, rfl, hinside, hlast⟩ := List.map_eq_append_iff.mp hrest
      obtain ⟨closing, rfl, hclosing⟩ := List.map_eq_singleton_iff.mp hlast
      have hopen : p.feed first = .ok { p with pending := ⟨.paren, []⟩ :: p.pending } := by
        simp only [feed, hfirst, if_neg (Nat.ne_of_lt hroom)]
      have hitems := foldlM_tokensAll (p := { p with pending := ⟨.paren, []⟩ :: p.pending })
        hinside hitems
      rw [List.foldlM_cons, hopen]
      refine bind_eq_ok_iff.mpr ⟨_, rfl, ?_⟩
      rw [List.foldlM_append, hitems, addAll_inside]
      refine bind_eq_ok_iff.mpr ⟨_, rfl, foldlM_single ?_⟩
      simp [feed, hclosing]

theorem foldlM_tokensAll {forms : List Form} {p : Progress} {located : List Token.Located}
    (htokens : located.map (·.token) = tokensAll forms)
    (fits : ∀ form ∈ forms, form.Fits p.pending.length) :
    located.foldlM feed p = .ok (p.addAll forms) := by
  match forms with
  | [] =>
      obtain rfl := List.map_eq_nil_iff.mp htokens
      rfl
  | form :: forms =>
      obtain ⟨first, rest, rfl, hfirst, hrest⟩ := List.map_eq_append_iff.mp htokens
      obtain ⟨hform, hforms⟩ := List.forall_mem_cons.mp fits
      -- adding the first form leaves the open lists as many as they were
      rw [← length_pending_add form p] at hforms
      rw [List.foldlM_append, foldlM_tokens hfirst hform]
      exact bind_eq_ok_iff.mpr ⟨_, rfl, foldlM_tokensAll hrest hforms⟩

end

/-- The items of each open list fit where they stand. -/
def Inside : List OpenList → Prop
  | [] => True
  | inner :: outer =>
      outer.length < maxNesting ∧ (∀ item ∈ inner.items, item.Fits (outer.length + 1)) ∧
        Inside outer

structure Fitting (p : Progress) : Prop where
  done : ∀ form ∈ p.done, form.Fits 0
  pending : Inside p.pending

theorem Fitting.length_le (fitting : p.Fitting) : p.pending.length ≤ maxNesting := by
  obtain ⟨done, pending⟩ := p
  cases pending with
  | nil => exact Nat.zero_le _
  | cons inner outer => exact fitting.pending.1

theorem Fitting.add {form : Form} (fitting : p.Fitting) (fits : form.Fits p.pending.length) :
    (p.add form).Fitting := by
  obtain ⟨done, pending⟩ := p
  obtain ⟨hdone, hpending⟩ := fitting
  cases pending with
  | nil => exact ⟨List.forall_mem_cons.mpr ⟨fits, hdone⟩, trivial⟩
  | cons inner outer =>
      obtain ⟨hroom, hitems, houter⟩ := hpending
      exact ⟨hdone, hroom, List.forall_mem_cons.mpr ⟨fits, hitems⟩, houter⟩

/-- A symbol or literal fits wherever it is read. -/
theorem Fitting.fits_of_nesting {form : Form} (fitting : p.Fitting) (spelled : form.Spelled)
    (hnesting : form.nesting = 0) : form.Fits p.pending.length := by
  refine ⟨spelled, ?_⟩
  rw [hnesting, Nat.zero_add]
  exact fitting.length_le

theorem Fitting.feed (fitting : p.Fitting) (lexical : t.token.Lexical)
    (ok : p.feed t = .ok p') : p'.Fitting := by
  unfold Progress.feed at ok
  cases ht : t.token with
  | opening kind =>
      simp only [ht] at ok
      split at ok
      · cases ok
      · rename_i hroom
        cases ok
        have hlt : p.pending.length < maxNesting := Nat.lt_of_le_of_ne fitting.length_le hroom
        exact ⟨fitting.done, hlt, nofun, fitting.pending⟩
  | closing kind =>
      simp only [ht] at ok
      obtain ⟨done, pending⟩ := p
      cases pending with
      | nil => cases ok
      | cons inner outer =>
          obtain ⟨hroom, hitems, houter⟩ := fitting.pending
          simp only at ok
          split at ok
          · cases ok
            have fits : (Form.list inner.items.reverse).Fits outer.length := by
              refine fits_list_iff.mpr ⟨hroom, ?_⟩
              intro item mem
              exact hitems item (List.mem_reverse.mp mem)
            have outside : Progress.Fitting ⟨done, outer⟩ := ⟨fitting.done, houter⟩
            exact outside.add fits
          · cases ok
  | integer digits =>
      simp only [ht] at ok
      split at ok
      · rename_i hmax
        cases ok
        have spelled : (Form.integer (Nat.ofDigitChars 10 digits.toList 0)).Spelled :=
          .integer (Int.natCast_nonneg _) (Int.ofNat_le.mpr hmax)
        exact fitting.add (fitting.fits_of_nesting spelled rfl)
      · cases ok
  | boolean value =>
      simp only [ht] at ok
      cases ok
      exact fitting.add (fitting.fits_of_nesting .boolean rfl)
  | undefined =>
      simp only [ht] at ok
      cases ok
      exact fitting.add (fitting.fits_of_nesting .undefined rfl)
  | symbol name =>
      simp only [ht] at ok
      cases ok
      rw [ht] at lexical
      exact fitting.add (fitting.fits_of_nesting (.symbol lexical) rfl)

theorem Fitting.foldlM (lexical : ∀ t ∈ located, t.token.Lexical)
    (ok : located.foldlM Progress.feed p = .ok p') (fitting : p.Fitting) : p'.Fitting := by
  induction located generalizing p with
  | nil =>
      cases ok
      exact fitting
  | cons t located ih =>
      obtain ⟨ht, hlocated⟩ := List.forall_mem_cons.mp lexical
      rw [List.foldlM_cons] at ok
      obtain ⟨q, hq, ok⟩ := bind_eq_ok_iff.mp ok
      exact ih hlocated ok (fitting.feed ht hq)

end Progress

theorem ofTokens_eq_ok {located : List Token.Located}
    (htokens : located.map (·.token) = tokensAll forms) (readable : Readable forms) :
    ofTokens located = .ok forms := by
  have read := Progress.foldlM_tokensAll (p := {}) htokens (readable_iff.mp readable)
  refine bind_eq_ok_iff.mpr ⟨_, read, ?_⟩
  rw [Progress.addAll_outside]
  simp [Progress.finish]

theorem readable_of_ofTokens {located : List Token.Located}
    (lexical : ∀ t ∈ located, t.token.Lexical) (ok : ofTokens located = .ok forms) :
    Readable forms := by
  obtain ⟨p, hp, ok⟩ := bind_eq_ok_iff.mp ok
  have fitting := Progress.Fitting.foldlM lexical hp ⟨nofun, trivial⟩
  unfold Progress.finish at ok
  split at ok
  · cases ok
    refine readable_iff.mpr ?_
    intro form mem
    exact fitting.done form (List.mem_reverse.mp mem)
  · cases ok

end Form

end CoreLisp
