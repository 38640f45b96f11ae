import CoreLisp.Proofs.Form.Grammar
import CoreLisp.Proofs.Form.RoundTrip

/-!
# Forms written with brackets of several kinds

The canonical text of a form has round brackets only. People write binding lists
with square ones, and such a text is read as the same form. What is written is
here a tree of brackets with forms at its leaves: it has a text, and it is a
piece of the grammar.
-/
namespace CoreLisp.Form

open Token (Lexes Apart lexes_nil)
open SyntaxError (bind_eq_ok_iff)

/-- A form with the kinds of its outer brackets. Inside `plain`, brackets are round. -/
inductive Written where
  | plain (form : Form)
  | list (kind : Delimiter) (items : List Written)

namespace Written

mutual

def text : Written → String
  | plain form => form.text
  | list kind items =>
      String.singleton kind.opener ++ " ".intercalate (texts items) ++
        String.singleton kind.closer

def texts : List Written → List String
  | [] => []
  | w :: ws => text w :: texts ws

end

/-- Several written forms with a blank between neighbours. -/
def textAll (ws : List Written) : String := " ".intercalate (ws.map text)

mutual

/-- The form that is written, with its tokens. -/
def piece : Written → Piece
  | plain form => ⟨form.tokens, form⟩
  | list kind items =>
      ⟨.opening kind :: (joined (pieces items) ++ [.closing kind]),
        .list ((pieces items).map Piece.form)⟩

def pieces : List Written → List Piece
  | [] => []
  | w :: ws => piece w :: pieces ws

end

def form (w : Written) : Form := w.piece.form

variable {w : Written} {ws items : List Written} {kind : Delimiter}
variable {limit depth : Nat} {rest : List Char} {ts : List Token}

@[simp] theorem texts_eq_map (ws : List Written) : texts ws = ws.map text := by
  induction ws with
  | nil => rfl
  | cons w ws ih => rw [texts, ih, List.map_cons]

@[simp] theorem pieces_eq_map (ws : List Written) : pieces ws = ws.map piece := by
  induction ws with
  | nil => rfl
  | cons w ws ih => rw [pieces, ih, List.map_cons]

@[simp] theorem form_plain (form : Form) : (plain form).form = form := by
  rw [Written.form, piece]

@[simp] theorem form_list (kind : Delimiter) (items : List Written) :
    (list kind items).form = .list (items.map form) := by
  rw [form, piece, pieces_eq_map, List.map_map]
  rfl

/-- The symbols and integers at the leaves are those that source text can spell. -/
inductive Spelled : Written → Prop
  | plain {form : Form} : form.Spelled → Spelled (.plain form)
  | list {kind : Delimiter} {items : List Written} :
      (∀ item ∈ items, Spelled item) → Spelled (.list kind items)

theorem toList_text_list (kind : Delimiter) (items : List Written) :
    (list kind items).text.toList = kind.opener :: ((textAll items).toList ++ [kind.closer]) := by
  simp [text, textAll]

theorem toList_textAll_cons (w second : Written) (ws : List Written) :
    (textAll (w :: second :: ws)).toList =
      w.text.toList ++ ' ' :: (textAll (second :: ws)).toList := by
  simp [textAll, String.intercalate_cons_cons]

/-- Whatever follows the text, as long as it does not go on with a symbol or literal,
the tokens of the piece are cut off in front of it. -/
def Cut (w : Written) : Prop :=
  ∀ {rest : List Char} {ts : List Token}, Apart rest → Lexes rest ts →
    Lexes (w.text.toList ++ rest) (w.piece.tokens ++ ts)

theorem lexes_textAll (cut : ∀ w ∈ ws, w.Cut) (hrest : Apart rest) (lexes : Lexes rest ts) :
    Lexes ((textAll ws).toList ++ rest) (joined (ws.map piece) ++ ts) := by
  induction ws with
  | nil => simpa [textAll] using lexes
  | cons w ws ih =>
      obtain ⟨hw, hws⟩ := List.forall_mem_cons.mp cut
      cases ws with
      | nil => simpa [textAll] using hw hrest lexes
      | cons second ws =>
          have hblank := (ih hws).blank (c := ' ') (by decide)
          have hfirst := hw (Token.apart_cons (by decide)) hblank
          rw [toList_textAll_cons, List.map_cons, joined_cons]
          simpa using hfirst

theorem apart_closer (kind : Delimiter) (rest : List Char) : Apart (kind.closer :: rest) := by
  cases kind <;> exact Token.apart_cons (by decide)

theorem Spelled.cut (spelled : w.Spelled) : w.Cut := by
  induction spelled with
  | plain spelled =>
      intro rest ts hrest lexes
      rw [text, piece]
      exact lexes_text spelled hrest lexes
  | @list kind items _ ih =>
      intro rest ts hrest lexes
      have hclose := lexes.cons (Token.leading_closing kind rest)
      have hitems := lexes_textAll ih (apart_closer kind rest) hclose
      have hopen := hitems.cons (Token.leading_opening kind _)
      rw [toList_text_list, piece, pieces_eq_map]
      simpa using hopen

theorem decimal_repr {value : Int} (hvalue : 0 ≤ value) : (decimal value.repr : Int) = value := by
  rw [decimal, toList_repr hvalue, Nat.ofDigitChars_ten_toDigits, Int.toNat_of_nonneg hvalue]

theorem tokensAll_eq_joined (forms : List Form) :
    tokensAll forms = joined (forms.map fun form => ⟨form.tokens, form⟩) := by
  induction forms with
  | nil => rfl
  | cons form forms ih => rw [tokensAll, ih, List.map_cons, joined_cons]

theorem derives_tokens {form : Form} (spelled : form.Spelled)
    (room : form.nesting + depth ≤ limit) : Derives limit depth ⟨form.tokens, form⟩ := by
  induction spelled generalizing depth with
  | symbol => exact .symbol
  | boolean => exact .boolean
  | undefined => exact .undefined
  | @integer value hvalue hmax =>
      have hdecimal := decimal_repr hvalue
      have derives := @Derives.integer limit depth value.repr (by omega)
      rw [hdecimal] at derives
      exact derives
  | @list items _ ih =>
      rw [nesting] at room
      have hitems : ∀ piece ∈ items.map fun form => (⟨form.tokens, form⟩ : Piece),
          Derives limit (depth + 1) piece := by
        refine List.forall_mem_map.mpr fun item mem => ih item mem ?_
        have := nestingAll_le_iff.mp (Nat.le_refl _) item mem
        omega
      have derives := @Derives.list limit depth .paren _ (by omega) hitems
      rw [← tokensAll_eq_joined] at derives
      simpa [tokens, Function.comp_def] using derives

theorem Spelled.derives (spelled : w.Spelled) (room : w.form.nesting + depth ≤ limit) :
    Derives limit depth w.piece := by
  induction spelled generalizing depth with
  | plain spelled =>
      rw [form_plain] at room
      rw [piece]
      exact derives_tokens spelled room
  | @list kind items _ ih =>
      rw [form_list, nesting] at room
      have hitems : ∀ p ∈ items.map piece, Derives limit (depth + 1) p := by
        refine List.forall_mem_map.mpr fun item mem => ih item mem ?_
        have := nestingAll_le_iff.mp (Nat.le_refl _) item.form (List.mem_map_of_mem mem)
        omega
      rw [piece, pieces_eq_map]
      exact .list (by omega) hitems

/-- What is written is read, whatever brackets it is written with. -/
theorem readAll_textAll (spelled : ∀ w ∈ ws, w.Spelled)
    (room : nestingAll (ws.map form) ≤ maxNesting) :
    readAll (textAll ws) = .ok (ws.map form) := by
  have lexes := lexes_textAll (fun w mem => (spelled w mem).cut) Token.apart_nil lexes_nil
  rw [List.append_nil, List.append_nil] at lexes
  obtain ⟨located, hscan, htokens⟩ := lexes 0
  have derives : ∀ p ∈ ws.map piece, Derives maxNesting 0 p := by
    refine List.forall_mem_map.mpr fun w mem => (spelled w mem).derives ?_
    exact nestingAll_le_iff.mp room w.form (List.mem_map_of_mem mem)
  refine bind_eq_ok_iff.mpr ⟨located, hscan, ofTokens_eq_ok_iff.mpr ⟨_, ⟨htokens, derives⟩, ?_⟩⟩
  rw [List.map_map]
  rfl

end Written

end CoreLisp.Form
