import CoreLisp.Form.Reader
import CoreLisp.Proofs.Form.Reader
import CoreLisp.Proofs.Token.Scan

/-!
# Reading what has been written

The canonical text of a form is cut into the tokens of that form, because a
blank or a bracket stands between any two symbols or literals. So the forms that
can be spelled and are not nested too deep are read back from their text, and
no other forms come from any text.
-/
namespace CoreLisp.Form

open Token (Lexes Apart lexes_nil)
open SyntaxError (bind_eq_ok_iff)

variable {form : Form} {forms : List Form} {rest : List Char} {ts : List Token}

theorem toList_textAll_cons (form second : Form) (forms : List Form) :
    (textAll (form :: second :: forms)).toList =
      form.text.toList ++ ' ' :: (textAll (second :: forms)).toList := by
  simp [textAll, String.intercalate_cons_cons]

theorem toList_text_list (items : List Form) :
    (Form.list items).text.toList = '(' :: ((textAll items).toList ++ [')']) := by
  simp [text, textAll]

theorem leading_text_integer {value : Int} (hvalue : 0 ≤ value) (hrest : Apart rest) :
    Token.leading (value.repr.toList ++ rest) =
      some (.integer value.repr, value.repr.toList) := by
  have hdigits := toList_repr hvalue
  have hall : ∀ d ∈ value.repr.toList, d.isDigit := by
    intro d hd
    rw [hdigits] at hd
    exact Nat.isDigit_of_mem_toDigits (by decide) (by decide) hd
  have hne : value.repr.toList ≠ [] := by
    rw [hdigits]
    exact Nat.toDigits_ne_nil
  have hleading := Token.leading_integer hne hall hrest
  rw [String.ofList_toList] at hleading
  exact hleading

mutual

/-- Induction on the form: what follows each part is a blank, a bracket, or what
follows the whole. -/
theorem lexes_text {form : Form} {rest : List Char} {ts : List Token} (spelled : form.Spelled)
    (hrest : Apart rest) (lexes : Lexes rest ts) :
    Lexes (form.text.toList ++ rest) (form.tokens ++ ts) := by
  match form, spelled with
  | .symbol name, .symbol hname =>
      have hleading := Token.leading_symbol hname hrest
      rw [String.ofList_toList] at hleading
      exact lexes.cons hleading
  | .integer value, .integer hvalue hmax => exact lexes.cons (leading_text_integer hvalue hrest)
  | .boolean true, .boolean => exact lexes.cons (Token.leading_true hrest)
  | .boolean false, .boolean => exact lexes.cons (Token.leading_false hrest)
  | .undefined, .undefined => exact lexes.cons (Token.leading_undefined rest)
  | .list items, .list hitems =>
      have hclose := Token.leading_closing .paren rest
      have hitems := lexes_textAll hitems (Token.apart_cons (by decide)) (lexes.cons hclose)
      have hopen := hitems.cons (Token.leading_opening .paren _)
      rw [toList_text_list]
      simpa [tokens, Delimiter.opener, Delimiter.closer] using hopen

theorem lexes_textAll {forms : List Form} {rest : List Char} {ts : List Token}
    (spelled : ∀ form ∈ forms, form.Spelled) (hrest : Apart rest) (lexes : Lexes rest ts) :
    Lexes ((textAll forms).toList ++ rest) (tokensAll forms ++ ts) := by
  match forms with
  | [] => simpa [textAll, tokensAll] using lexes
  | [form] =>
      have hform := lexes_text (spelled form List.mem_cons_self) hrest lexes
      simpa [textAll, tokensAll] using hform
  | form :: second :: forms =>
      obtain ⟨hform, hforms⟩ := List.forall_mem_cons.mp spelled
      have hblank := (lexes_textAll hforms hrest lexes).blank (c := ' ') (by decide)
      have hform := lexes_text hform (Token.apart_cons (by decide)) hblank
      rw [toList_textAll_cons, tokensAll]
      simpa using hform

end

theorem readAll_textAll (readable : Readable forms) : readAll (textAll forms) = .ok forms := by
  have lexes := lexes_textAll readable.spelled Token.apart_nil lexes_nil
  rw [List.append_nil, List.append_nil] at lexes
  obtain ⟨located, hscan, htokens⟩ := lexes 0
  exact bind_eq_ok_iff.mpr ⟨located, hscan, ofTokens_eq_ok htokens readable⟩

theorem readable_of_readAll {source : String} (ok : readAll source = .ok forms) :
    Readable forms := by
  obtain ⟨located, hscan, ok⟩ := bind_eq_ok_iff.mp ok
  exact readable_of_ofTokens (Token.lexical_of_scan hscan) ok

/-- Writing and reading are inverse: forms are read back from their text if they can
be spelled and are not nested too deep, and every text that can be read gives such
forms. -/
theorem text_read_inverse :
    (∀ forms, Readable forms → readAll (textAll forms) = .ok forms) ∧
    ∀ source forms, readAll source = .ok forms →
      Readable forms ∧ readAll (textAll forms) = .ok forms := by
  refine ⟨fun forms readable => readAll_textAll readable, ?_⟩
  intro source forms ok
  have readable := readable_of_readAll ok
  exact ⟨readable, readAll_textAll readable⟩

/-- Brackets of two kinds, a truth value in its long spelling, zeros in front of a
number, and symbols that start with `-` and with `#%`. -/
theorem text_read_inverse_brackets :
    readAll "[#%app -x #true 007 {}]" =
      .ok [.list [.symbol "#%app", .symbol "-x", .boolean true, .integer 7, .list []]] ∧
    readAll "(#%app -x #t 7 ())" =
      .ok [.list [.symbol "#%app", .symbol "-x", .boolean true, .integer 7, .list []]] := by
  have read : readAll "[#%app -x #true 007 {}]" =
      .ok [.list [.symbol "#%app", .symbol "-x", .boolean true, .integer 7, .list []]] := rfl
  obtain ⟨readable, -⟩ := text_read_inverse.2 _ _ read
  have again := text_read_inverse.1 _ readable
  exact ⟨read, again⟩

end CoreLisp.Form
