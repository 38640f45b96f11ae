import CoreLisp.Token.Basic

/-!
# Forms

A form is what the reader makes of the tokens: a symbol, a literal, or a list
of forms. Which bracket surrounded a list is not kept. The text of a form is
canonical: round brackets, one blank between neighbours, the short spelling of
truth values.
-/
namespace CoreLisp

inductive Form where
  | symbol (name : Name)
  | integer (value : Int)
  | boolean (value : Bool)
  | undefined
  | list (items : List Form)
deriving Repr

namespace Form

mutual

def text : Form → String
  | symbol name => name
  | integer value => value.repr
  | boolean true => "#t"
  | boolean false => "#f"
  | undefined => "#undefined"
  | list items => "(" ++ " ".intercalate (texts items) ++ ")"

def texts : List Form → List String
  | [] => []
  | form :: forms => text form :: texts forms

end

@[simp] theorem texts_eq_map (forms : List Form) : texts forms = forms.map text := by
  induction forms with
  | nil => rfl
  | cons form forms ih => simp [texts, ih]

/-- Several forms, one after the other with a blank between neighbours. -/
def textAll (forms : List Form) : String := " ".intercalate (forms.map text)

mutual

/-- How many lists surround the innermost part of a form. -/
def nesting : Form → Nat
  | list items => nestingAll items + 1
  | _ => 0

def nestingAll : List Form → Nat
  | [] => 0
  | form :: forms => max (nesting form) (nestingAll forms)

end

mutual

def decEq : (a b : Form) → Decidable (a = b)
  | symbol x, symbol y => decidable_of_iff (x = y) (by simp)
  | integer x, integer y => decidable_of_iff (x = y) (by simp)
  | boolean x, boolean y => decidable_of_iff (x = y) (by simp)
  | undefined, undefined => isTrue rfl
  | list xs, list ys =>
      match decEqAll xs ys with
      | isTrue h => isTrue (by rw [h])
      | isFalse h => isFalse (by simpa using h)
  | symbol _, integer _ | symbol _, boolean _ | symbol _, undefined | symbol _, list _
  | integer _, symbol _ | integer _, boolean _ | integer _, undefined | integer _, list _
  | boolean _, symbol _ | boolean _, integer _ | boolean _, undefined | boolean _, list _
  | undefined, symbol _ | undefined, integer _ | undefined, boolean _ | undefined, list _
  | list _, symbol _ | list _, integer _ | list _, boolean _ | list _, undefined =>
      isFalse (by simp)

def decEqAll : (xs ys : List Form) → Decidable (xs = ys)
  | [], [] => isTrue rfl
  | x :: xs, y :: ys =>
      match decEq x y, decEqAll xs ys with
      | isTrue h, isTrue hs => isTrue (by rw [h, hs])
      | isFalse h, _ => isFalse (by simp [h])
      | _, isFalse hs => isFalse (by simp [hs])
  | [], _ :: _ | _ :: _, [] => isFalse (by simp)

end

instance : DecidableEq Form := decEq

end Form

end CoreLisp
