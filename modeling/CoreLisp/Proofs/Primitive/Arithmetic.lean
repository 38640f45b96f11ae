import CoreLisp.Proofs.Primitive.Standard

/-!
# Exact arithmetic

Five of the standard primitives calculate. What they work out is a number of
mathematics first, and it is their result if it is in range; a number out of range is a
complaint and never another number. Arguments are looked at from the left, and the first
one that is no integer is reported.
-/
namespace CoreLisp

def Value.isInteger : Value → Bool
  | .integer _ => true
  | _ => false

namespace Builtin

/-- The primitive calculates with integers. -/
def Calculates (b : Builtin) : Prop := b ∈ [plus, minus, mult, add1, sub1]

instance : DecidablePred Calculates :=
  fun b => inferInstanceAs (Decidable (b ∈ [plus, minus, mult, add1, sub1]))

/-- The exact result of a calculation, where the primitive makes one with so many
integers. -/
def exactResult : Builtin → List Int → Option Int
  | plus, [n, m] => some (n + m)
  | minus, [n, m] => some (n - m)
  | mult, [n, m] => some (n * m)
  | add1, [n] => some (n + 1)
  | sub1, [n] => some (n - 1)
  | _, _ => none

/-- The reason for refusing a calculation whose result is out of range. Where there are
two operands it names them. -/
def overflow : List Int → String
  | [n, m] => "integer overflow on " ++ n.repr ++ " and " ++ m.repr
  | _ => "integer overflow"

/-- The reason for refusing a calculation with something else than an integer. -/
def notInteger (v : Value) : String := "expected an integer, got " ++ v.description

variable {b : Builtin} {x y v : Value} {args : List Value} {h : Heap} {n m r : Int}
variable {ns : List Int}

theorem integerArg_of_not_integer (hv : v.isInteger = false) :
    b.integerArg v h = .error (.primitive b.name (notInteger v)) h := by
  cases v with
  | integer n => cases hv
  | _ => rfl

theorem arithmetic₁_integer (f : Int → Int) :
    b.arithmetic₁ f (.integer n) h =
      if Fixnum.InRange (f n) then .ok (.integer (f n)) h
      else .error (.primitive b.name (overflow [n])) h := by
  by_cases inRange : Fixnum.InRange (f n)
  · rw [if_pos inRange]
    exact arithmetic₁_eq_ok_iff.mpr ⟨n, rfl, inRange, rfl, rfl⟩
  · have none := Fixnum.checked_eq_none_iff.mpr inRange
    rw [if_neg inRange]
    refine Action.bind_eq_error_iff.mpr (.inr ⟨n, h, rfl, ?_⟩)
    rw [none]
    rfl

theorem arithmetic₂_integer (f : Int → Int → Int) :
    b.arithmetic₂ f (.integer n) (.integer m) h =
      if Fixnum.InRange (f n m) then .ok (.integer (f n m)) h
      else .error (.primitive b.name (overflow [n, m])) h := by
  by_cases inRange : Fixnum.InRange (f n m)
  · rw [if_pos inRange]
    exact arithmetic₂_eq_ok_iff.mpr ⟨n, m, rfl, rfl, inRange, rfl, rfl⟩
  · have none := Fixnum.checked_eq_none_iff.mpr inRange
    rw [if_neg inRange]
    refine Action.bind_eq_error_iff.mpr (.inr ⟨n, h, rfl, ?_⟩)
    refine Action.bind_eq_error_iff.mpr (.inr ⟨m, h, rfl, ?_⟩)
    rw [none]
    rfl

theorem arithmetic₁_of_find? (f : Int → Int) (found : [x].find? (!·.isInteger) = some v) :
    b.arithmetic₁ f x h = .error (.primitive b.name (notInteger v)) h := by
  cases hx : x.isInteger with
  | false =>
      obtain rfl : x = v := by simpa [hx] using found
      exact Action.bind_eq_error_iff.mpr (.inl (integerArg_of_not_integer hx))
  | true => simp [hx] at found

theorem arithmetic₂_of_find? (f : Int → Int → Int)
    (found : [x, y].find? (!·.isInteger) = some v) :
    b.arithmetic₂ f x y h = .error (.primitive b.name (notInteger v)) h := by
  cases hx : x.isInteger with
  | false =>
      obtain rfl : x = v := by simpa [hx] using found
      exact Action.bind_eq_error_iff.mpr (.inl (integerArg_of_not_integer hx))
  | true =>
      cases x with
      | integer n =>
          cases hy : y.isInteger with
          | false =>
              obtain rfl : y = v := by simpa [hx, hy] using found
              refine Action.bind_eq_error_iff.mpr (.inr ⟨n, h, rfl, ?_⟩)
              exact Action.bind_eq_error_iff.mpr (.inl (integerArg_of_not_integer hy))
          | true => simp [hx, hy] at found
      | _ => cases hx

theorem run_integers (hr : b.exactResult ns = some r) :
    b.run (ns.map .integer) h =
      if Fixnum.InRange r then .ok (.integer r) h
      else .error (.primitive b.name (overflow ns)) h := by
  unfold exactResult at hr
  split at hr
  · cases hr
    exact arithmetic₂_integer (· + ·)
  · cases hr
    exact arithmetic₂_integer (· - ·)
  · cases hr
    exact arithmetic₂_integer (· * ·)
  · cases hr
    exact arithmetic₁_integer (· + 1)
  · cases hr
    exact arithmetic₁_integer (· - 1)
  · cases hr

theorem run_of_find? (calculates : b.Calculates) (hlen : args.length = b.arity)
    (found : args.find? (!·.isInteger) = some v) :
    b.run args h = .error (.primitive b.name (notInteger v)) h := by
  simp only [Calculates, List.mem_cons, List.not_mem_nil, or_false] at calculates
  rcases calculates with rfl | rfl | rfl | rfl | rfl
  · obtain ⟨x, y, rfl⟩ := List.length_eq_two.mp hlen
    exact arithmetic₂_of_find? (· + ·) found
  · obtain ⟨x, y, rfl⟩ := List.length_eq_two.mp hlen
    exact arithmetic₂_of_find? (· - ·) found
  · obtain ⟨x, y, rfl⟩ := List.length_eq_two.mp hlen
    exact arithmetic₂_of_find? (· * ·) found
  · obtain ⟨x, rfl⟩ := List.length_eq_one_iff.mp hlen
    exact arithmetic₁_of_find? (· + 1) found
  · obtain ⟨x, rfl⟩ := List.length_eq_one_iff.mp hlen
    exact arithmetic₁_of_find? (· - 1) found

/-- A calculation takes as many integers as the primitive has arguments. -/
theorem length_of_exactResult (hr : b.exactResult ns = some r) : ns.length = b.arity := by
  unfold exactResult at hr
  split at hr <;> first | rfl | cases hr

end Builtin

/-- The table calls a standard primitive with the right number of arguments. -/
theorem Table.apply_standard_of_length {b : Builtin} {args : List Value} {h : Heap}
    (hlen : args.length = b.arity) : standard.apply b.name args h = b.run args h := by
  have found := get?_standard_eq_some_iff.mpr ⟨b, rfl, rfl⟩
  simp only [apply, found]
  exact congrFun (if_pos hlen) h

end CoreLisp
