/-!
# The integers of the language

The integers that a program computes with are the signed 64-bit ones. They are
represented by mathematical integers, and the operations that could leave the
range ask first whether the exact result is in it.
-/
namespace CoreLisp.Fixnum

/-- The least number in range, `-2 ^ 63`. -/
def least : Int := -0x8000000000000000

/-- The greatest number in range, `2 ^ 63 - 1`. -/
def greatest : Int := 0x7fffffffffffffff

def InRange (n : Int) : Prop := least ≤ n ∧ n ≤ greatest

instance : DecidablePred InRange := fun n => inferInstanceAs (Decidable (least ≤ n ∧ n ≤ greatest))

/-- An exact result, unless it is out of range. -/
def checked (n : Int) : Option Int := if InRange n then some n else none

theorem checked_eq_some_iff {n m : Int} : checked n = some m ↔ InRange n ∧ n = m := by
  unfold checked
  split <;> simp_all

theorem checked_eq_none_iff {n : Int} : checked n = none ↔ ¬ InRange n := by
  unfold checked
  split <;> simp_all

end CoreLisp.Fixnum
