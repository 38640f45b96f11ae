import CoreLisp.Proofs.Heap.Relocate
import CoreLisp.Proofs.Primitive.Standard

/-!
# Relocation of the standard primitives

A standard primitive does behind another heap what it does alone. It looks at
numbers and truth values, which do not move, at boxes, which keep their contents,
and at whether two values are the same. What it says about an argument that it
refuses does not depend on a place either.
-/
namespace CoreLisp

open CoreLisp.Action

variable {site : Site} {v x y : Value} {name : Name} {args : List Value} {b : Builtin}

namespace Builtin

theorem relocates_integerArg :
    Relocates site id (b.integerArg v) (b.integerArg (v.relocate site)) := by
  cases v <;> exact fun _ rooted => ⟨rfl, rooted⟩

theorem relocates_boxArg :
    Relocates site (site.front.boxes.size + ·) (b.boxArg v) (b.boxArg (v.relocate site)) := by
  cases v <;> exact fun _ rooted => ⟨rfl, rooted⟩

theorem relocates_checked {n : Int} {e : EvalError} :
    Relocates site (Value.relocate site)
      (match Fixnum.checked n with
        | some r => pure (.integer r)
        | none => throw e)
      (match Fixnum.checked n with
        | some r => pure (.integer r)
        | none => throw e) := by
  cases Fixnum.checked n <;> exact fun _ rooted => ⟨rfl, rooted⟩

theorem relocates_arithmetic₁ {f : Int → Int} :
    Relocates site (Value.relocate site) (b.arithmetic₁ f x) (b.arithmetic₁ f (x.relocate site)) :=
  relocates_integerArg.bind fun _ => relocates_checked

theorem relocates_arithmetic₂ {f : Int → Int → Int} :
    Relocates site (Value.relocate site) (b.arithmetic₂ f x y)
      (b.arithmetic₂ f (x.relocate site) (y.relocate site)) :=
  relocates_integerArg.bind fun _ => relocates_integerArg.bind fun _ => relocates_checked

theorem relocates_run : Relocates site (Value.relocate site) (b.run args)
    (b.run (args.map (Value.relocate site))) := by
  by_cases hlen : args.length = b.arity
  · cases b with
    | void =>
        obtain rfl := List.length_eq_zero_iff.mp hlen
        exact relocates_pure _
    | box =>
        obtain ⟨v, rfl⟩ := List.length_eq_one_iff.mp hlen
        exact BoxRef.relocates_new.bind fun ref => relocates_pure (Value.box ref)
    | setBox =>
        obtain ⟨x, v, rfl⟩ := List.length_eq_two.mp hlen
        exact relocates_boxArg.bind fun _ => BoxRef.relocates_set.bind fun _ =>
          relocates_pure Value.unit
    | unbox =>
        obtain ⟨x, rfl⟩ := List.length_eq_one_iff.mp hlen
        refine relocates_boxArg.bind fun _ => BoxRef.relocates_get.bind fun v => ?_
        cases v with
        | undefined => exact relocates_throw .undefinedAccess
        | _ => exact relocates_pure _
    | isZero =>
        obtain ⟨x, rfl⟩ := List.length_eq_one_iff.mp hlen
        exact relocates_integerArg.bind fun n => relocates_pure (Value.boolean (n == 0))
    | isEqual =>
        obtain ⟨x, y, rfl⟩ := List.length_eq_two.mp hlen
        intro h rooted
        simp only [List.map_cons, List.map_nil, run, Value.same_relocate]
        exact ⟨rfl, rooted⟩
    | isLess =>
        obtain ⟨x, y, rfl⟩ := List.length_eq_two.mp hlen
        exact relocates_integerArg.bind fun n => relocates_integerArg.bind fun m =>
          relocates_pure (Value.boolean (n < m))
    | not =>
        obtain ⟨x, rfl⟩ := List.length_eq_one_iff.mp hlen
        intro h rooted
        simp only [List.map_cons, List.map_nil, run, Value.isTruthy_relocate]
        exact ⟨rfl, rooted⟩
    | plus | minus | mult =>
        obtain ⟨x, y, rfl⟩ := List.length_eq_two.mp hlen
        exact relocates_arithmetic₂
    | add1 | sub1 =>
        obtain ⟨x, rfl⟩ := List.length_eq_one_iff.mp hlen
        exact relocates_arithmetic₁
  · intro h rooted
    rw [run_of_length_ne hlen, run_of_length_ne (by simpa using hlen), List.length_map]
    exact ⟨rfl, rooted⟩

end Builtin

theorem Table.relocates_standard : Relocates site (Value.relocate site) (standard.apply name args)
    (standard.apply name (args.map (Value.relocate site))) := by
  unfold apply
  rw [List.length_map]
  cases hp : standard.get? name with
  | none => exact relocates_throw _
  | some p =>
      obtain ⟨b, -, rfl⟩ := get?_standard_eq_some_iff.mp hp
      by_cases hlen : args.length = b.primitive.arity
      · simp only [if_pos hlen]
        exact Builtin.relocates_run
      · simp only [if_neg hlen]
        exact relocates_throw _

end CoreLisp
