import CoreLisp.Proofs.Heap.Parallel
import CoreLisp.Proofs.Primitive.Standard

/-!
# The standard primitives on two sides

A standard primitive does with matching arguments the same on both sides. It cannot see
what differs: of a procedure it looks at nothing but its number, and two numbers are
equal when their counterparts are. Only the text of a refused argument may differ.
-/
namespace CoreLisp

open CoreLisp.Action

variable {c : Change} {w : Sides} {v v' x x' y y' : Value} {name : Name} {args args' : List Value}
variable {b : Builtin}

namespace Builtin

theorem parallel_integerArg (hv : v.Matches c w v') :
    Parallel c w (fun _ n n' => n' = n) (b.integerArg v) (b.integerArg v') := by
  have refused := hv.errors b.name "expected an integer, got "
  cases hv with
  | integer n => exact parallel_pure rfl
  | _ => exact parallel_throw refused

theorem parallel_boxArg (hv : v.Matches c w v') :
    Parallel c w (fun _ ref ref' => ref' = ref) (b.boxArg v) (b.boxArg v') := by
  have refused := hv.errors b.name "expected a box, got "
  cases hv with
  | box ref => exact parallel_pure rfl
  | _ => exact parallel_throw refused

theorem parallel_checked {n : Int} {e : EvalError} :
    Parallel c w (Value.Matches c)
      (match Fixnum.checked n with
        | some r => pure (.integer r)
        | none => throw e)
      (match Fixnum.checked n with
        | some r => pure (.integer r)
        | none => throw e) := by
  cases Fixnum.checked n with
  | none => exact parallel_throw (.refl c e)
  | some r => exact parallel_pure (.integer r)

theorem parallel_arithmetic₁ {f : Int → Int} (hx : x.Matches c w x') :
    Parallel c w (Value.Matches c) (b.arithmetic₁ f x) (b.arithmetic₁ f x') :=
  (parallel_integerArg hx).bind_eq fun _ _ _ => parallel_checked

theorem parallel_arithmetic₂ {f : Int → Int → Int} (hx : x.Matches c w x')
    (hy : y.Matches c w y') :
    Parallel c w (Value.Matches c) (b.arithmetic₂ f x y) (b.arithmetic₂ f x' y') :=
  (parallel_integerArg hx).bind_eq fun _ _ grows =>
    (parallel_integerArg (hy.mono grows)).bind_eq fun _ _ _ => parallel_checked

theorem matches_one (hargs : List.Forall₂ (Value.Matches c w) args args')
    (hlen : args.length = 1) :
    ∃ x x', args = [x] ∧ args' = [x'] ∧ x.Matches c w x' := by
  obtain ⟨x, rfl⟩ := List.length_eq_one_iff.mp hlen
  obtain ⟨x', rfl⟩ := List.length_eq_one_iff.mp (hargs.length_eq.symm.trans hlen)
  exact ⟨x, x', rfl, rfl, (List.forall₂_cons.mp hargs).1⟩

theorem matches_two (hargs : List.Forall₂ (Value.Matches c w) args args')
    (hlen : args.length = 2) :
    ∃ x y x' y', args = [x, y] ∧ args' = [x', y'] ∧ x.Matches c w x' ∧ y.Matches c w y' := by
  obtain ⟨x, y, rfl⟩ := List.length_eq_two.mp hlen
  obtain ⟨x', y', rfl⟩ := List.length_eq_two.mp (hargs.length_eq.symm.trans hlen)
  obtain ⟨hx, rest⟩ := List.forall₂_cons.mp hargs
  exact ⟨x, y, x', y', rfl, rfl, hx, (List.forall₂_cons.mp rest).1⟩

theorem parallel_run (hargs : List.Forall₂ (Value.Matches c w) args args') :
    Parallel c w (Value.Matches c) (b.run args) (b.run args') := by
  by_cases hlen : args.length = b.arity
  · cases b with
    | void =>
        obtain rfl := List.length_eq_zero_iff.mp hlen
        cases hargs
        exact parallel_pure .unit
    | box =>
        obtain ⟨v, v', rfl, rfl, hv⟩ := matches_one hargs hlen
        exact (BoxRef.parallel_new hv).bind_eq fun _ ref _ => parallel_pure (.box ref)
    | setBox =>
        obtain ⟨x, v, x', v', rfl, rfl, hx, hv⟩ := matches_two hargs hlen
        exact (parallel_boxArg hx).bind_eq fun _ _ grows =>
          (BoxRef.parallel_set (hv.mono grows)).bind fun _ _ _ _ _ => parallel_pure .unit
    | unbox =>
        obtain ⟨x, x', rfl, rfl, hx⟩ := matches_one hargs hlen
        refine (parallel_boxArg hx).bind_eq fun _ _ _ => ?_
        refine BoxRef.parallel_get.bind fun _ v v' _ hv => ?_
        cases hv with
        | undefined => exact parallel_throw (.refl c _)
        | procedure number env params body =>
            exact parallel_pure (.procedure number env params body)
        | _ => exact parallel_pure (by constructor)
    | isZero =>
        obtain ⟨x, x', rfl, rfl, hx⟩ := matches_one hargs hlen
        exact (parallel_integerArg hx).bind_eq fun _ n _ => parallel_pure (.boolean (n == 0))
    | isEqual =>
        obtain ⟨x, y, x', y', rfl, rfl, hx, hy⟩ := matches_two hargs hlen
        simp only [run, hx.same hy]
        exact parallel_pure (.boolean _)
    | isLess =>
        obtain ⟨x, y, x', y', rfl, rfl, hx, hy⟩ := matches_two hargs hlen
        refine (parallel_integerArg hx).bind_eq fun _ n grows => ?_
        refine (parallel_integerArg (hy.mono grows)).bind_eq fun _ m _ => ?_
        exact parallel_pure (.boolean (n < m))
    | not =>
        obtain ⟨x, x', rfl, rfl, hx⟩ := matches_one hargs hlen
        simp only [run, hx.isTruthy]
        exact parallel_pure (.boolean _)
    | plus | minus | mult =>
        obtain ⟨x, y, x', y', rfl, rfl, hx, hy⟩ := matches_two hargs hlen
        exact parallel_arithmetic₂ hx hy
    | add1 | sub1 =>
        obtain ⟨x, x', rfl, rfl, hx⟩ := matches_one hargs hlen
        exact parallel_arithmetic₁ hx
  · intro _
    rw [run_of_length_ne hlen, run_of_length_ne (hargs.length_eq ▸ hlen), hargs.length_eq]
    exact .error _ _ (.refl c _)

end Builtin

theorem Table.parallel_standard (hargs : List.Forall₂ (Value.Matches c w) args args') :
    Parallel c w (Value.Matches c) (standard.apply name args) (standard.apply name args') := by
  unfold apply
  rw [hargs.length_eq]
  cases hp : standard.get? name with
  | none => exact parallel_throw (.refl c _)
  | some p =>
      obtain ⟨b, -, rfl⟩ := get?_standard_eq_some_iff.mp hp
      by_cases hlen : args'.length = b.primitive.arity
      · simp only [if_pos hlen]
        exact Builtin.parallel_run hargs
      · simp only [if_neg hlen]
        exact parallel_throw (.refl c _)

end CoreLisp
