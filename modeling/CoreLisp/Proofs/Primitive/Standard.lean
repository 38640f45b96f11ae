import Mathlib.Data.List.Basic
import CoreLisp.Primitive.Standard
import CoreLisp.Proofs.Heap.Operations

/-!
# What the standard primitives do

`Applied` lists the calls of standard primitives that give a value, with that
value and the heap. Only boxes touch the heap. All other calls are refused, and
a refused call leaves the heap alone.
-/
namespace CoreLisp

namespace Builtin

variable {b : Builtin} {v x y w : Value} {args : List Value} {h h' : Heap} {e : EvalError}

/-- The call gives the value and turns the first heap into the second. -/
inductive Applied : Builtin → List Value → Heap → Value → Heap → Prop
  | box {v : Value} {h : Heap} : Applied .box [v] h (.box h.boxes.size) (h.addBox v)
  | setBox {ref : BoxRef} {v : Value} {h : Heap} :
      Applied .setBox [.box ref, v] h .unit (h.setBox ref v)
  | unbox {ref : BoxRef} {v : Value} {h : Heap} : h.contents ref = v → v ≠ .undefined →
      Applied .unbox [.box ref] h v h
  | isZero {n : Int} {h : Heap} : Applied .isZero [.integer n] h (.boolean (n == 0)) h
  | isEqual {x y : Value} {h : Heap} : Applied .isEqual [x, y] h (.boolean (x.same y)) h
  | isLess {n m : Int} {h : Heap} :
      Applied .isLess [.integer n, .integer m] h (.boolean (n < m)) h
  | not {x : Value} {h : Heap} : Applied .not [x] h (.boolean (!x.isTruthy)) h
  | plus {n m : Int} {h : Heap} : Fixnum.InRange (n + m) →
      Applied .plus [.integer n, .integer m] h (.integer (n + m)) h
  | minus {n m : Int} {h : Heap} : Fixnum.InRange (n - m) →
      Applied .minus [.integer n, .integer m] h (.integer (n - m)) h
  | mult {n m : Int} {h : Heap} : Fixnum.InRange (n * m) →
      Applied .mult [.integer n, .integer m] h (.integer (n * m)) h
  | add1 {n : Int} {h : Heap} : Fixnum.InRange (n + 1) →
      Applied .add1 [.integer n] h (.integer (n + 1)) h
  | sub1 {n : Int} {h : Heap} : Fixnum.InRange (n - 1) →
      Applied .sub1 [.integer n] h (.integer (n - 1)) h
  | void {h : Heap} : Applied .void [] h .unit h

theorem integerArg_eq_ok_iff {n : Int} :
    b.integerArg v h = .ok n h' ↔ v = .integer n ∧ h' = h := by
  cases v <;> simp [integerArg, eq_comm]

theorem boxArg_eq_ok_iff {ref : BoxRef} :
    b.boxArg v h = .ok ref h' ↔ v = .box ref ∧ h' = h := by
  cases v <;> simp [boxArg, eq_comm]

theorem checked_eq_ok_iff {n : Int} :
    (match Fixnum.checked n with
      | some r => pure (.integer r)
      | none => throw e : Action Value) h = .ok w h' ↔
      Fixnum.InRange n ∧ w = .integer n ∧ h' = h := by
  unfold Fixnum.checked
  split <;> simp_all [eq_comm]

theorem arithmetic₁_eq_ok_iff {f : Int → Int} :
    b.arithmetic₁ f x h = .ok w h' ↔
      ∃ n, x = .integer n ∧ Fixnum.InRange (f n) ∧ w = .integer (f n) ∧ h' = h := by
  unfold arithmetic₁
  constructor
  · intro ok
    obtain ⟨n, h₁, hn, done⟩ := Action.bind_eq_ok_iff.mp ok
    obtain ⟨rfl, rfl⟩ := integerArg_eq_ok_iff.mp hn
    exact ⟨n, rfl, checked_eq_ok_iff.mp done⟩
  · intro applied
    obtain ⟨n, rfl, done⟩ := applied
    refine Action.bind_eq_ok_iff.mpr ⟨n, h, integerArg_eq_ok_iff.mpr ⟨rfl, rfl⟩, ?_⟩
    exact checked_eq_ok_iff.mpr done

theorem arithmetic₂_eq_ok_iff {f : Int → Int → Int} :
    b.arithmetic₂ f x y h = .ok w h' ↔
      ∃ n m, x = .integer n ∧ y = .integer m ∧ Fixnum.InRange (f n m) ∧
        w = .integer (f n m) ∧ h' = h := by
  unfold arithmetic₂
  constructor
  · intro ok
    obtain ⟨n, h₁, hn, rest⟩ := Action.bind_eq_ok_iff.mp ok
    obtain ⟨rfl, rfl⟩ := integerArg_eq_ok_iff.mp hn
    obtain ⟨m, h₂, hm, done⟩ := Action.bind_eq_ok_iff.mp rest
    obtain ⟨rfl, rfl⟩ := integerArg_eq_ok_iff.mp hm
    exact ⟨n, m, rfl, rfl, checked_eq_ok_iff.mp done⟩
  · intro applied
    obtain ⟨n, m, rfl, rfl, done⟩ := applied
    refine Action.bind_eq_ok_iff.mpr ⟨n, h, integerArg_eq_ok_iff.mpr ⟨rfl, rfl⟩, ?_⟩
    refine Action.bind_eq_ok_iff.mpr ⟨m, h, integerArg_eq_ok_iff.mpr ⟨rfl, rfl⟩, ?_⟩
    exact checked_eq_ok_iff.mpr done

theorem run_of_length_ne (hlen : args.length ≠ b.arity) :
    b.run args h = .error (.arity b.arity args.length) h := by
  unfold run
  split
  all_goals first
    | exact absurd rfl hlen
    | rfl

theorem length_of_run (ok : b.run args h = .ok v h') : args.length = b.arity := by
  refine Decidable.byContradiction fun hlen => ?_
  rw [run_of_length_ne hlen] at ok
  cases ok

theorem applied_of_run (ok : b.run args h = .ok v h') : Applied b args h v h' := by
  have hlen := length_of_run ok
  cases b with
  | box =>
      obtain ⟨x, rfl⟩ := List.length_eq_one_iff.mp hlen
      cases ok
      exact .box
  | setBox =>
      obtain ⟨x, y, rfl⟩ := List.length_eq_two.mp hlen
      obtain ⟨ref, h₁, href, done⟩ := Action.bind_eq_ok_iff.mp ok
      obtain ⟨rfl, rfl⟩ := boxArg_eq_ok_iff.mp href
      cases done
      exact .setBox
  | unbox =>
      obtain ⟨x, rfl⟩ := List.length_eq_one_iff.mp hlen
      obtain ⟨ref, h₁, href, rest⟩ := Action.bind_eq_ok_iff.mp ok
      obtain ⟨rfl, rfl⟩ := boxArg_eq_ok_iff.mp href
      obtain ⟨w, h₂, hget, done⟩ := Action.bind_eq_ok_iff.mp rest
      obtain ⟨hw, rfl⟩ := BoxRef.get_eq_ok_iff.mp hget
      cases w with
      | undefined => cases done
      | _ =>
          cases done
          exact .unbox hw nofun
  | isZero =>
      obtain ⟨x, rfl⟩ := List.length_eq_one_iff.mp hlen
      obtain ⟨n, h₁, hn, done⟩ := Action.bind_eq_ok_iff.mp ok
      obtain ⟨rfl, rfl⟩ := integerArg_eq_ok_iff.mp hn
      cases done
      exact .isZero
  | isEqual =>
      obtain ⟨x, y, rfl⟩ := List.length_eq_two.mp hlen
      cases ok
      exact .isEqual
  | isLess =>
      obtain ⟨x, y, rfl⟩ := List.length_eq_two.mp hlen
      obtain ⟨n, h₁, hn, rest⟩ := Action.bind_eq_ok_iff.mp ok
      obtain ⟨rfl, rfl⟩ := integerArg_eq_ok_iff.mp hn
      obtain ⟨m, h₂, hm, done⟩ := Action.bind_eq_ok_iff.mp rest
      obtain ⟨rfl, rfl⟩ := integerArg_eq_ok_iff.mp hm
      cases done
      exact .isLess
  | not =>
      obtain ⟨x, rfl⟩ := List.length_eq_one_iff.mp hlen
      cases ok
      exact .not
  | plus =>
      obtain ⟨x, y, rfl⟩ := List.length_eq_two.mp hlen
      obtain ⟨n, m, rfl, rfl, inRange, rfl, rfl⟩ := arithmetic₂_eq_ok_iff.mp ok
      exact .plus inRange
  | minus =>
      obtain ⟨x, y, rfl⟩ := List.length_eq_two.mp hlen
      obtain ⟨n, m, rfl, rfl, inRange, rfl, rfl⟩ := arithmetic₂_eq_ok_iff.mp ok
      exact .minus inRange
  | mult =>
      obtain ⟨x, y, rfl⟩ := List.length_eq_two.mp hlen
      obtain ⟨n, m, rfl, rfl, inRange, rfl, rfl⟩ := arithmetic₂_eq_ok_iff.mp ok
      exact .mult inRange
  | add1 =>
      obtain ⟨x, rfl⟩ := List.length_eq_one_iff.mp hlen
      obtain ⟨n, rfl, inRange, rfl, rfl⟩ := arithmetic₁_eq_ok_iff.mp ok
      exact .add1 inRange
  | sub1 =>
      obtain ⟨x, rfl⟩ := List.length_eq_one_iff.mp hlen
      obtain ⟨n, rfl, inRange, rfl, rfl⟩ := arithmetic₁_eq_ok_iff.mp ok
      exact .sub1 inRange
  | void =>
      obtain rfl := List.length_eq_zero_iff.mp hlen
      cases ok
      exact .void

theorem run_eq_ok_iff : b.run args h = .ok v h' ↔ Applied b args h v h' := by
  constructor
  · exact applied_of_run
  · intro applied
    cases applied with
    | box | setBox | isZero | isEqual | isLess | not | void => rfl
    | unbox hv defined =>
        refine Action.bind_eq_ok_iff.mpr ⟨_, h, rfl, Action.bind_eq_ok_iff.mpr ⟨v, h, ?_, ?_⟩⟩
        · rw [← hv]
          rfl
        · cases v with
          | undefined => exact absurd rfl defined
          | _ => rfl
    | plus inRange | minus inRange | mult inRange =>
        exact arithmetic₂_eq_ok_iff.mpr ⟨_, _, rfl, rfl, inRange, rfl, rfl⟩
    | add1 inRange | sub1 inRange =>
        exact arithmetic₁_eq_ok_iff.mpr ⟨_, rfl, inRange, rfl, rfl⟩

/-- Why a primitive refuses a call: the number of the arguments, a box without a
value, or a reason of its own. -/
inductive Refusal (b : Builtin) (args : List Value) (h : Heap) : EvalError → Prop
  | arity {n m : Nat} : Refusal b args h (.arity n m)
  | undefined {ref : BoxRef} : args = [.box ref] → h.contents ref = .undefined →
      Refusal b args h .undefinedAccess
  | reason {text : String} : Refusal b args h (.primitive b.name text)

theorem integerArg_error (fail : b.integerArg v h = .error e h') : h' = h ∧ Refusal b args h e := by
  cases v with
  | integer n => cases fail
  | _ =>
      cases fail
      exact ⟨rfl, .reason⟩

theorem boxArg_error (fail : b.boxArg v h = .error e h') : h' = h ∧ Refusal b args h e := by
  cases v with
  | box ref => cases fail
  | _ =>
      cases fail
      exact ⟨rfl, .reason⟩

theorem checked_error {n : Int} {text : String}
    (fail : (match Fixnum.checked n with
      | some r => pure (.integer r)
      | none => throw (.primitive b.name text) : Action Value) h = .error e h') :
    h' = h ∧ Refusal b args h e := by
  cases hr : Fixnum.checked n with
  | some r =>
      rw [hr] at fail
      cases fail
  | none =>
      rw [hr] at fail
      cases fail
      exact ⟨rfl, .reason⟩

theorem arithmetic₁_error {f : Int → Int} (fail : b.arithmetic₁ f x h = .error e h') :
    h' = h ∧ Refusal b args h e := by
  rcases Action.bind_eq_error_iff.mp fail with first | ⟨n, h₁, hn, rest⟩
  · exact integerArg_error first
  · obtain ⟨rfl, rfl⟩ := integerArg_eq_ok_iff.mp hn
    exact checked_error rest

theorem arithmetic₂_error {f : Int → Int → Int} (fail : b.arithmetic₂ f x y h = .error e h') :
    h' = h ∧ Refusal b args h e := by
  rcases Action.bind_eq_error_iff.mp fail with first | ⟨n, h₁, hn, rest⟩
  · exact integerArg_error first
  · obtain ⟨rfl, rfl⟩ := integerArg_eq_ok_iff.mp hn
    rcases Action.bind_eq_error_iff.mp rest with second | ⟨m, h₂, hm, rest⟩
    · exact integerArg_error second
    · obtain ⟨rfl, rfl⟩ := integerArg_eq_ok_iff.mp hm
      exact checked_error rest

theorem run_error (fail : b.run args h = .error e h') : h' = h ∧ Refusal b args h e := by
  by_cases hlen : args.length = b.arity
  · cases b with
    | void =>
        obtain rfl := List.length_eq_zero_iff.mp hlen
        cases fail
    | box | not =>
        obtain ⟨x, rfl⟩ := List.length_eq_one_iff.mp hlen
        cases fail
    | isEqual =>
        obtain ⟨x, y, rfl⟩ := List.length_eq_two.mp hlen
        cases fail
    | setBox =>
        obtain ⟨x, y, rfl⟩ := List.length_eq_two.mp hlen
        rcases Action.bind_eq_error_iff.mp fail with first | ⟨ref, h₁, href, rest⟩
        · exact boxArg_error first
        · cases rest
    | unbox =>
        obtain ⟨x, rfl⟩ := List.length_eq_one_iff.mp hlen
        rcases Action.bind_eq_error_iff.mp fail with first | ⟨ref, h₁, href, rest⟩
        · exact boxArg_error first
        · obtain ⟨rfl, rfl⟩ := boxArg_eq_ok_iff.mp href
          rcases Action.bind_eq_error_iff.mp rest with second | ⟨w, h₂, hget, last⟩
          · cases second
          · cases w with
            | undefined =>
                obtain ⟨hcontents, rfl⟩ := BoxRef.get_eq_ok_iff.mp hget
                cases last
                exact ⟨rfl, .undefined rfl hcontents⟩
            | _ => cases last
    | isZero =>
        obtain ⟨x, rfl⟩ := List.length_eq_one_iff.mp hlen
        rcases Action.bind_eq_error_iff.mp fail with first | ⟨n, h₁, hn, rest⟩
        · exact integerArg_error first
        · cases rest
    | isLess =>
        obtain ⟨x, y, rfl⟩ := List.length_eq_two.mp hlen
        rcases Action.bind_eq_error_iff.mp fail with first | ⟨n, h₁, hn, rest⟩
        · exact integerArg_error first
        · obtain ⟨rfl, rfl⟩ := integerArg_eq_ok_iff.mp hn
          rcases Action.bind_eq_error_iff.mp rest with second | ⟨m, h₂, hm, last⟩
          · exact integerArg_error second
          · cases last
    | plus | minus | mult =>
        obtain ⟨x, y, rfl⟩ := List.length_eq_two.mp hlen
        exact arithmetic₂_error fail
    | add1 | sub1 =>
        obtain ⟨x, rfl⟩ := List.length_eq_one_iff.mp hlen
        exact arithmetic₁_error fail
  · rw [run_of_length_ne hlen] at fail
    cases fail
    exact ⟨rfl, .arity⟩

end Builtin

namespace Table

variable {t : Table} {name : Name} {args : List Value} {v : Value} {h h' : Heap} {e : EvalError}

/-- The table asks for the name and then for the number of arguments. -/
theorem apply_eq_ok_iff :
    t.apply name args h = .ok v h' ↔
      ∃ p, t.get? name = some p ∧ args.length = p.arity ∧ p.run args h = .ok v h' := by
  unfold apply
  cases hp : t.get? name with
  | none => simp
  | some p =>
      by_cases hlen : args.length = p.arity
      · simp [hlen]
      · simp [hlen]

theorem apply_eq_error_iff :
    t.apply name args h = .error e h' ↔
      (t.get? name = none ∧ e = .unknownPrimitive name ∧ h' = h) ∨
      ∃ p, t.get? name = some p ∧
        (args.length ≠ p.arity ∧ e = .arity p.arity args.length ∧ h' = h ∨
          args.length = p.arity ∧ p.run args h = .error e h') := by
  unfold apply
  cases hp : t.get? name with
  | none => simp [eq_comm]
  | some p =>
      by_cases hlen : args.length = p.arity
      · simp [hlen]
      · simp [hlen, @eq_comm _ e, @eq_comm _ h']

theorem get?_standard_eq_some_iff {p : Primitive} :
    standard.get? name = some p ↔ ∃ b : Builtin, b.name = name ∧ b.primitive = p := by
  constructor
  · intro found
    obtain ⟨before, after, hentries, -⟩ := List.lookup_eq_some_iff.mp found
    have mem : (name, p) ∈ standard.entries := by simp [hentries]
    obtain ⟨b, -, hb⟩ := List.mem_map.mp mem
    cases hb
    exact ⟨b, rfl, rfl⟩
  · intro hb
    obtain ⟨b, rfl, rfl⟩ := hb
    cases b <;> rfl

theorem apply_standard_eq_ok_iff :
    standard.apply name args h = .ok v h' ↔
      ∃ b : Builtin, b.name = name ∧ b.Applied args h v h' := by
  rw [apply_eq_ok_iff]
  constructor
  · intro ok
    obtain ⟨p, found, -, ok⟩ := ok
    obtain ⟨b, hname, rfl⟩ := get?_standard_eq_some_iff.mp found
    exact ⟨b, hname, Builtin.run_eq_ok_iff.mp ok⟩
  · intro applied
    obtain ⟨b, hname, applied⟩ := applied
    have ok := Builtin.run_eq_ok_iff.mpr applied
    exact ⟨b.primitive, get?_standard_eq_some_iff.mpr ⟨b, hname, rfl⟩, Builtin.length_of_run ok, ok⟩

theorem apply_standard_error (fail : standard.apply name args h = .error e h') :
    h' = h ∧ (e = .unknownPrimitive name ∨ ∃ b : Builtin, b.Refusal args h e) := by
  rcases apply_eq_error_iff.mp fail with ⟨-, he, hh⟩ | ⟨p, found, ⟨-, rfl, hh⟩ | ⟨-, fail⟩⟩
  · exact ⟨hh, .inl he⟩
  · obtain ⟨b, -, rfl⟩ := get?_standard_eq_some_iff.mp found
    exact ⟨hh, .inr ⟨b, .arity⟩⟩
  · obtain ⟨b, -, rfl⟩ := get?_standard_eq_some_iff.mp found
    obtain ⟨hh, refusal⟩ := Builtin.run_error fail
    exact ⟨hh, .inr ⟨b, refusal⟩⟩

end Table

end CoreLisp
