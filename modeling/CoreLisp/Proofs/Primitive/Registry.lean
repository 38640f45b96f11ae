import Mathlib.Data.List.Basic
import Mathlib.Data.List.Induction
import Mathlib.Data.List.Nodup
import CoreLisp.Primitive.Standard

/-!
# Tables as they were registered

A table is made by registering primitives one after the other, and the registrations say
all about it: the names stand in the order in which they came first, and behind a name is
what it was registered as last. A call is checked against this before the function is
called. So a standard primitive, which looks for its arguments at fixed positions, finds
an argument at each of them.
-/
namespace CoreLisp

namespace Table

/-- Registers primitives one after the other. -/
def registerAll (t : Table) (added : List (Name × Primitive)) : Table :=
  added.foldl (fun t entry => t.register entry.1 entry.2) t

/-- What the name was registered as last. -/
def latest (log : List (Name × Primitive)) (name : Name) : Option Primitive :=
  log.reverse.lookup name

/-- Each name that has come is there once, and the names are in the order in which they
came first. -/
structure Lists (came names : List Name) : Prop where
  nodup : names.Nodup
  mem : ∀ name, name ∈ names ↔ name ∈ came
  order : names.Pairwise fun a b => came.idxOf a < came.idxOf b

variable {log : List (Name × Primitive)} {entry : Name × Primitive} {name : Name}
variable {came names : List Name}

theorem registerAll_append (t : Table) (log more : List (Name × Primitive)) :
    t.registerAll (log ++ more) = (t.registerAll log).registerAll more :=
  List.foldl_append

theorem registerAll_snoc (t : Table) (log : List (Name × Primitive)) (entry : Name × Primitive) :
    t.registerAll (log ++ [entry]) = (t.registerAll log).register entry.1 entry.2 :=
  registerAll_append t log [entry]

theorem latest_snoc : latest (log ++ [entry]) name =
    if name = entry.1 then some entry.2 else latest log name := by
  rw [latest, List.reverse_concat, List.lookup_cons]
  by_cases same : name = entry.1
  · rw [if_pos same, beq_iff_eq.mpr same]
  · rw [if_neg same, beq_false_of_ne same, latest]

theorem latest_eq_none_iff : latest log name = none ↔ ∀ entry ∈ log, name ≠ entry.1 := by
  simp [latest, List.lookup_eq_none_iff]

/-- After the last registration of a name come only those of other names. -/
theorem latest_eq_some_iff {p : Primitive} : latest log name = some p ↔
    ∃ before after, log = before ++ (name, p) :: after ∧ ∀ entry ∈ after, name ≠ entry.1 := by
  rw [latest, List.lookup_eq_some_iff]
  constructor
  · rintro ⟨after, before, split, others⟩
    refine ⟨before.reverse, after.reverse, ?_, ?_⟩
    · rw [← List.reverse_reverse log, split]
      simp
    · intro entry mem
      exact bne_iff_ne.mp (others entry (List.mem_reverse.mp mem))
  · rintro ⟨before, after, rfl, others⟩
    refine ⟨after.reverse, before.reverse, by simp, ?_⟩
    intro entry mem
    exact bne_iff_ne.mpr (others entry (List.mem_reverse.mp mem))

/-- Induction on the registrations, from the last one. -/
theorem get?_registerAll (t : Table) (log : List (Name × Primitive)) (name : Name) :
    (t.registerAll log).get? name = (latest log name).or (t.get? name) := by
  induction log using List.reverseRecOn with
  | nil => rfl
  | append_singleton log entry ih =>
      rw [registerAll_snoc, latest_snoc]
      by_cases same : name = entry.1
      · rw [if_pos same, same, get?_register_self, Option.some_or]
      · rw [if_neg same, get?_register_of_ne _ same, ih]

theorem get?_registered (log : List (Name × Primitive)) (name : Name) :
    (({} : Table).registerAll log).get? name = latest log name := by
  rw [get?_registerAll]
  exact Option.or_none

/-- A new name stands behind those that came before, and any other changes nothing. -/
theorem Lists.snoc (lists : Lists came names) (name : Name) :
    Lists (came ++ [name]) (if name ∈ names then names else names ++ [name]) := by
  obtain ⟨nodup, mem, order⟩ := lists
  have before : ∀ other ∈ names, (came ++ [name]).idxOf other = came.idxOf other :=
    fun other here => List.idxOf_append_of_mem ((mem other).mp here)
  have kept : names.Pairwise fun a b => (came ++ [name]).idxOf a < (came ++ [name]).idxOf b := by
    refine order.imp_of_mem fun ha hb earlier => ?_
    rwa [before _ ha, before _ hb]
  by_cases known : name ∈ names
  · rw [if_pos known]
    refine ⟨nodup, fun other => ?_, kept⟩
    rw [List.mem_append, List.mem_singleton, ← mem other]
    exact ⟨.inl, fun either => either.elim id fun same => same ▸ known⟩
  · have fresh : name ∉ came := fun here => known ((mem name).mpr here)
    rw [if_neg known]
    refine ⟨?_, fun other => ?_, ?_⟩
    · rw [← List.concat_eq_append]
      exact List.Nodup.concat known nodup
    · rw [List.mem_append, List.mem_append, mem other]
    · refine List.pairwise_append.mpr ⟨kept, List.pairwise_singleton _ _, ?_⟩
      intro a ha b hb
      rw [List.mem_singleton.mp hb, before a ha, List.idxOf_append_of_notMem fresh,
        List.idxOf_cons_self]
      exact List.idxOf_lt_length_iff.mpr ((mem a).mp ha)

theorem lists_registered (log : List (Name × Primitive)) :
    Lists (log.map (·.1)) (({} : Table).registerAll log).names := by
  induction log using List.reverseRecOn with
  | nil => exact ⟨List.nodup_nil, fun _ => .rfl, .nil⟩
  | append_singleton log entry ih =>
      rw [registerAll_snoc, names_register, List.map_append]
      exact ih.snoc entry.1

end Table

namespace Builtin

/-- Looks at the first argument. -/
def withOne (args : List Value) (f : Value → Action Value) : Option (Action Value) := do
  let x ← args[0]?
  return f x

/-- Looks at the first argument and at the second. -/
def withTwo (args : List Value) (f : Value → Value → Action Value) : Option (Action Value) := do
  let x ← args[0]?
  let y ← args[1]?
  return f x y

/-- The primitive as it would run on whatever it is given, looking its arguments up by
their positions. There is nothing if it would look outside of the arguments. -/
def indexed (b : Builtin) (args : List Value) : Option (Action Value) :=
  match b with
  | box => withOne args fun v => do return .box (← BoxRef.new v)
  | setBox => withTwo args fun x v => do
      let ref ← setBox.boxArg x
      ref.set v
      return .unit
  | unbox => withOne args fun x => do
      let ref ← unbox.boxArg x
      match ← ref.get with
      | .undefined => throw .undefinedAccess
      | v => return v
  | isZero => withOne args fun x => do return .boolean ((← isZero.integerArg x) == 0)
  | isEqual => withTwo args fun x y => return .boolean (x.same y)
  | isLess => withTwo args fun x y => do
      let n ← isLess.integerArg x
      let m ← isLess.integerArg y
      return .boolean (n < m)
  | not => withOne args fun x => return .boolean (!x.isTruthy)
  | plus => withTwo args (plus.arithmetic₂ (· + ·))
  | minus => withTwo args (minus.arithmetic₂ (· - ·))
  | mult => withTwo args (mult.arithmetic₂ (· * ·))
  | add1 => withOne args (add1.arithmetic₁ (· + 1))
  | sub1 => withOne args (sub1.arithmetic₁ (· - 1))
  | void => some (return .unit)

variable {args : List Value}

/-- With as many arguments as it takes, the primitive finds all that it looks for. -/
theorem indexed_of_length (b : Builtin) (hlen : args.length = b.arity) :
    b.indexed args = some (b.run args) := by
  cases b with
  | void =>
      obtain rfl := List.length_eq_zero_iff.mp hlen
      rfl
  | box | unbox | isZero | not | add1 | sub1 =>
      obtain ⟨x, rfl⟩ := List.length_eq_one_iff.mp hlen
      rfl
  | setBox | isEqual | isLess | plus | minus | mult =>
      obtain ⟨x, y, rfl⟩ := List.length_eq_two.mp hlen
      rfl

theorem withOne_eq_none_iff {f : Value → Action Value} :
    withOne args f = none ↔ args.length < 1 := by
  rcases args with _ | ⟨x, rest⟩ <;> simp [withOne]

theorem withTwo_eq_none_iff {f : Value → Value → Action Value} :
    withTwo args f = none ↔ args.length < 2 := by
  rcases args with _ | ⟨x, _ | ⟨y, rest⟩⟩ <;> simp [withTwo]

/-- It would look outside of the arguments only if there are too few of them. -/
theorem indexed_eq_none_iff (b : Builtin) : b.indexed args = none ↔ args.length < b.arity := by
  cases b with
  | void => simp [indexed, arity]
  | box | unbox | isZero | not | add1 | sub1 => exact withOne_eq_none_iff
  | setBox | isEqual | isLess | plus | minus | mult => exact withTwo_eq_none_iff

end Builtin

namespace Table

/-- The standard table has been registered, too. -/
theorem standard_registerAll (log : List (Name × Primitive)) : standard.registerAll log =
    ({} : Table).registerAll (Builtin.all.map (fun b => (b.name, b.primitive)) ++ log) := by
  rw [registerAll_append]
  rfl

theorem apply_registered (log : List (Name × Primitive)) (name : Name) (args : List Value) :
    (({} : Table).registerAll log).apply name args = match latest log name with
      | none => throw (.unknownPrimitive name)
      | some p =>
          if args.length = p.arity then p.run args else throw (.arity p.arity args.length) := by
  rw [← get?_registered]
  rfl

/-- Whatever is registered in an empty table or in the standard one, the names are listed
once each and as they came first, and a name has the number of arguments and the function
that it was registered with last. A call under a name that was never registered fails, a
call with another number of arguments fails, and any other runs the function; so no
standard primitive that is called looks outside of its arguments, although it would if
there were too few of them. -/
theorem table_follows_registrations :
    (∀ log, standard.registerAll log =
      ({} : Table).registerAll (Builtin.all.map (fun b => (b.name, b.primitive)) ++ log)) ∧
    (∀ log, Lists (log.map (·.1)) (({} : Table).registerAll log).names ∧
      ∀ name, (latest log name = none ↔ ∀ entry ∈ log, name ≠ entry.1) ∧
        (∀ p, latest log name = some p ↔ ∃ before after, log = before ++ (name, p) :: after ∧
          ∀ entry ∈ after, name ≠ entry.1) ∧
        (({} : Table).registerAll log).arity? name = (latest log name).map (·.arity) ∧
        ∀ args, (({} : Table).registerAll log).apply name args = (match latest log name with
            | none => throw (.unknownPrimitive name)
            | some p =>
                if args.length = p.arity then p.run args
                else throw (.arity p.arity args.length)) ∧
          ∀ b : Builtin, latest log name = some b.primitive → args.length = b.arity →
            b.indexed args = some ((({} : Table).registerAll log).apply name args)) ∧
    ∀ (b : Builtin) (args : List Value), b.indexed args = none ↔ args.length < b.arity := by
  refine ⟨standard_registerAll, ?_, fun b args => b.indexed_eq_none_iff⟩
  intro log
  refine ⟨lists_registered log, fun name => ⟨latest_eq_none_iff, fun p => latest_eq_some_iff, ?_, ?_⟩⟩
  · rw [arity?, get?_registered]
  · intro args
    refine ⟨apply_registered log name args, ?_⟩
    intro b registered hlen
    have hlen' : args.length = b.primitive.arity := hlen
    rw [apply_registered, registered, b.indexed_of_length hlen]
    simp only [if_pos hlen']
    rfl

/-- A standard name that is registered twice more, in between with two arguments, and a
standard primitive that is left as it is. -/
theorem table_follows_registrations_replaced :
    let t := standard.registerAll [("add1", ⟨2, fun _ => pure .unit⟩),
      ("hole", ⟨0, fun _ => pure .undefined⟩), ("add1", ⟨1, fun _ => pure (.boolean true)⟩)]
    t.names.Nodup ∧ t.arity? "add1" = some 1 ∧
      t.apply "add1" [.unit, .unit] = throw (.arity 1 2) ∧
      t.apply "add2" [.unit] = throw (.unknownPrimitive "add2") ∧
      Builtin.isEqual.indexed [.unit, .unit] = some (t.apply "is_equal" [.unit, .unit]) := by
  intro t
  obtain ⟨whole, registered, -⟩ := table_follows_registrations
  have same : t = ({} : Table).registerAll _ := whole _
  obtain ⟨listed, found⟩ := registered (Builtin.all.map (fun b => (b.name, b.primitive)) ++ _)
  rw [same]
  obtain ⟨-, -, harity, add1⟩ := found "add1"
  obtain ⟨-, -, -, add2⟩ := found "add2"
  obtain ⟨-, -, -, isEqual⟩ := found "is_equal"
  exact ⟨listed.nodup, harity, (add1 _).1, (add2 _).1, (isEqual _).2 .isEqual rfl rfl⟩

end Table

end CoreLisp
