import CoreLisp.Heap.Action

/-!
# Primitives

A primitive is a function supplied from outside the language, called by name
with arguments that have already been evaluated. A table keeps the primitives
in the order in which their names were first registered; registering a name
again replaces the primitive and keeps the position. The number of arguments is
checked by the table, before the function sees them.
-/
namespace CoreLisp

structure Primitive where
  arity : Nat
  run : List Value → Action Value

/-- Primitives by name, in the order of first registration. -/
structure Table where
  entries : List (Name × Primitive) := []

namespace Table

def names (t : Table) : List Name := t.entries.map (·.1)

def get? (t : Table) (name : Name) : Option Primitive := t.entries.lookup name

def contains (t : Table) (name : Name) : Bool := (t.get? name).isSome

def arity? (t : Table) (name : Name) : Option Nat := (t.get? name).map (·.arity)

/-- Replaces the entry of that name where it stands, or adds one at the end. -/
def put (name : Name) (p : Primitive) : List (Name × Primitive) → List (Name × Primitive)
  | [] => [(name, p)]
  | (n, q) :: rest => if n = name then (n, p) :: rest else (n, q) :: put name p rest

def register (t : Table) (name : Name) (p : Primitive) : Table := ⟨put name p t.entries⟩

def apply (t : Table) (name : Name) (args : List Value) : Action Value :=
  match t.get? name with
  | none => throw (.unknownPrimitive name)
  | some p =>
      if args.length = p.arity then p.run args else throw (.arity p.arity args.length)

theorem get?_register_self (t : Table) (name : Name) (p : Primitive) :
    (t.register name p).get? name = some p := by
  obtain ⟨entries⟩ := t
  simp only [register, get?]
  induction entries with
  | nil => simp [put]
  | cons e es ih =>
    obtain ⟨n, q⟩ := e
    by_cases h : n = name
    · simp [put, h]
    · simp [put, h, List.lookup_cons, beq_false_of_ne (Ne.symm h), ih]

theorem get?_register_of_ne (t : Table) {name other : Name} (h : other ≠ name) (p : Primitive) :
    (t.register name p).get? other = t.get? other := by
  obtain ⟨entries⟩ := t
  simp only [register, get?]
  induction entries with
  | nil => simp [put, List.lookup_cons, beq_false_of_ne h]
  | cons e es ih =>
    obtain ⟨n, q⟩ := e
    by_cases hn : n = name
    · subst hn
      simp [put, List.lookup_cons, beq_false_of_ne h]
    · simp [put, hn, List.lookup_cons, ih]

/-- A name keeps its position when it is registered again. -/
theorem names_register (t : Table) (name : Name) (p : Primitive) :
    (t.register name p).names = if name ∈ t.names then t.names else t.names ++ [name] := by
  obtain ⟨entries⟩ := t
  simp only [register, names]
  induction entries with
  | nil => simp [put]
  | cons e es ih =>
    obtain ⟨n, q⟩ := e
    by_cases h : n = name
    · simp [put, h]
    · by_cases hm : name ∈ es.map (·.1)
      · simp_all [put, Ne.symm h]
      · simp_all [put, Ne.symm h]

end Table

end CoreLisp
