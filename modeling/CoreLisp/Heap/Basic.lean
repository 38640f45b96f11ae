import CoreLisp.EvalError
import CoreLisp.Value

/-!
# The heap

The heap holds everything that values and environments share: the frames of all
environments, the contents of all boxes, and the count of procedures made so
far. New frames and boxes are added at the end and nothing is ever removed, so
a place once given out keeps its meaning.

A frame binds names to values and knows the frame around it. The names of a
frame are fixed when it is made, while the values can be overwritten. A frame is
made after the frame around it and therefore stands behind it; the walk outward
looks at ever smaller places, and this is why it ends.
-/
namespace CoreLisp

structure Frame where
  bindings : List (Name × Value)
  parent : Option Env

namespace Frame

def names (f : Frame) : List Name := f.bindings.map (·.1)

def get? (f : Frame) (x : Name) : Option Value := f.bindings.lookup x

/-- Overwrites the value of `x`, if the frame binds it. -/
def set (f : Frame) (x : Name) (v : Value) : Frame :=
  { f with bindings := f.bindings.map fun b => if b.1 = x then (b.1, v) else b }

@[simp] theorem names_set (f : Frame) (x : Name) (v : Value) : (f.set x v).names = f.names := by
  simp only [names, set, List.map_map]
  congr 1
  funext b
  simp only [Function.comp]
  split <;> rfl

@[simp] theorem parent_set (f : Frame) (x : Name) (v : Value) :
    (f.set x v).parent = f.parent := rfl

theorem isSome_get?_iff {f : Frame} {x : Name} : (f.get? x).isSome ↔ x ∈ f.names := by
  obtain ⟨bindings, parent⟩ := f
  simp only [get?, names]
  induction bindings with
  | nil => simp
  | cons b bs ih =>
    obtain ⟨z, w⟩ := b
    by_cases hx : x = z
    · simp [hx]
    · simp [List.lookup_cons, beq_false_of_ne hx, hx, ih]

theorem get?_set_of_ne (f : Frame) {x y : Name} (h : y ≠ x) (v : Value) :
    (f.set x v).get? y = f.get? y := by
  obtain ⟨bindings, parent⟩ := f
  simp only [get?, set]
  induction bindings with
  | nil => rfl
  | cons b bs ih =>
    obtain ⟨z, w⟩ := b
    by_cases hz : z = x
    · subst hz
      simp [List.lookup_cons, beq_false_of_ne h, ih]
    · simp [List.lookup_cons, hz, ih]

theorem get?_set_self {f : Frame} {x : Name} (h : x ∈ f.names) (v : Value) :
    (f.set x v).get? x = some v := by
  obtain ⟨bindings, parent⟩ := f
  simp only [get?, set, names] at h ⊢
  induction bindings with
  | nil => simp at h
  | cons b bs ih =>
    obtain ⟨z, w⟩ := b
    by_cases hz : z = x
    · simp [hz]
    · have hx : x ∈ bs.map (·.1) := by simpa [Ne.symm hz] using h
      simp [List.lookup_cons, hz, beq_false_of_ne (Ne.symm hz), ih hx]

end Frame

structure Heap where
  frames : Array Frame := #[]
  boxes : Array Value := #[]
  procedures : Nat := 0

namespace Heap

/-- The nearest binding of `x`: the frame that holds it and its value. -/
def find? (h : Heap) (x : Name) (env : Env) : Option (Env × Value) :=
  match h.frames[env]? with
  | none => none
  | some frame =>
    match frame.get? x, frame.parent with
    | some v, _ => some (env, v)
    | none, some outer => if outer < env then h.find? x outer else none
    | none, none => none
termination_by env

/-- The names that each frame of an environment binds, innermost frame first.
The last frame is the root, which binds none. -/
def scopes (h : Heap) (env : Env) : List (List Name) :=
  match h.frames[env]? with
  | none => []
  | some frame =>
    match frame.parent with
    | some outer => if outer < env then frame.names :: h.scopes outer else [frame.names]
    | none => [frame.names]
termination_by env

/-- What a box holds. -/
def contents (h : Heap) (b : BoxRef) : Value := h.boxes.getD b .undefined

/-- Adds a root frame, which binds nothing. -/
def newRoot (h : Heap) : Env × Heap :=
  (h.frames.size, { h with frames := h.frames.push ⟨[], none⟩ })

end Heap

end CoreLisp
