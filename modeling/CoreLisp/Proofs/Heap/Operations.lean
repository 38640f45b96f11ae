import CoreLisp.Heap.Action

/-!
# What the operations on the heap do

For each operation on environments and boxes: when it succeeds, with which
result and heap, and how it fails. Failing leaves the heap alone.
-/
namespace CoreLisp

namespace Action

section
variable {ε α β : Type} {a : EStateM ε Heap α} {f : α → EStateM ε Heap β} {h h' : Heap} {e : ε}
variable {y : β}

theorem bind_eq_ok_iff :
    (a >>= f) h = .ok y h' ↔ ∃ x h₁, a h = .ok x h₁ ∧ f x h₁ = .ok y h' := by
  change EStateM.bind a f h = _ ↔ _
  unfold EStateM.bind
  cases a h with
  | ok x h₁ =>
      refine ⟨fun hf => ⟨x, h₁, rfl, hf⟩, ?_⟩
      intro hx
      obtain ⟨_, _, he, hf⟩ := hx
      cases he
      exact hf
  | error e h₁ => simp

theorem bind_eq_error_iff :
    (a >>= f) h = .error e h' ↔
      a h = .error e h' ∨ ∃ x h₁, a h = .ok x h₁ ∧ f x h₁ = .error e h' := by
  change EStateM.bind a f h = _ ↔ _
  unfold EStateM.bind
  cases a h with
  | ok x h₁ =>
      refine ⟨fun hf => .inr ⟨x, h₁, rfl, hf⟩, ?_⟩
      intro hx
      rcases hx with hx | hx
      · cases hx
      · obtain ⟨_, _, he, hf⟩ := hx
        cases he
        exact hf
  | error e h₁ => simp

end

variable {β : Type} {y : β} {h : Heap} {e : EvalError}

@[simp] theorem pure_apply (y : β) : (pure y : Action β) h = .ok y h := rfl

@[simp] theorem throw_apply : (throw e : Action β) h = .error e h := rfl

end Action

namespace Heap

/-- Adds a frame at the end. -/
def addFrame (h : Heap) (frame : Frame) : Heap := { h with frames := h.frames.push frame }

/-- Overwrites the value of `x` in the frame at `owner`. -/
def rebind (h : Heap) (owner : Env) (x : Name) (v : Value) : Heap :=
  { h with frames := h.frames.modify owner (·.set x v) }

/-- Adds a box at the end. -/
def addBox (h : Heap) (v : Value) : Heap := { h with boxes := h.boxes.push v }

/-- Overwrites what a box holds. -/
def setBox (h : Heap) (ref : BoxRef) (v : Value) : Heap :=
  { h with boxes := h.boxes.setIfInBounds ref v }

@[simp] theorem frames_addFrame (h : Heap) (frame : Frame) :
    (h.addFrame frame).frames = h.frames.push frame := rfl

@[simp] theorem boxes_addFrame (h : Heap) (frame : Frame) :
    (h.addFrame frame).boxes = h.boxes := rfl

@[simp] theorem frames_rebind (h : Heap) (owner : Env) (x : Name) (v : Value) :
    (h.rebind owner x v).frames = h.frames.modify owner (·.set x v) := rfl

@[simp] theorem boxes_rebind (h : Heap) (owner : Env) (x : Name) (v : Value) :
    (h.rebind owner x v).boxes = h.boxes := rfl

@[simp] theorem frames_addBox (h : Heap) (v : Value) : (h.addBox v).frames = h.frames := rfl

@[simp] theorem boxes_addBox (h : Heap) (v : Value) : (h.addBox v).boxes = h.boxes.push v := rfl

@[simp] theorem frames_setBox (h : Heap) (ref : BoxRef) (v : Value) :
    (h.setBox ref v).frames = h.frames := rfl

@[simp] theorem boxes_setBox (h : Heap) (ref : BoxRef) (v : Value) :
    (h.setBox ref v).boxes = h.boxes.setIfInBounds ref v := rfl

end Heap

theorem BoxRef.get_eq_ok_iff {ref : BoxRef} {v : Value} {h h' : Heap} :
    ref.get h = .ok v h' ↔ h.contents ref = v ∧ h' = h := by
  simp [BoxRef.get, eq_comm]

namespace Env

variable {env inner : Env} {names : List Name} {values : List Value} {x : Name} {v : Value}
variable {h h' : Heap} {e : EvalError}

theorem extend_eq_ok_iff :
    env.extend names values h = .ok inner h' ↔ names.length = values.length ∧ names.Nodup ∧
      inner = h.frames.size ∧ h' = h.addFrame ⟨names.zip values, some env⟩ := by
  unfold extend
  split
  · rename_i hlen
    simp [hlen]
  · rename_i hlen
    split
    · rename_i hdup
      simp [hdup]
    · rename_i hdup
      have hlen : names.length = values.length := Decidable.not_not.mp hlen
      have hdup : names.Nodup := Decidable.not_not.mp hdup
      simp [hlen, hdup, Heap.addFrame, eq_comm]

theorem extend_eq_error_iff :
    env.extend names values h = .error e h' ↔ h' = h ∧
      (names.length ≠ values.length ∧ e = .malformed (.bindingLengths names.length values.length) ∨
        names.length = values.length ∧ ¬ names.Nodup ∧ e = .malformed .duplicateNames) := by
  unfold extend
  split
  · rename_i hlen
    simp only [hlen]
    grind
  · rename_i hlen
    have hlen : names.length = values.length := Decidable.not_not.mp hlen
    split
    · rename_i hdup
      simp only [hlen, hdup]
      grind
    · rename_i hdup
      simp [hlen, hdup]

theorem lookup_eq_ok_iff :
    env.lookup x h = .ok v h' ↔ h' = h ∧ ∃ owner, h.find? x env = some (owner, v) := by
  unfold lookup
  split
  · rename_i owner w hw
    simp [hw, eq_comm, and_comm]
  · rename_i hw
    simp [hw]

theorem lookup_eq_error_iff :
    env.lookup x h = .error e h' ↔ h' = h ∧ h.find? x env = none ∧ e = .unboundName x := by
  unfold lookup
  split
  · rename_i owner w hw
    simp [hw]
  · rename_i hw
    simp [hw, eq_comm, and_comm]

theorem assign_eq_ok_iff {u : Unit} :
    env.assign x v h = .ok u h' ↔
      ∃ owner w, h.find? x env = some (owner, w) ∧ h' = h.rebind owner x v := by
  unfold assign
  split
  · rename_i owner w hw
    simp [hw, Heap.rebind, eq_comm]
  · rename_i hw
    simp [hw]

theorem assign_eq_error_iff :
    env.assign x v h = .error e h' ↔ h' = h ∧ h.find? x env = none ∧ e = .unboundName x := by
  unfold assign
  split
  · rename_i owner w hw
    simp [hw]
  · rename_i hw
    simp [hw, eq_comm, and_comm]

/-- Assignments one after the other fail only because a name is not bound. -/
theorem assignAll_error {bindings : List (Name × Value)}
    (fail : env.assignAll bindings h = .error e h') : ∃ x, e = .unboundName x := by
  induction bindings generalizing h with
  | nil => cases fail
  | cons b rest ih =>
      obtain ⟨x, v⟩ := b
      simp only [assignAll] at fail
      rcases Action.bind_eq_error_iff.mp fail with first | later
      · exact ⟨x, (assign_eq_error_iff.mp first).2.2⟩
      · obtain ⟨_, _, _, rest⟩ := later
        exact ih rest

/-- A property of heaps that assigning these values keeps is kept by assigning
all of them. -/
theorem assignAll_invariant {P : Heap → Prop} {bindings : List (Name × Value)} {u : Unit}
    (keep : ∀ {x : Name} {v : Value} {u : Unit} {h h' : Heap}, (x, v) ∈ bindings →
      env.assign x v h = .ok u h' → P h → P h')
    (done : env.assignAll bindings h = .ok u h') (start : P h) : P h' := by
  induction bindings generalizing h with
  | nil =>
      cases done
      exact start
  | cons b rest ih =>
      obtain ⟨x, v⟩ := b
      simp only [assignAll] at done
      obtain ⟨_, h₁, first, later⟩ := Action.bind_eq_ok_iff.mp done
      refine ih (fun hmem => keep (List.mem_cons_of_mem _ hmem)) later ?_
      exact keep List.mem_cons_self first start

end Env

end CoreLisp
