import CoreLisp.Proofs.Machine.Steps
import CoreLisp.Proofs.Machine.Transition

/-!
# The shape of the stack

A frame that evaluates its parts one after another is on the stack only while
there are parts left, and the end of the program is the last frame and no other.
Every step keeps this, so a frame that looks for its next part finds it, and the
stack does not run out before the machine has halted.

Nothing is asked of the program. A tree with lists of different lengths fails
before its frame is made.
-/
namespace CoreLisp

/-- The frame waits for a value in the midst of a program: it is not the end, and
if it has a list of parts then there is a part that has no value yet. -/
def Kont.Waiting : Kont → Prop
  | .halt _ => False
  | .seq _ body index => 1 ≤ index ∧ index < body.length
  | .letIn _ names inits _ values | .letRec _ names inits _ values =>
      names.length = inits.length ∧ values.length < inits.length
  | .primApp _ _ rands values | .operand _ rands _ values => values.length < rands.length
  | .cond .. | .assign .. | .operator .. => True

/-- The frame is the end of a program. -/
def Kont.isHalt : Kont → Bool
  | .halt _ => true
  | _ => false

/-- The end of the program is below all other frames, and these wait. -/
def Stack.Shaped (s : Stack) : Prop :=
  ∃ above root, s.frames = above ++ [.halt root] ∧ ∀ k ∈ above, k.Waiting

/-- Halting empties the stack, and before that it is shaped. -/
def State.Shaped (s : State) : Prop :=
  match s.control with
  | .halted _ => s.stack = Stack.empty
  | _ => s.stack.Shaped

/-- The list that a frame indexes when it gets a value, and the index. A frame
for which this is the last value does not index. -/
def Kont.indexed? : Kont → Option (List Expr × Nat)
  | .seq _ body index => some (body, index)
  | .letIn _ _ parts _ values | .letRec _ _ parts _ values | .primApp _ _ parts values
  | .operand _ parts _ values =>
      if values.length + 1 = parts.length then none else some (parts, values.length + 1)
  | .halt _ | .cond .. | .assign .. | .operator .. => none

/-- A list that still has a part without a value is not indexed behind its end. -/
theorem index_lt_of_length_lt {es parts : List Expr} {n i : Nat} (hlt : n < es.length)
    (hk : (if n + 1 = es.length then none else some (es, n + 1)) = some (parts, i)) :
    i < parts.length := by
  split at hk
  · cases hk
  · cases hk
    omega

/-- When the last initializer of a recursive binding has got its value, there is a value
for each name. -/
theorem Kont.Waiting.length_of_last {place : Env} {names : List Name} {inits : List Expr}
    {body : Expr} {values : List Value} {v : Value}
    (waiting : (Kont.letRec place names inits body values).Waiting)
    (last : inits[values.length + 1]? = none) : names.length = (values ++ [v]).length := by
  obtain ⟨hnames, hlt⟩ := waiting
  have hle := List.getElem?_eq_none_iff.mp last
  rw [hnames, List.length_append, List.length_singleton]
  omega

theorem Kont.Waiting.index_lt {k : Kont} {parts : List Expr} {i : Nat} (waiting : k.Waiting)
    (hk : k.indexed? = some (parts, i)) : i < parts.length := by
  cases k with
  | seq env body index =>
      cases hk
      exact waiting.2
  | letIn | letRec => exact index_lt_of_length_lt waiting.2 hk
  | primApp | operand => exact index_lt_of_length_lt waiting hk
  | halt | cond | assign | operator => cases hk

namespace Stack

variable {s : Stack} {k : Kont}

theorem Shaped.push (hs : s.Shaped) (hk : k.Waiting) : (s.push k).Shaped := by
  obtain ⟨above, root, frames, waiting⟩ := hs
  refine ⟨k :: above, root, by simp [frames], ?_⟩
  intro k' hk'
  rcases List.mem_cons.mp hk' with rfl | hk'
  · exact hk
  · exact waiting k' hk'

theorem shaped_end (root : Env) : (empty.push (.halt root)).Shaped := by
  refine ⟨[], root, rfl, ?_⟩
  intro k hk
  cases hk

/-- What is below a frame, unless that frame is the end, is a shaped stack. -/
theorem Shaped.below (hs : (s.push k).Shaped) (inner : k.isHalt = false) :
    k.Waiting ∧ s.Shaped := by
  obtain ⟨above, root, frames, waiting⟩ := hs
  rw [frames_push] at frames
  rcases List.cons_eq_append_iff.mp frames with ⟨-, last⟩ | ⟨above', rfl, rest⟩
  · rw [← (List.cons.inj last).1] at inner
    cases inner
  · refine ⟨waiting k List.mem_cons_self, above', root, rest, ?_⟩
    intro k' hk'
    exact waiting k' (List.mem_cons_of_mem k hk')

/-- There is nothing below the end. -/
theorem Shaped.below_halt {root : Env} (hs : (s.push (.halt root)).Shaped) : s = empty := by
  obtain ⟨above, root', frames, waiting⟩ := hs
  rw [frames_push] at frames
  rcases List.cons_eq_append_iff.mp frames with ⟨-, last⟩ | ⟨above', rfl, rest⟩
  · exact Stack.ext (List.cons.inj last).2.symm
  · exact (waiting (.halt root) List.mem_cons_self).elim

theorem Shaped.ne_empty (hs : s.Shaped) : s ≠ empty := by
  intro he
  subst he
  obtain ⟨above, root, frames, -⟩ := hs
  simp at frames

/-- The end of the program indexes nothing. -/
theorem Shaped.waiting_of_indexed {parts : List Expr} {i : Nat} (hs : s.Shaped)
    (hmem : k ∈ s.frames) (hk : k.indexed? = some (parts, i)) : k.Waiting := by
  obtain ⟨above, root, frames, waiting⟩ := hs
  rw [frames] at hmem
  rcases List.mem_append.mp hmem with hmem | hmem
  · exact waiting k hmem
  · rw [List.mem_singleton] at hmem
    subst hmem
    cases hk

end Stack

namespace Machine

variable {table : Table} {e : Expr} {s s' : State} {h h' : Heap}

theorem Transition.shaped (t : Transition table s h s' h') (hs : s.Shaped) : s'.Shaped := by
  cases t with
  | datum | ref | lambda | seqOne | letNone | primNone | halted => exact hs
  | cond | assign | app => exact Stack.Shaped.push hs trivial
  | seqFirst => exact Stack.Shaped.push hs ⟨Nat.le_refl 1, by simp⟩
  | letFirst hlen | letRecFirst hlen _ => exact Stack.Shaped.push hs ⟨hlen, Nat.zero_lt_succ _⟩
  | primFirst => exact Stack.Shaped.push hs (Nat.zero_lt_succ _)
  | halt => exact Stack.Shaped.below_halt hs
  | chosen | assigned | seqLast | seqPast | letDone | letRecDone | primDone | callNone | call =>
      exact (Stack.Shaped.below hs rfl).2
  | seqNext hnext hlt =>
      obtain ⟨-, below⟩ := Stack.Shaped.below hs rfl
      exact below.push ⟨Nat.le_add_left 1 _, hlt⟩
  | letNext hnext | letRecNext hnext =>
      obtain ⟨⟨hlen, -⟩, below⟩ := Stack.Shaped.below hs rfl
      have hlt := (List.getElem?_eq_some_iff.mp hnext).1
      refine below.push ⟨hlen, ?_⟩
      rw [List.length_append, List.length_singleton]
      exact hlt
  | operandFirst =>
      obtain ⟨-, below⟩ := Stack.Shaped.below hs rfl
      exact below.push (Nat.zero_lt_succ _)
  | primNext hnext | operandNext hnext =>
      obtain ⟨-, below⟩ := Stack.Shaped.below hs rfl
      have hlt := (List.getElem?_eq_some_iff.mp hnext).1
      refine below.push ?_
      simp only [Kont.Waiting, List.length_append, List.length_singleton]
      exact hlt

theorem Reachable.shaped (reached : Reachable table e h s h') : s.Shaped := by
  obtain ⟨n, run⟩ := reached
  refine run.invariant (P := fun s _ => s.Shaped) ?_ (Stack.shaped_end _)
  intro s s' h h' hs
  exact (step_eq_ok_iff.mp hs).shaped

/-- A frame that finds a part at the index it looks at goes on with that part. -/
theorem resume_indexed {k : Kont} {parts : List Expr} {i : Nat}
    (hk : k.indexed? = some (parts, i)) (hi : i < parts.length) (v : Value) (stack : Stack) :
    ∃ s', resume table k v stack h = .ok s' h ∧ s'.control = .evaluating parts[i] := by
  have hnext : parts[i]? = some parts[i] := List.getElem?_eq_getElem hi
  cases k with
  | seq env body index =>
      cases hk
      simp only [resume, hnext]
      split <;> exact ⟨_, rfl, rfl⟩
  | letIn | letRec | primApp | operand =>
      simp only [Kont.indexed?] at hk
      split at hk
      · cases hk
      · cases hk
        simp only [resume, hnext]
        exact ⟨_, rfl, rfl⟩
  | _ => cases hk

/-- Over a shaped stack, only a primitive can say that the stack has run out. -/
theorem Failure.not_exhausted (fail : Failure table s h (.malformed .stackExhausted) h')
    (hs : s.Shaped) :
    ∃ name args, table.apply name args h = .error (.malformed .stackExhausted) h' := by
  generalize he : EvalError.malformed .stackExhausted = err at fail
  cases fail with
  | seqEmpty | letLengths | letRecLengths | letRecEmpty => cases he
  | ref hx =>
      obtain ⟨-, -, rfl⟩ := Env.lookup_eq_error_iff.mp hx
      cases he
  | assigned hx =>
      obtain ⟨-, -, rfl⟩ := Env.assign_eq_error_iff.mp hx
      cases he
  | letRecFirst _ hx | letDone _ hx =>
      obtain ⟨-, ⟨-, rfl⟩ | ⟨-, -, rfl⟩⟩ := Env.extend_eq_error_iff.mp hx <;> cases he
  | letRecDone _ hx =>
      obtain ⟨x, rfl⟩ := Env.assignAll_error hx
      cases he
  | callNone hx | call _ hx =>
      obtain ⟨n, m, rfl⟩ | ⟨d, rfl⟩ | ⟨f, -, -, rfl⟩ := applyProcedure_error hx <;> cases he
  | primNone hx | primDone _ hx =>
      subst he
      exact ⟨_, _, hx⟩
  | exhausted => exact absurd rfl (Stack.Shaped.ne_empty hs)

/-- Whatever the program and the primitives are, every state of a run is shaped,
every frame finds the part that it indexes and goes on with it, and the machine
itself does not fail because the stack has run out. -/
theorem reachable_shape (table : Table) (e : Expr) (h h' : Heap) (s : State)
    (reached : Reachable table e h s h') :
    s.Shaped ∧
    (∀ k ∈ s.stack.frames, ∀ parts i, k.indexed? = some (parts, i) →
      ∃ hi : i < parts.length, ∀ v below, ∃ s',
        resume table k v below h' = .ok s' h' ∧ s'.control = .evaluating parts[i]) ∧
    (∀ h'', step table s h' = .error (.malformed .stackExhausted) h'' →
      ∃ name args, table.apply name args h' = .error (.malformed .stackExhausted) h'') := by
  have shaped := reached.shaped
  refine ⟨shaped, ?_, ?_⟩
  · intro k hmem parts i hk
    have waiting : k.Waiting := by
      obtain ⟨control, env, stack⟩ := s
      cases control with
      | evaluating | returning => exact Stack.Shaped.waiting_of_indexed shaped hmem hk
      | halted v =>
          have hempty : stack = Stack.empty := shaped
          rw [hempty] at hmem
          cases hmem
    have hi := waiting.index_lt hk
    exact ⟨hi, resume_indexed hk hi⟩
  · intro h'' fail
    exact (step_eq_error_iff.mp fail).not_exhausted shaped

/-- A tree that binds a name twice, while its second initializer is evaluated. -/
theorem reachable_shape_repeated_names : ∃ s h',
    Reachable {} (.letIn ["x", "x"] [.datum (.integer 1), .datum (.integer 2)] (.ref "x"))
      {} s h' ∧ s.control = .evaluating (.datum (.integer 2)) ∧ s.stack.depth = 2 ∧ s.Shaped := by
  have reached : Reachable {}
      (.letIn ["x", "x"] [.datum (.integer 1), .datum (.integer 2)] (.ref "x")) {} _ _ :=
    ⟨3, .step State.running_evaluating rfl (.step State.running_evaluating rfl
      (.one State.running_returning rfl))⟩
  exact ⟨_, _, reached, rfl, rfl, (reachable_shape _ _ _ _ _ reached).1⟩

end Machine

end CoreLisp
