import CoreLisp.Primitive.Standard
import CoreLisp.Proofs.Evaluation.Refinement
import CoreLisp.Proofs.Heap.Operations

/-!
# Evaluation on any stack

What is below on the stack waits until the value of the expression has come back to it.
A state is put onto other frames here: it steps there as it does without them, and only
when it has given its value back does it matter which frames they are. So the runs of an
expression on any two stacks go side by side until then, with the same frames on top.
-/
namespace CoreLisp

/-- The frames of the first stack, and below them those of the second. -/
def Stack.append (above below : Stack) : Stack := { frames := above.frames ++ below.frames }

instance : Append Stack := ⟨Stack.append⟩

/-- The same state with other frames below its own. -/
def State.onto (below : Stack) (s : State) : State := ⟨s.control, s.env, s.stack ++ below⟩

namespace Stack

variable {above below : Stack} {k : Kont}

@[simp] theorem frames_append (above below : Stack) :
    (above ++ below).frames = above.frames ++ below.frames := rfl

theorem push_append (k : Kont) (above below : Stack) :
    above.push k ++ below = (above ++ below).push k := rfl

theorem empty_append (below : Stack) : empty ++ below = below := Stack.ext rfl

theorem append_eq_right_iff : above ++ below = below ↔ above = empty := by
  rw [Stack.ext_iff, Stack.ext_iff, frames_append, List.append_left_eq_self, frames_empty]

end Stack

namespace Machine

variable {table : Table} {below : Stack} {s s₁ t : State} {h h₁ h' : Heap} {n : Nat}
variable {e : Expr} {env : Env} {stack : Stack} {v : Value} {err : EvalError}

/-- What is done first is an operation on the heap and does not depend on the stack. -/
theorem onto_bind {α : Type} {a : Action α} {f g : α → Action State}
    (rest : ∀ x, g x = State.onto below <$> f x) : a >>= g = State.onto below <$> (a >>= f) := by
  rw [map_bind, funext rest]

theorem applyProcedure_onto {operator : Value} {args : List Value} :
    applyProcedure operator args (stack ++ below) =
      State.onto below <$> applyProcedure operator args stack := by
  cases operator with
  | procedure f =>
      unfold applyProcedure
      by_cases hlen : args.length = f.params.length
      · simp only [if_pos hlen]
        exact onto_bind fun _ => rfl
      · simp only [if_neg hlen]
        rfl
  | _ => rfl

theorem applyPrimitive_onto {name : Name} {args : List Value} :
    applyPrimitive table name args env (stack ++ below) =
      State.onto below <$> applyPrimitive table name args env stack :=
  onto_bind fun _ => rfl

theorem visit_onto : visit table e env (stack ++ below) =
    State.onto below <$> visit table e env stack := by
  cases e with
  | datum | cond | assign | app => rfl
  | ref | lambda => exact onto_bind fun _ => rfl
  | seq body => rcases body with _ | ⟨first, _ | ⟨second, rest⟩⟩ <;> rfl
  | letIn names inits body =>
      unfold visit
      by_cases hlen : names.length = inits.length
      · simp only [if_neg (Decidable.not_not.mpr hlen)]
        cases inits <;> rfl
      · simp only [if_pos hlen]
        rfl
  | letRec names inits body =>
      unfold visit
      by_cases hlen : names.length = inits.length
      · simp only [if_neg (Decidable.not_not.mpr hlen)]
        cases inits with
        | nil => rfl
        | cons => exact onto_bind fun _ => rfl
      · simp only [if_pos hlen]
        rfl
  | primApp name rands =>
      cases rands with
      | nil => exact applyPrimitive_onto
      | cons => rfl

theorem resume_onto {k : Kont} : resume table k v (stack ++ below) =
    State.onto below <$> resume table k v stack := by
  cases k with
  | halt | cond => rfl
  | assign => exact onto_bind fun _ => rfl
  | seq outer body index =>
      simp only [resume]
      cases body[index]? with
      | none => rfl
      | some next =>
          by_cases hlt : index + 1 < body.length
          · simp only [if_pos hlt]
            rfl
          · simp only [if_neg hlt]
            rfl
  | letIn outer names inits body values | letRec outer names inits body values =>
      simp only [resume]
      cases inits[values.length + 1]? with
      | none => exact onto_bind fun _ => rfl
      | some => rfl
  | primApp outer name rands values =>
      simp only [resume]
      cases rands[values.length + 1]? with
      | none => exact applyPrimitive_onto
      | some => rfl
  | operator outer rands =>
      cases rands with
      | nil => exact applyProcedure_onto
      | cons => rfl
  | operand outer rands operator values =>
      simp only [resume]
      cases rands[values.length + 1]? with
      | none => exact applyProcedure_onto
      | some => rfl

/-- Until it has given its value back, a state steps onto other frames as it does without
them. -/
theorem step_onto (busy : ∀ v, ¬ Returned Stack.empty v s) :
    step table (s.onto below) = State.onto below <$> step table s := by
  obtain ⟨control, env, stack⟩ := s
  cases control with
  | evaluating e => exact visit_onto
  | returning v =>
      rcases stack.empty_or_push with rfl | ⟨k, above, rfl⟩
      · exact absurd ⟨env, rfl⟩ (busy v)
      · rw [State.onto, Stack.push_append, step_returning, step_returning]
        exact resume_onto
  | halted v => rfl

theorem returned_onto_iff : Returned below v (s.onto below) ↔ Returned Stack.empty v s := by
  obtain ⟨control, env, stack⟩ := s
  simp only [Returned, State.onto, State.mk.injEq, Stack.append_eq_right_iff]

theorem step_onto_eq_ok_iff (busy : ∀ v, ¬ Returned Stack.empty v s) :
    step table (s.onto below) h = .ok t h' ↔
      ∃ s', step table s h = .ok s' h' ∧ t = s'.onto below := by
  rw [step_onto busy, map_eq_pure_bind, Action.bind_eq_ok_iff]
  constructor
  · rintro ⟨s', h₁, hs, done⟩
    cases done
    exact ⟨s', hs, rfl⟩
  · rintro ⟨s', hs, rfl⟩
    exact ⟨s', h', hs, rfl⟩

theorem step_onto_eq_error_iff (busy : ∀ v, ¬ Returned Stack.empty v s) :
    step table (s.onto below) h = .error err h' ↔ step table s h = .error err h' := by
  rw [step_onto busy, map_eq_pure_bind, Action.bind_eq_error_iff]
  constructor
  · rintro (hs | ⟨s', h₁, -, done⟩)
    · exact hs
    · cases done
  · exact .inl

/-- In none of the first `n` states of the run has a value come back to `below`. -/
def Unreturned (table : Table) (below : Stack) (n : Nat) (s : State) (h : Heap) : Prop :=
  ∀ m < n, ∀ s' h', Steps table m s h s' h' → ∀ v, ¬ Returned below v s'

/-- The run comes to the second state after `n` steps, and before that no value has come
back to `below`. -/
structure Inside (table : Table) (below : Stack) (n : Nat) (s : State) (h : Heap) (t : State)
    (h' : Heap) : Prop where
  steps : Steps table n s h t h'
  unreturned : Unreturned table below n s h

/-- The run fails after `n` steps, and before that no value has come back to `below`. -/
structure FailsInside (table : Table) (below : Stack) (n : Nat) (s : State) (h : Heap)
    (err : EvalError) (h' : Heap) : Prop where
  ends : Ends table n s h (.error err h')
  unreturned : Unreturned table below n s h

theorem Unreturned.busy (unreturned : Unreturned table below (n + 1) s h) (v : Value) :
    ¬ Returned below v s :=
  unreturned 0 (Nat.zero_lt_succ n) s h (.done s h) v

theorem Unreturned.next (unreturned : Unreturned table below (n + 1) s h) (running : s.Running)
    (hs : step table s h = .ok s₁ h₁) : Unreturned table below n s₁ h₁ :=
  fun m hm s' h' run => unreturned (m + 1) (Nat.succ_lt_succ hm) s' h' (.step running hs run)

theorem unreturned_succ (busy : ∀ v, ¬ Returned below v s)
    (next : ∀ s₁ h₁, s.Running → step table s h = .ok s₁ h₁ → Unreturned table below n s₁ h₁) :
    Unreturned table below (n + 1) s h := by
  intro m hm s' h' run
  cases run with
  | done => exact busy
  | step running hs run => exact next _ _ running hs _ (Nat.lt_of_succ_lt_succ hm) s' h' run

theorem unreturned_onto_iff :
    Unreturned table below n (s.onto below) h ↔ Unreturned table Stack.empty n s h := by
  induction n generalizing s h with
  | zero => exact ⟨fun _ => nofun, fun _ => nofun⟩
  | succ n ih =>
      constructor
      · intro unreturned
        have busy : ∀ v, ¬ Returned Stack.empty v s :=
          fun v returned => unreturned.busy v (returned_onto_iff.mpr returned)
        refine unreturned_succ busy fun s₁ h₁ running hs => ?_
        have hs' : step table (s.onto below) h = .ok (s₁.onto below) h₁ :=
          (step_onto_eq_ok_iff busy).mpr ⟨s₁, hs, rfl⟩
        exact ih.mp (unreturned.next running hs')
      · intro unreturned
        refine unreturned_succ (fun v returned => ?_) fun t h₁ running ht => ?_
        · exact unreturned.busy v (returned_onto_iff.mp returned)
        · obtain ⟨s₁, hs, rfl⟩ := (step_onto_eq_ok_iff unreturned.busy).mp ht
          exact ih.mpr (unreturned.next running hs)

/-- Induction on the number of steps. -/
theorem steps_onto_iff (unreturned : Unreturned table Stack.empty n s h) :
    Steps table n (s.onto below) h t h' ↔ ∃ s', Steps table n s h s' h' ∧ t = s'.onto below := by
  induction n generalizing s h with
  | zero =>
      constructor
      · intro run
        cases run
        exact ⟨s, .done s _, rfl⟩
      · rintro ⟨s', run, rfl⟩
        cases run
        exact .done _ _
  | succ n ih =>
      constructor
      · intro run
        cases run with
        | step running ht run =>
            obtain ⟨s₁, hs, rfl⟩ := (step_onto_eq_ok_iff unreturned.busy).mp ht
            obtain ⟨s', rest, rfl⟩ := (ih (unreturned.next running hs)).mp run
            exact ⟨s', .step running hs rest, rfl⟩
      · rintro ⟨s', run, rfl⟩
        cases run with
        | @step _ _ s₁ _ _ h₁ _ running hs run =>
            have ht : step table (s.onto below) h = .ok (s₁.onto below) h₁ :=
              (step_onto_eq_ok_iff unreturned.busy).mpr ⟨s₁, hs, rfl⟩
            exact .step running ht ((ih (unreturned.next running hs)).mpr ⟨s', run, rfl⟩)

theorem ends_onto_iff (unreturned : Unreturned table Stack.empty n s h) :
    Ends table n (s.onto below) h (.error err h') ↔ Ends table n s h (.error err h') := by
  induction n generalizing s h with
  | zero => exact ⟨nofun, nofun⟩
  | succ n ih =>
      constructor
      · intro ends
        cases ends with
        | failed running ht => exact .failed running ((step_onto_eq_error_iff unreturned.busy).mp ht)
        | step running ht rest =>
            obtain ⟨s₁, hs, rfl⟩ := (step_onto_eq_ok_iff unreturned.busy).mp ht
            exact .step running hs ((ih (unreturned.next running hs)).mp rest)
      · intro ends
        cases ends with
        | failed running hs => exact .failed running ((step_onto_eq_error_iff unreturned.busy).mpr hs)
        | @step _ _ s₁ _ h₁ _ running hs rest =>
            have ht : step table (s.onto below) h = .ok (s₁.onto below) h₁ :=
              (step_onto_eq_ok_iff unreturned.busy).mpr ⟨s₁, hs, rfl⟩
            exact .step running ht ((ih (unreturned.next running hs)).mpr rest)

theorem inside_onto_iff : Inside table below n (s.onto below) h t h' ↔
    ∃ s', Inside table Stack.empty n s h s' h' ∧ t = s'.onto below := by
  constructor
  · rintro ⟨run, unreturned⟩
    have unreturned := unreturned_onto_iff.mp unreturned
    obtain ⟨s', alone, rfl⟩ := (steps_onto_iff unreturned).mp run
    exact ⟨s', ⟨alone, unreturned⟩, rfl⟩
  · rintro ⟨s', ⟨run, unreturned⟩, rfl⟩
    exact ⟨(steps_onto_iff unreturned).mpr ⟨s', run, rfl⟩, unreturned_onto_iff.mpr unreturned⟩

theorem failsInside_onto_iff : FailsInside table below n (s.onto below) h err h' ↔
    FailsInside table Stack.empty n s h err h' := by
  constructor
  · rintro ⟨ends, unreturned⟩
    have unreturned := unreturned_onto_iff.mp unreturned
    exact ⟨(ends_onto_iff unreturned).mp ends, unreturned⟩
  · rintro ⟨ends, unreturned⟩
    exact ⟨(ends_onto_iff unreturned).mpr ends, unreturned_onto_iff.mpr unreturned⟩

/-- The first state of an evaluation, on a stack. -/
def begun (e : Expr) (env : Env) (stack : Stack) : State := ⟨.evaluating e, env, stack⟩

theorem begun_eq_onto : begun e env below = (begun e env Stack.empty).onto below := by
  rw [begun, begun, State.onto, Stack.empty_append]

theorem failsInside_begun_iff : FailsInside table below n (begun e env below) h err h' ↔
    FailsInside table Stack.empty n (begun e env Stack.empty) h err h' := by
  rw [begun_eq_onto]
  exact failsInside_onto_iff

/-- While it has not come back, an evaluation on one stack is at a state that it is also
at on the other one, with the same frames on top. -/
theorem Inside.exchange {K K' : Stack} (inside : Inside table K n (begun e env K) h t h') :
    ∃ above, t.stack = above ++ K ∧
      Inside table K' n (begun e env K') h ⟨t.control, t.env, above ++ K'⟩ h' := by
  rw [begun_eq_onto, inside_onto_iff] at inside
  obtain ⟨s', inside, rfl⟩ := inside
  refine ⟨s'.stack, rfl, ?_⟩
  rw [begun_eq_onto]
  exact inside_onto_iff.mpr ⟨s', inside, rfl⟩

theorem Inside.exchange_returned {K K' : Stack} {env' : Env}
    (inside : Inside table K n (begun e env K) h ⟨.returning v, env', K⟩ h') :
    Inside table K' n (begun e env K') h ⟨.returning v, env', K'⟩ h' := by
  obtain ⟨above, hstack, inside⟩ : ∃ above, K = above ++ K ∧
      Inside table K' n (begun e env K') h ⟨.returning v, env', above ++ K'⟩ h' := inside.exchange
  rwa [Stack.append_eq_right_iff.mp hstack.symm, Stack.empty_append] at inside

/-- An evaluation never looks at the frames below it, nor changes them. On any two stacks
it comes back after the same number of steps, with the same value, environment and heap;
on the way it has the same frames on top and these stacks below, in the same state
otherwise; and it fails before it comes back on both or on neither, after the same number
of steps, for the same reason and with the same heap. -/
theorem frames_below_untouched (table : Table) (e : Expr) (env : Env) (h : Heap)
    (K K' : Stack) (n : Nat) :
    (∀ v env' h', Inside table K n (begun e env K) h ⟨.returning v, env', K⟩ h' ↔
      Inside table K' n (begun e env K') h ⟨.returning v, env', K'⟩ h') ∧
    (∀ t h', Inside table K n (begun e env K) h t h' →
      ∃ above, t.stack = above ++ K ∧
        Inside table K' n (begun e env K') h ⟨t.control, t.env, above ++ K'⟩ h') ∧
    (∀ err h', FailsInside table K n (begun e env K) h err h' ↔
      FailsInside table K' n (begun e env K') h err h') := by
  refine ⟨fun v env' h' => ⟨.exchange_returned, .exchange_returned⟩,
    fun t h' inside => inside.exchange, fun err h' => ?_⟩
  exact failsInside_begun_iff.trans failsInside_begun_iff.symm

/-- A call of a primitive at the end of a program and, with the same steps, in the midst of
an assignment. -/
theorem frames_below_untouched_increment :
    Inside .standard (Stack.empty.push (.halt 0)) 3
      (begun (.primApp "add1" [.datum (.integer 1)]) 0 (Stack.empty.push (.halt 0))) {}
      ⟨.returning (.integer 2), 0, Stack.empty.push (.halt 0)⟩ {} ∧
    Inside .standard ((Stack.empty.push (.halt 0)).push (.assign 0 "x")) 3
      (begun (.primApp "add1" [.datum (.integer 1)]) 0
        ((Stack.empty.push (.halt 0)).push (.assign 0 "x"))) {}
      ⟨.returning (.integer 2), 0, (Stack.empty.push (.halt 0)).push (.assign 0 "x")⟩ {} := by
  have last : Inside .standard (Stack.empty.push (.halt 0)) 3
      (begun (.primApp "add1" [.datum (.integer 1)]) 0 (Stack.empty.push (.halt 0))) {}
      ⟨.returning (.integer 2), 0, Stack.empty.push (.halt 0)⟩ {} := by
    refine ⟨.step State.running_evaluating rfl (.step State.running_evaluating rfl
      (.one State.running_returning rfl)), ?_⟩
    refine unreturned_succ (fun v ⟨_, h⟩ => nomatch h) ?_
    rintro _ _ - ⟨⟩
    refine unreturned_succ (fun v ⟨_, h⟩ => nomatch h) ?_
    rintro _ _ - ⟨⟩
    exact unreturned_succ (fun v ⟨_, h⟩ => nomatch h) fun _ _ _ _ => nofun
  exact ⟨last, ((frames_below_untouched _ _ _ _ _ _ _).1 _ _ _).mp last⟩

end Machine

end CoreLisp
