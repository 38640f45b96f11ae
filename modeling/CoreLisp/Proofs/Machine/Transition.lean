import CoreLisp.Machine.Step
import CoreLisp.Proofs.Heap.Operations

/-!
# All that a step can do

`Transition` lists the ways in which a step succeeds and `Failure` those in
which it fails, with the guards that a step tests and the operations on the heap
that it performs. A step is exactly one of these, so what a step keeps is shown
by going through the list, and the machine itself is not unfolded again.
-/
namespace CoreLisp.Machine

/-- A step from the first state over the first heap to the second over the
second. -/
inductive Transition (table : Table) : State → Heap → State → Heap → Prop
  | datum :
      Transition table ⟨.evaluating (.datum d), env, stack⟩ h ⟨.returning d.value, env, stack⟩ h
  | ref : Env.lookup env x h = .ok v h' →
      Transition table ⟨.evaluating (.ref x), env, stack⟩ h ⟨.returning v, env, stack⟩ h'
  | lambda : Closure.new params body env h = .ok f h' →
      Transition table ⟨.evaluating (.lambda params body), env, stack⟩ h
        ⟨.returning (.procedure f), env, stack⟩ h'
  | cond :
      Transition table ⟨.evaluating (.cond test conseq alt), env, stack⟩ h
        ⟨.evaluating test, env, stack.push (.cond env conseq alt)⟩ h
  | assign :
      Transition table ⟨.evaluating (.assign x rhs), env, stack⟩ h
        ⟨.evaluating rhs, env, stack.push (.assign env x)⟩ h
  | seqOne :
      Transition table ⟨.evaluating (.seq [e]), env, stack⟩ h ⟨.evaluating e, env, stack⟩ h
  | seqFirst :
      Transition table ⟨.evaluating (.seq (first :: second :: rest)), env, stack⟩ h
        ⟨.evaluating first, env, stack.push (.seq env (first :: second :: rest) 1)⟩ h
  | letNone :
      Transition table ⟨.evaluating (.letIn [] [] body), env, stack⟩ h
        ⟨.evaluating body, env, stack⟩ h
  | letFirst {names : List Name} : names.length = (first :: rest).length →
      Transition table ⟨.evaluating (.letIn names (first :: rest) body), env, stack⟩ h
        ⟨.evaluating first, env, stack.push (.letIn env names (first :: rest) body [])⟩ h
  | letRecFirst {inner : Env} {names : List Name} {stack : Stack} :
      names.length = (first :: rest).length →
      Env.extend env names (names.map fun _ => .undefined) h = .ok inner h' →
      Transition table ⟨.evaluating (.letRec names (first :: rest) body), env, stack⟩ h
        ⟨.evaluating first, inner, stack.push (.letRec inner names (first :: rest) body [])⟩ h'
  | primNone : table.apply name [] h = .ok v h' →
      Transition table ⟨.evaluating (.primApp name []), env, stack⟩ h
        ⟨.returning v, env, stack⟩ h'
  | primFirst :
      Transition table ⟨.evaluating (.primApp name (first :: rest)), env, stack⟩ h
        ⟨.evaluating first, env, stack.push (.primApp env name (first :: rest) [])⟩ h
  | app :
      Transition table ⟨.evaluating (.app rator rands), env, stack⟩ h
        ⟨.evaluating rator, env, stack.push (.operator env rands)⟩ h
  | halt {stack : Stack} :
      Transition table ⟨.returning v, env, stack.push (.halt root)⟩ h ⟨.halted v, root, stack⟩ h
  | chosen {stack : Stack} :
      Transition table ⟨.returning v, env, stack.push (.cond outer conseq alt)⟩ h
        ⟨.evaluating (if v.isTruthy then conseq else alt), outer, stack⟩ h
  | assigned {stack : Stack} : Env.assign outer x v h = .ok u h' →
      Transition table ⟨.returning v, env, stack.push (.assign outer x)⟩ h
        ⟨.returning .unit, outer, stack⟩ h'
  | seqNext {body : List Expr} {stack : Stack} :
      body[index]? = some next → index + 1 < body.length →
      Transition table ⟨.returning v, env, stack.push (.seq outer body index)⟩ h
        ⟨.evaluating next, outer, stack.push (.seq outer body (index + 1))⟩ h
  | seqLast {body : List Expr} {stack : Stack} :
      body[index]? = some next → ¬ index + 1 < body.length →
      Transition table ⟨.returning v, env, stack.push (.seq outer body index)⟩ h
        ⟨.evaluating next, outer, stack⟩ h
  | seqPast {body : List Expr} {stack : Stack} : body[index]? = none →
      Transition table ⟨.returning v, env, stack.push (.seq outer body index)⟩ h
        ⟨.returning v, outer, stack⟩ h
  | letNext {values : List Value} {stack : Stack} : inits[values.length + 1]? = some next →
      Transition table ⟨.returning v, env, stack.push (.letIn outer names inits body values)⟩ h
        ⟨.evaluating next, outer, stack.push (.letIn outer names inits body (values ++ [v]))⟩ h
  | letDone {inner : Env} {values : List Value} {stack : Stack} : inits[values.length + 1]? = none →
      Env.extend outer names (values ++ [v]) h = .ok inner h' →
      Transition table ⟨.returning v, env, stack.push (.letIn outer names inits body values)⟩ h
        ⟨.evaluating body, inner, stack⟩ h'
  | letRecNext {inner : Env} {values : List Value} {stack : Stack} :
      inits[values.length + 1]? = some next →
      Transition table ⟨.returning v, env, stack.push (.letRec inner names inits body values)⟩ h
        ⟨.evaluating next, inner, stack.push (.letRec inner names inits body (values ++ [v]))⟩ h
  | letRecDone {inner : Env} {names : List Name} {values : List Value} {stack : Stack} :
      inits[values.length + 1]? = none →
      Env.assignAll inner (names.zip (values ++ [v])) h = .ok u h' →
      Transition table ⟨.returning v, env, stack.push (.letRec inner names inits body values)⟩ h
        ⟨.evaluating body, inner, stack⟩ h'
  | primNext {values : List Value} {stack : Stack} : rands[values.length + 1]? = some next →
      Transition table ⟨.returning v, env, stack.push (.primApp outer name rands values)⟩ h
        ⟨.evaluating next, outer, stack.push (.primApp outer name rands (values ++ [v]))⟩ h
  | primDone {values : List Value} {stack : Stack} :
      rands[values.length + 1]? = none → table.apply name (values ++ [v]) h = .ok w h' →
      Transition table ⟨.returning v, env, stack.push (.primApp outer name rands values)⟩ h
        ⟨.returning w, outer, stack⟩ h'
  | callNone {inner : Env} {f : Closure} {stack : Stack} :
      f.params.length = 0 → Env.extend f.env f.params [] h = .ok inner h' →
      Transition table ⟨.returning (.procedure f), env, stack.push (.operator outer [])⟩ h
        ⟨.evaluating f.body, inner, stack⟩ h'
  | operandFirst {stack : Stack} :
      Transition table ⟨.returning v, env, stack.push (.operator outer (first :: rest))⟩ h
        ⟨.evaluating first, outer, stack.push (.operand outer (first :: rest) v [])⟩ h
  | operandNext {values : List Value} {stack : Stack} : rands[values.length + 1]? = some next →
      Transition table ⟨.returning v, env, stack.push (.operand outer rands operator values)⟩ h
        ⟨.evaluating next, outer, stack.push (.operand outer rands operator (values ++ [v]))⟩ h
  | call {inner : Env} {f : Closure} {values : List Value} {stack : Stack} :
      rands[values.length + 1]? = none →
      (values ++ [v]).length = f.params.length →
      Env.extend f.env f.params (values ++ [v]) h = .ok inner h' →
      Transition table
        ⟨.returning v, env, stack.push (.operand outer rands (.procedure f) values)⟩ h
        ⟨.evaluating f.body, inner, stack⟩ h'
  | halted : Transition table ⟨.halted v, env, stack⟩ h ⟨.halted v, env, stack⟩ h

/-- A step from the state over the first heap that fails and leaves the second. -/
inductive Failure (table : Table) : State → Heap → EvalError → Heap → Prop
  | ref : Env.lookup env x h = .error e h' →
      Failure table ⟨.evaluating (.ref x), env, stack⟩ h e h'
  | seqEmpty : Failure table ⟨.evaluating (.seq []), env, stack⟩ h (.malformed .emptySequence) h
  | letLengths {names : List Name} : names.length ≠ inits.length →
      Failure table ⟨.evaluating (.letIn names inits body), env, stack⟩ h
        (.malformed .letLengths) h
  | letRecLengths {names : List Name} : names.length ≠ inits.length →
      Failure table ⟨.evaluating (.letRec names inits body), env, stack⟩ h
        (.malformed .letRecLengths) h
  | letRecEmpty :
      Failure table ⟨.evaluating (.letRec [] [] body), env, stack⟩ h (.malformed .letRecEmpty) h
  | letRecFirst {names : List Name} : names.length = (first :: rest).length →
      Env.extend env names (names.map fun _ => .undefined) h = .error e h' →
      Failure table ⟨.evaluating (.letRec names (first :: rest) body), env, stack⟩ h e h'
  | primNone : table.apply name [] h = .error e h' →
      Failure table ⟨.evaluating (.primApp name []), env, stack⟩ h e h'
  | exhausted :
      Failure table ⟨.returning v, env, Stack.empty⟩ h (.malformed .stackExhausted) h
  | assigned {stack : Stack} : Env.assign outer x v h = .error e h' →
      Failure table ⟨.returning v, env, stack.push (.assign outer x)⟩ h e h'
  | letDone {values : List Value} {stack : Stack} : inits[values.length + 1]? = none →
      Env.extend outer names (values ++ [v]) h = .error e h' →
      Failure table ⟨.returning v, env, stack.push (.letIn outer names inits body values)⟩ h e h'
  | letRecDone {inner : Env} {names : List Name} {values : List Value} {stack : Stack} :
      inits[values.length + 1]? = none →
      Env.assignAll inner (names.zip (values ++ [v])) h = .error e h' →
      Failure table ⟨.returning v, env, stack.push (.letRec inner names inits body values)⟩ h e h'
  | primDone {values : List Value} {stack : Stack} : rands[values.length + 1]? = none →
      table.apply name (values ++ [v]) h = .error e h' →
      Failure table ⟨.returning v, env, stack.push (.primApp outer name rands values)⟩ h e h'
  | callNone {stack : Stack} : applyProcedure operator [] stack h = .error e h' →
      Failure table ⟨.returning operator, env, stack.push (.operator outer [])⟩ h e h'
  | call {values : List Value} {stack : Stack} : rands[values.length + 1]? = none →
      applyProcedure operator (values ++ [v]) stack h = .error e h' →
      Failure table ⟨.returning v, env, stack.push (.operand outer rands operator values)⟩ h e h'

theorem transition_of_visit {table : Table} {e : Expr} {env : Env} {stack : Stack} {s' : State}
    {h h' : Heap} (hs : visit table e env stack h = .ok s' h') :
    Transition table ⟨.evaluating e, env, stack⟩ h s' h' := by
  cases e with
  | datum d =>
      cases hs
      exact .datum
  | ref x =>
      obtain ⟨v, h₁, hv, hs⟩ := Action.bind_eq_ok_iff.mp hs
      cases hs
      exact .ref hv
  | lambda params body =>
      cases hs
      exact .lambda rfl
  | cond test conseq alt =>
      cases hs
      exact .cond
  | assign x rhs =>
      cases hs
      exact .assign
  | seq body =>
      match body with
      | [] => cases hs
      | [e] =>
          cases hs
          exact .seqOne
      | first :: second :: rest =>
          cases hs
          exact .seqFirst
  | letIn names inits body =>
      simp only [visit] at hs
      split at hs
      · cases hs
      · rename_i hlen
        cases inits with
        | nil =>
            cases hs
            obtain rfl : names = [] := List.length_eq_zero_iff.mp (Decidable.not_not.mp hlen)
            exact .letNone
        | cons first rest =>
            cases hs
            exact .letFirst (Decidable.not_not.mp hlen)
  | letRec names inits body =>
      simp only [visit] at hs
      split at hs
      · cases hs
      · rename_i hlen
        cases inits with
        | nil => cases hs
        | cons first rest =>
            obtain ⟨inner, h₁, hx, hs⟩ := Action.bind_eq_ok_iff.mp hs
            cases hs
            exact .letRecFirst (Decidable.not_not.mp hlen) hx
  | primApp name rands =>
      cases rands with
      | nil =>
          obtain ⟨v, h₁, hv, hs⟩ := Action.bind_eq_ok_iff.mp hs
          cases hs
          exact .primNone hv
      | cons first rest =>
          cases hs
          exact .primFirst
  | app rator rands =>
      cases hs
      exact .app

theorem applyProcedure_eq_ok_iff {operator : Value} {args : List Value} {stack : Stack}
    {s' : State} {h h' : Heap} :
    applyProcedure operator args stack h = .ok s' h' ↔
      ∃ f inner, operator = .procedure f ∧ args.length = f.params.length ∧
        Env.extend f.env f.params args h = .ok inner h' ∧
        s' = ⟨.evaluating f.body, inner, stack⟩ := by
  constructor
  · intro hs
    cases operator with
    | procedure f =>
        simp only [applyProcedure] at hs
        split at hs
        · rename_i hlen
          obtain ⟨inner, h₁, hx, hs⟩ := Action.bind_eq_ok_iff.mp hs
          cases hs
          exact ⟨f, inner, rfl, hlen, hx, rfl⟩
        · cases hs
    | _ => cases hs
  · intro hs
    obtain ⟨f, inner, rfl, hlen, hx, rfl⟩ := hs
    simp only [applyProcedure, if_pos hlen]
    exact Action.bind_eq_ok_iff.mpr ⟨inner, h', hx, rfl⟩

/-- A call fails for the number of arguments or because there is nothing to call;
otherwise only the names of the parameters can be at fault. -/
theorem applyProcedure_error {operator : Value} {args : List Value} {stack : Stack}
    {e : EvalError} {h h' : Heap} (fail : applyProcedure operator args stack h = .error e h') :
    (∃ n m, e = .arity n m) ∨ (∃ d, e = .notAProcedure d) ∨
      ∃ f, operator = .procedure f ∧ ¬ f.params.Nodup ∧ e = .malformed .duplicateNames := by
  cases operator with
  | procedure f =>
      by_cases hlen : args.length = f.params.length
      · simp only [applyProcedure, if_pos hlen] at fail
        rcases Action.bind_eq_error_iff.mp fail with hx | ⟨_, _, _, hx⟩
        · obtain ⟨-, lengths | ⟨-, hdup, he⟩⟩ := Env.extend_eq_error_iff.mp hx
          · exact absurd hlen.symm lengths.1
          · exact .inr (.inr ⟨f, rfl, hdup, he⟩)
        · cases hx
      · simp only [applyProcedure, if_neg hlen] at fail
        cases fail
        exact .inl ⟨_, _, rfl⟩
  | _ =>
      cases fail
      exact .inr (.inl ⟨_, rfl⟩)

theorem heap_of_applyProcedure_error {operator : Value} {args : List Value} {stack : Stack}
    {e : EvalError} {h h' : Heap} (fail : applyProcedure operator args stack h = .error e h') :
    h' = h := by
  cases operator with
  | procedure f =>
      by_cases hlen : args.length = f.params.length
      · simp only [applyProcedure, if_pos hlen] at fail
        rcases Action.bind_eq_error_iff.mp fail with hx | ⟨_, _, _, hx⟩
        · exact (Env.extend_eq_error_iff.mp hx).1
        · cases hx
      · simp only [applyProcedure, if_neg hlen] at fail
        cases fail
        rfl
  | _ =>
      cases fail
      rfl

theorem transition_of_resume {table : Table} {k : Kont} {v : Value} {env : Env} {stack : Stack}
    {s' : State} {h h' : Heap} (hs : resume table k v stack h = .ok s' h') :
    Transition table ⟨.returning v, env, stack.push k⟩ h s' h' := by
  cases k with
  | halt root =>
      cases hs
      exact .halt
  | cond outer conseq alt =>
      cases hs
      exact .chosen
  | assign outer x =>
      obtain ⟨u, h₁, hx, hs⟩ := Action.bind_eq_ok_iff.mp hs
      cases hs
      exact .assigned hx
  | seq outer body index =>
      cases hnext : body[index]? with
      | none =>
          simp only [resume, hnext] at hs
          cases hs
          exact .seqPast hnext
      | some next =>
          simp only [resume, hnext] at hs
          by_cases hlt : index + 1 < body.length
          · rw [if_pos hlt] at hs
            cases hs
            exact .seqNext hnext hlt
          · rw [if_neg hlt] at hs
            cases hs
            exact .seqLast hnext hlt
  | letIn outer names inits body values =>
      cases hnext : inits[values.length + 1]? with
      | none =>
          simp only [resume, hnext] at hs
          obtain ⟨inner, h₁, hx, hs⟩ := Action.bind_eq_ok_iff.mp hs
          cases hs
          exact .letDone hnext hx
      | some next =>
          simp only [resume, hnext] at hs
          cases hs
          exact .letNext hnext
  | letRec inner names inits body values =>
      cases hnext : inits[values.length + 1]? with
      | none =>
          simp only [resume, hnext] at hs
          obtain ⟨u, h₁, hx, hs⟩ := Action.bind_eq_ok_iff.mp hs
          cases hs
          exact .letRecDone hnext hx
      | some next =>
          simp only [resume, hnext] at hs
          cases hs
          exact .letRecNext hnext
  | primApp outer name rands values =>
      cases hnext : rands[values.length + 1]? with
      | none =>
          simp only [resume, hnext] at hs
          obtain ⟨w, h₁, hw, hs⟩ := Action.bind_eq_ok_iff.mp hs
          cases hs
          exact .primDone hnext hw
      | some next =>
          simp only [resume, hnext] at hs
          cases hs
          exact .primNext hnext
  | operator outer rands =>
      cases rands with
      | nil =>
          obtain ⟨f, inner, rfl, hlen, hx, rfl⟩ := applyProcedure_eq_ok_iff.mp hs
          exact .callNone hlen.symm hx
      | cons first rest =>
          cases hs
          exact .operandFirst
  | operand outer rands operator values =>
      cases hnext : rands[values.length + 1]? with
      | none =>
          simp only [resume, hnext] at hs
          obtain ⟨f, inner, rfl, hlen, hx, rfl⟩ := applyProcedure_eq_ok_iff.mp hs
          exact .call hnext hlen hx
      | some next =>
          simp only [resume, hnext] at hs
          cases hs
          exact .operandNext hnext

/-- The machine halts by resuming the end of the program, which leaves the heap alone. -/
theorem Transition.halting {table : Table} {s s' : State} {h h' : Heap} {v : Value}
    (t : Transition table s h s' h') (running : ∀ v, s.control ≠ .halted v)
    (hv : s'.control = .halted v) :
    ∃ env root below, s = ⟨.returning v, env, Stack.push (.halt root) below⟩ ∧
      s'.stack = below ∧ h' = h := by
  cases t with
  | halt =>
      cases hv
      exact ⟨_, _, _, rfl, rfl, rfl⟩
  | halted => exact absurd rfl (running _)
  | _ => cases hv

theorem step_eq_ok_iff {table : Table} {s s' : State} {h h' : Heap} :
    step table s h = .ok s' h' ↔ Transition table s h s' h' := by
  constructor
  · intro hs
    obtain ⟨control, env, stack⟩ := s
    cases control with
    | evaluating e => exact transition_of_visit hs
    | returning v =>
        cases hpop : stack.pop? with
        | none =>
            simp only [step, hpop] at hs
            cases hs
        | some top =>
            obtain ⟨k, below⟩ := top
            simp only [step, hpop] at hs
            rw [Stack.pop?_eq_some_iff.mp hpop]
            exact transition_of_resume hs
    | halted v =>
        cases hs
        exact .halted
  · intro t
    cases t with
    | ref hv | lambda hv | primNone hv => exact Action.bind_eq_ok_iff.mpr ⟨_, _, hv, rfl⟩
    | letFirst hlen =>
        simp only [step, visit, if_neg (Decidable.not_not.mpr hlen)]
        rfl
    | letRecFirst hlen hx =>
        simp only [step, visit, if_neg (Decidable.not_not.mpr hlen)]
        exact Action.bind_eq_ok_iff.mpr ⟨_, _, hx, rfl⟩
    | halt | chosen | operandFirst => simp [step, resume]
    | assigned hx =>
        simp only [step, Stack.pop?_push, resume]
        exact Action.bind_eq_ok_iff.mpr ⟨_, _, hx, rfl⟩
    | seqNext hnext hlt =>
        simp only [step, Stack.pop?_push, resume, hnext, if_pos hlt]
        rfl
    | seqLast hnext hlt =>
        simp only [step, Stack.pop?_push, resume, hnext, if_neg hlt]
        rfl
    | seqPast hnext | letNext hnext | letRecNext hnext | primNext hnext | operandNext hnext =>
        simp only [step, Stack.pop?_push, resume, hnext]
        rfl
    | letDone hnext hx | letRecDone hnext hx | primDone hnext hx =>
        simp only [step, Stack.pop?_push, resume, hnext]
        exact Action.bind_eq_ok_iff.mpr ⟨_, _, hx, rfl⟩
    | callNone hlen hx =>
        simp only [step, Stack.pop?_push, resume]
        exact applyProcedure_eq_ok_iff.mpr ⟨_, _, rfl, hlen.symm, hx, rfl⟩
    | call hnext hlen hx =>
        simp only [step, Stack.pop?_push, resume, hnext]
        exact applyProcedure_eq_ok_iff.mpr ⟨_, _, rfl, hlen, hx, rfl⟩
    | _ => rfl

theorem applyPrimitive_eq_error_iff {table : Table} {name : Name} {args : List Value} {env : Env}
    {stack : Stack} {e : EvalError} {h h' : Heap} :
    applyPrimitive table name args env stack h = .error e h' ↔
      table.apply name args h = .error e h' := by
  unfold applyPrimitive
  rw [Action.bind_eq_error_iff]
  simp

theorem failure_of_visit {table : Table} {x : Expr} {env : Env} {stack : Stack} {e : EvalError}
    {h h' : Heap} (hs : visit table x env stack h = .error e h') :
    Failure table ⟨.evaluating x, env, stack⟩ h e h' := by
  cases x with
  | ref x =>
      rcases Action.bind_eq_error_iff.mp hs with hx | ⟨_, _, _, hs⟩
      · exact .ref hx
      · cases hs
  | seq body =>
      match body with
      | [] =>
          cases hs
          exact .seqEmpty
      | [_] | _ :: _ :: _ => cases hs
  | letIn names inits body =>
      by_cases hlen : names.length ≠ inits.length
      · simp only [visit, if_pos hlen] at hs
        cases hs
        exact .letLengths hlen
      · simp only [visit, if_neg hlen] at hs
        cases inits <;> cases hs
  | letRec names inits body =>
      by_cases hlen : names.length ≠ inits.length
      · simp only [visit, if_pos hlen] at hs
        cases hs
        exact .letRecLengths hlen
      · simp only [visit, if_neg hlen] at hs
        have hlen : names.length = inits.length := Decidable.not_not.mp hlen
        cases inits with
        | nil =>
            cases hs
            obtain rfl : names = [] := List.length_eq_zero_iff.mp hlen
            exact .letRecEmpty
        | cons first rest =>
            rcases Action.bind_eq_error_iff.mp hs with hx | ⟨_, _, _, hs⟩
            · exact .letRecFirst hlen hx
            · cases hs
  | primApp name rands =>
      cases rands with
      | nil => exact .primNone (applyPrimitive_eq_error_iff.mp hs)
      | cons first rest => cases hs
  | _ => cases hs

theorem failure_of_resume {table : Table} {k : Kont} {v : Value} {env : Env} {stack : Stack}
    {e : EvalError} {h h' : Heap} (hs : resume table k v stack h = .error e h') :
    Failure table ⟨.returning v, env, stack.push k⟩ h e h' := by
  cases k with
  | halt | cond => cases hs
  | assign outer x =>
      rcases Action.bind_eq_error_iff.mp hs with hx | ⟨_, _, _, hs⟩
      · exact .assigned hx
      · cases hs
  | seq outer body index =>
      cases hnext : body[index]? with
      | none =>
          simp only [resume, hnext] at hs
          cases hs
      | some next =>
          simp only [resume, hnext] at hs
          by_cases hlt : index + 1 < body.length
          · rw [if_pos hlt] at hs
            cases hs
          · rw [if_neg hlt] at hs
            cases hs
  | letIn outer names inits body values =>
      cases hnext : inits[values.length + 1]? with
      | none =>
          simp only [resume, hnext] at hs
          rcases Action.bind_eq_error_iff.mp hs with hx | ⟨_, _, _, hs⟩
          · exact .letDone hnext hx
          · cases hs
      | some next =>
          simp only [resume, hnext] at hs
          cases hs
  | letRec inner names inits body values =>
      cases hnext : inits[values.length + 1]? with
      | none =>
          simp only [resume, hnext] at hs
          rcases Action.bind_eq_error_iff.mp hs with hx | ⟨_, _, _, hs⟩
          · exact .letRecDone hnext hx
          · cases hs
      | some next =>
          simp only [resume, hnext] at hs
          cases hs
  | primApp outer name rands values =>
      cases hnext : rands[values.length + 1]? with
      | none =>
          simp only [resume, hnext] at hs
          exact .primDone hnext (applyPrimitive_eq_error_iff.mp hs)
      | some next =>
          simp only [resume, hnext] at hs
          cases hs
  | operator outer rands =>
      cases rands with
      | nil => exact .callNone hs
      | cons first rest => cases hs
  | operand outer rands operator values =>
      cases hnext : rands[values.length + 1]? with
      | none =>
          simp only [resume, hnext] at hs
          exact .call hnext hs
      | some next =>
          simp only [resume, hnext] at hs
          cases hs

theorem step_eq_error_iff {table : Table} {s : State} {e : EvalError} {h h' : Heap} :
    step table s h = .error e h' ↔ Failure table s h e h' := by
  constructor
  · intro hs
    obtain ⟨control, env, stack⟩ := s
    cases control with
    | evaluating x => exact failure_of_visit hs
    | returning v =>
        cases hpop : stack.pop? with
        | none =>
            simp only [step, hpop] at hs
            cases hs
            rw [Stack.pop?_eq_none_iff.mp hpop]
            exact .exhausted
        | some top =>
            obtain ⟨k, below⟩ := top
            simp only [step, hpop] at hs
            rw [Stack.pop?_eq_some_iff.mp hpop]
            exact failure_of_resume hs
    | halted v => cases hs
  · intro f
    cases f with
    | seqEmpty | letRecEmpty | exhausted => rfl
    | ref hx => exact Action.bind_eq_error_iff.mpr (.inl hx)
    | letLengths hlen | letRecLengths hlen =>
        simp only [step, visit, if_pos hlen]
        rfl
    | letRecFirst hlen hx =>
        simp only [step, visit, if_neg (Decidable.not_not.mpr hlen)]
        exact Action.bind_eq_error_iff.mpr (.inl hx)
    | primNone hx => exact applyPrimitive_eq_error_iff.mpr hx
    | assigned hx =>
        simp only [step, Stack.pop?_push, resume]
        exact Action.bind_eq_error_iff.mpr (.inl hx)
    | letDone hnext hx | letRecDone hnext hx =>
        simp only [step, Stack.pop?_push, resume, hnext]
        exact Action.bind_eq_error_iff.mpr (.inl hx)
    | primDone hnext hx =>
        simp only [step, Stack.pop?_push, resume, hnext]
        exact applyPrimitive_eq_error_iff.mpr hx
    | callNone hx =>
        simp only [step, Stack.pop?_push, resume]
        exact hx
    | call hnext hx =>
        simp only [step, Stack.pop?_push, resume, hnext]
        exact hx

end CoreLisp.Machine
