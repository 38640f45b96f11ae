import CoreLisp.Proofs.Evaluation.Basic
import CoreLisp.Proofs.Machine.Steps

/-!
# The machine computes the values of direct evaluation

`Follows` compares a run with an outcome of direct evaluation: a value is
returned to the stack that the run began on, a failure ends the run in the same
way and over the same heap, and an evaluation without enough fuel means a run of
at least as many steps. The stack is arbitrary, so the comparison carries over to
the parts of an expression, which are evaluated on longer stacks. The step that
visits an expression pays for the unit of fuel that its parts do not get.

The third case is what makes the comparison complete. A run that ends has a
number of steps, and evaluation with more fuel than that cannot run out of it, so
it gives an outcome, which the run follows.
-/
namespace CoreLisp

open Evaluation

namespace Machine

variable {table : Table} {fuel : Nat} {s s₁ : State} {h h₁ : Heap} {stack : Stack} {env : Env}
variable {α β : Type}

/-- The run from `s` does what the outcome says, and comes to a `goal` state when
there is a result. -/
def Follows (table : Table) (fuel : Nat) (s : State) (h : Heap) (goal : α → State → Prop) :
    EStateM.Result Stop Heap α → Prop
  | .ok x h' => ∃ n s', Steps table n s h s' h' ∧ goal x s'
  | .error (.failed e) h' => ∃ n, Ends table n s h (.error e h')
  | .error .outOfFuel _ => ∃ n s' h', fuel ≤ n ∧ Steps table n s h s' h'

/-- The value has come back to `stack`. -/
def Returned (stack : Stack) (v : Value) (s : State) : Prop :=
  ∃ env, s = ⟨.returning v, env, stack⟩

/-- All values have been gathered, and the next step uses them. -/
def Ready (table : Table) (finish : List Value → Action State) (values : List Value)
    (s : State) : Prop :=
  s.Running ∧ step table s = finish values

theorem Follows.done {goal : α → State → Prop} {x : α} (hx : goal x s) :
    Follows table fuel s h goal (.ok x h) :=
  ⟨0, s, .done s h, hx⟩

/-- One step pays for one unit of fuel. -/
theorem Follows.step {goal : α → State → Prop} {r : EStateM.Result Stop Heap α}
    (running : s.Running) (hs : Machine.step table s h = .ok s₁ h₁)
    (rest : Follows table fuel s₁ h₁ goal r) : Follows table (fuel + 1) s h goal r := by
  match r, rest with
  | .ok _ _, ⟨n, s', run, hx⟩ => exact ⟨n + 1, s', .step running hs run, hx⟩
  | .error (.failed _) _, ⟨n, ending⟩ => exact ⟨n + 1, .step running hs ending⟩
  | .error .outOfFuel _, ⟨n, s', h', enough, run⟩ =>
      exact ⟨n + 1, s', h', Nat.succ_le_succ enough, .step running hs run⟩

theorem Follows.mono {goal : α → State → Prop} {r : EStateM.Result Stop Heap α} {less : Nat}
    (le : less ≤ fuel) (rest : Follows table fuel s h goal r) : Follows table less s h goal r := by
  match r, rest with
  | .ok _ _, rest => exact rest
  | .error (.failed _) _, rest => exact rest
  | .error .outOfFuel _, ⟨n, s', h', enough, run⟩ =>
      exact ⟨n, s', h', Nat.le_trans le enough, run⟩

theorem Follows.fail {goal : α → State → Prop} {e : EvalError} (running : s.Running)
    (hs : Machine.step table s h = .error e h₁) :
    Follows table fuel s h goal (.error (.failed e) h₁) :=
  ⟨1, .failed running hs⟩

/-- One evaluation after the other: the run of the second begins where the run of
the first has come to. -/
theorem Follows.bind {goal : α → State → Prop} {goal' : β → State → Prop} {x : Evaluation α}
    {f : α → Evaluation β} (first : Follows table fuel s h goal (x h))
    (second : ∀ a s' h', goal a s' → Follows table fuel s' h' goal' (f a h')) :
    Follows table fuel s h goal' ((x >>= f) h) := by
  change Follows table fuel s h goal' (EStateM.bind x f h)
  unfold EStateM.bind
  cases hx : x h with
  | ok a h' =>
      rw [hx] at first
      obtain ⟨n, s', run, ha⟩ := first
      have rest := second a s' h' ha
      simp only
      match f a h', rest with
      | .ok _ _, ⟨m, s₂, run', hb⟩ => exact ⟨n + m, s₂, run.trans run', hb⟩
      | .error (.failed _) _, ⟨m, ending⟩ => exact ⟨n + m, run.ends ending⟩
      | .error .outOfFuel _, ⟨m, s₂, h₂, enough, run'⟩ =>
          exact ⟨n + m, s₂, h₂, by omega, run.trans run'⟩
  | error e h' =>
      rw [hx] at first
      match e, first with
      | .failed e, first => exact first
      | .outOfFuel, first => exact first

/-- A step that is an operation on the heap. -/
theorem Follows.perform {goal : α → State → Prop} {a : Action α} (running : s.Running)
    (next : α → State) (hs : Machine.step table s = a >>= fun x => pure (next x))
    (hg : ∀ x, goal x (next x)) : Follows table fuel s h goal (perform a h) := by
  have hs : Machine.step table s h = EStateM.bind a (fun x => pure (next x)) h := by rw [hs]; rfl
  unfold EStateM.bind at hs
  unfold Evaluation.perform
  cases ha : a h with
  | ok x h' =>
      simp only [ha] at hs
      exact ⟨1, next x, .one running hs, hg x⟩
  | error e h' =>
      simp only [ha] at hs
      exact .fail running hs

/-- The frame takes in the values of `parts` from left to right, and with the
last of them it goes on to `finish`. -/
structure Gathers (table : Table) (env : Env) (parts : List Expr) (frame : List Value → Kont)
    (finish : List Value → Stack → Action State) : Prop where
  next : ∀ {values : List Value} {e : Expr} (v : Value) (stack : Stack),
    parts[values.length + 1]? = some e → resume table (frame values) v stack =
      pure ⟨.evaluating e, env, stack.push (frame (values ++ [v]))⟩
  last : ∀ {values : List Value} (v : Value) (stack : Stack),
    parts[values.length + 1]? = none → resume table (frame values) v stack =
      finish (values ++ [v]) stack

theorem gathers_letIn (table : Table) (env : Env) (names : List Name) (inits : List Expr)
    (body : Expr) : Gathers table env inits (.letIn env names inits body)
      (fun values stack => do
        let inner ← Env.extend env names values
        return ⟨.evaluating body, inner, stack⟩) := by
  constructor <;> intros <;> simp_all [resume]

theorem gathers_letRec (table : Table) (env : Env) (names : List Name) (inits : List Expr)
    (body : Expr) : Gathers table env inits (.letRec env names inits body)
      (fun values stack => do
        Env.assignAll env (names.zip values)
        return ⟨.evaluating body, env, stack⟩) := by
  constructor <;> intros <;> simp_all [resume]

theorem gathers_primApp (table : Table) (env : Env) (name : Name) (rands : List Expr) :
    Gathers table env rands (.primApp env name rands)
      (fun values stack => applyPrimitive table name values env stack) := by
  constructor <;> intros <;> simp_all [resume]

theorem gathers_operand (table : Table) (env : Env) (rands : List Expr) (operator : Value) :
    Gathers table env rands (.operand env rands operator) (applyProcedure operator) := by
  constructor <;> intros <;> simp_all [resume]

/-- Runs follow direct evaluation, whatever is on the stack. -/
def Agrees (table : Table) (fuel : Nat) : Prop :=
  ∀ (e : Expr) (env : Env) (stack : Stack) (h : Heap),
    Follows table fuel ⟨.evaluating e, env, stack⟩ h (Returned stack) (e.eval table fuel env h)

theorem step_returning (v : Value) (env : Env) (k : Kont) (stack : Stack) :
    step table ⟨.returning v, env, stack.push k⟩ = resume table k v stack := by
  simp only [step, Stack.pop?_push]

/-- Induction on the parts that are left; those before them have their values in
the frame. -/
theorem Gathers.follows {parts : List Expr} {frame : List Value → Kont}
    {finish : List Value → Stack → Action State} (gathers : Gathers table env parts frame finish)
    (agrees : Agrees table fuel) (stack : Stack) (h : Heap) (values : List Value)
    (before : List Expr) (e : Expr) (after : List Expr) (hp : parts = before ++ e :: after)
    (hl : before.length = values.length) :
    Follows table fuel ⟨.evaluating e, env, stack.push (frame values)⟩ h
      (fun ws => Ready table (fun vs => finish vs stack) (values ++ ws))
      ((e :: after).mapM (fun e => e.eval table fuel env) h) := by
  induction after generalizing h values before e with
  | nil =>
      rw [List.mapM_cons]
      refine (agrees e env _ h).bind ?_
      intro v s' h' hv
      obtain ⟨env', rfl⟩ := hv
      refine .done ⟨State.running_returning, ?_⟩
      have hlast : parts[values.length + 1]? = none := by simp [hp, ← hl]
      rw [step_returning, gathers.last v stack hlast]
      rfl
  | cons e' after ih =>
      rw [List.mapM_cons]
      refine (agrees e env _ h).bind ?_
      intro v s' h' hv
      obtain ⟨env', rfl⟩ := hv
      have hnext : parts[values.length + 1]? = some e' := by simp [hp, ← hl]
      have hs : step table ⟨.returning v, env', stack.push (frame values)⟩ h' =
          .ok ⟨.evaluating e', env, stack.push (frame (values ++ [v]))⟩ h' := by
        rw [step_returning, gathers.next v stack hnext]
        rfl
      have rest := ih h' (values ++ [v]) (before ++ [e]) e' (by simp [hp]) (by simp [hl])
      have rest := (rest.step State.running_returning hs).mono (Nat.le_succ fuel)
      refine rest.bind ?_
      intro ws s'' h'' hready
      refine .done ?_
      simpa using hready

/-- The stack on which an element of a sequence is evaluated: the last element
takes the place of the sequence. -/
def seqStack (env : Env) (body : List Expr) (index : Nat) (stack : Stack) : Stack :=
  if index < body.length then stack.push (.seq env body index) else stack

/-- Induction on the elements that are left. -/
theorem seq_follows (agrees : Agrees table fuel) {body : List Expr} (before : List Expr)
    (e : Expr) (after : List Expr) (hb : body = before ++ e :: after) :
    Follows table fuel
      ⟨.evaluating e, env, seqStack env body (before.length + 1) stack⟩ h
      (fun ws s' => ∃ v, ws.getLast? = some v ∧ Returned stack v s')
      ((e :: after).mapM (fun e => e.eval table fuel env) h) := by
  induction after generalizing before e h with
  | nil =>
      have hstack : seqStack env body (before.length + 1) stack = stack := by
        simp [seqStack, hb]
      rw [List.mapM_cons, hstack]
      refine (agrees e env stack h).bind ?_
      intro v s' h' hv
      exact .done ⟨v, rfl, hv⟩
  | cons e' after ih =>
      have hstack : seqStack env body (before.length + 1) stack =
          stack.push (.seq env body (before.length + 1)) := by
        simp [seqStack, hb]
      rw [List.mapM_cons, hstack]
      refine (agrees e env _ h).bind ?_
      intro v s' h' hv
      obtain ⟨env', rfl⟩ := hv
      have hnext : body[before.length + 1]? = some e' := by simp [hb]
      have hs : step table ⟨.returning v, env', stack.push (.seq env body (before.length + 1))⟩ h' =
          .ok ⟨.evaluating e', env, seqStack env body (before.length + 2) stack⟩ h' := by
        rw [step_returning]
        simp only [resume, hnext, seqStack]
        split <;> rfl
      have rest := ih (h := h') (before ++ [e]) e' (by simp [hb])
      rw [List.length_append, List.length_singleton] at rest
      have rest := (rest.step State.running_returning hs).mono (Nat.le_succ fuel)
      refine rest.bind ?_
      intro ws s'' h'' hlast
      obtain ⟨w, hw, hreturned⟩ := hlast
      refine .done ⟨w, ?_, hreturned⟩
      rw [List.getLast?_cons, hw]
      rfl

/-- Turning to a body when an operation on the heap has given its environment. -/
theorem Agrees.enter (agrees : Agrees table fuel) {a : Action α} (place : α → Env) {body : Expr}
    (running : s.Running)
    (hs : step table s = a >>= fun x => pure ⟨.evaluating body, place x, stack⟩) :
    Follows table fuel s h (Returned stack)
      ((perform a >>= fun x => body.eval table fuel (place x)) h) := by
  have entered : Follows table fuel s h (fun x t => t = ⟨.evaluating body, place x, stack⟩)
      (perform a h) := .perform running _ hs fun _ => rfl
  refine entered.bind ?_
  intro x t h' ht
  subst ht
  exact agrees body (place x) stack h'

/-- A call, once the operator and all operands have their values. -/
theorem Agrees.call (agrees : Agrees table fuel) {operator : Value} {args : List Value}
    (ready : Ready table (fun vs => applyProcedure operator vs stack) args s) :
    Follows table fuel s h (Returned stack)
      (call (Expr.eval table fuel) operator args h) := by
  obtain ⟨running, hs⟩ := ready
  unfold Evaluation.call
  cases operator with
  | procedure f =>
      simp only [applyProcedure] at hs ⊢
      split
      · rename_i hlen
        rw [if_pos hlen] at hs
        exact agrees.enter id running hs
      · rename_i hlen
        rw [if_neg hlen] at hs
        exact .fail running (by rw [hs]; rfl)
  | _ => exact .fail running (by rw [hs]; rfl)

theorem follows_cond (agrees : Agrees table fuel) (test conseq alt : Expr) :
    Follows table (fuel + 1) ⟨.evaluating (.cond test conseq alt), env, stack⟩ h (Returned stack)
      (Expr.eval table (fuel + 1) (.cond test conseq alt) env h) := by
  refine .step State.running_evaluating rfl ((agrees test env _ h).bind ?_)
  intro v s' h' hv
  obtain ⟨env', rfl⟩ := hv
  have hs : step table ⟨.returning v, env', stack.push (.cond env conseq alt)⟩ h' =
      .ok ⟨.evaluating (if v.isTruthy then conseq else alt), env, stack⟩ h' := by
    rw [step_returning]
    rfl
  cases hv : v.isTruthy with
  | false =>
      rw [hv] at hs
      rw [Value.isTruthy_eq_false_iff] at hv
      subst hv
      exact ((agrees alt env stack h').step State.running_returning hs).mono (Nat.le_succ fuel)
  | true =>
      rw [hv] at hs
      have rest := ((agrees conseq env stack h').step State.running_returning hs).mono
        (Nat.le_succ fuel)
      split
      · cases hv
      · exact rest

theorem follows_assign (agrees : Agrees table fuel) (x : Name) (rhs : Expr) :
    Follows table (fuel + 1) ⟨.evaluating (.assign x rhs), env, stack⟩ h (Returned stack)
      (Expr.eval table (fuel + 1) (.assign x rhs) env h) := by
  refine .step State.running_evaluating rfl ((agrees rhs env _ h).bind ?_)
  intro v s' h' hv
  obtain ⟨env', rfl⟩ := hv
  have hs : step table ⟨.returning v, env', stack.push (.assign env x)⟩ =
      Env.assign env x v >>= fun _ => pure ⟨.returning .unit, env, stack⟩ := by
    rw [step_returning]
    rfl
  have written : Follows table fuel ⟨.returning v, env', stack.push (.assign env x)⟩ h'
      (fun _ => Returned stack .unit) (perform (Env.assign env x v) h') :=
    .perform State.running_returning _ hs fun _ => ⟨env, rfl⟩
  exact written.bind fun _ _ _ hunit => .done hunit

theorem follows_seq (agrees : Agrees table fuel) (body : List Expr) :
    Follows table (fuel + 1) ⟨.evaluating (.seq body), env, stack⟩ h (Returned stack)
      (Expr.eval table (fuel + 1) (.seq body) env h) := by
  cases body with
  | nil => exact .fail State.running_evaluating rfl
  | cons first rest =>
      have hs : step table ⟨.evaluating (.seq (first :: rest)), env, stack⟩ h =
          .ok ⟨.evaluating first, env, seqStack env (first :: rest) 1 stack⟩ h := by
        cases rest with
        | nil => rfl
        | cons => simp [step, visit, seqStack, pure, EStateM.pure]
      refine .step State.running_evaluating hs
        ((seq_follows agrees [] first rest rfl).bind ?_)
      intro values s' h' hlast
      obtain ⟨v, hv, hreturned⟩ := hlast
      simp only [hv]
      exact .done hreturned

theorem follows_letIn (agrees : Agrees table fuel) (names : List Name) (inits : List Expr)
    (body : Expr) :
    Follows table (fuel + 1) ⟨.evaluating (.letIn names inits body), env, stack⟩ h
      (Returned stack) (Expr.eval table (fuel + 1) (.letIn names inits body) env h) := by
  have hs : step table ⟨.evaluating (.letIn names inits body), env, stack⟩ h =
      visit table (.letIn names inits body) env stack h := rfl
  unfold Expr.eval
  split
  · rename_i hlen
    simp only [visit, if_pos hlen] at hs
    exact .fail State.running_evaluating hs
  · rename_i hlen
    simp only [visit, if_neg hlen] at hs
    cases inits with
    | nil => exact .step State.running_evaluating hs (agrees body env stack h)
    | cons first rest =>
        have gathered := (gathers_letIn table env names (first :: rest) body).follows agrees
          stack h [] [] first rest rfl rfl
        refine .step State.running_evaluating hs (gathered.bind ?_)
        intro values s' h' ready
        exact agrees.enter id ready.1 ready.2

theorem follows_letRec (agrees : Agrees table fuel) (names : List Name) (inits : List Expr)
    (body : Expr) :
    Follows table (fuel + 1) ⟨.evaluating (.letRec names inits body), env, stack⟩ h
      (Returned stack) (Expr.eval table (fuel + 1) (.letRec names inits body) env h) := by
  have hs : step table ⟨.evaluating (.letRec names inits body), env, stack⟩ h =
      visit table (.letRec names inits body) env stack h := rfl
  unfold Expr.eval
  split
  · rename_i hlen
    simp only [visit, if_pos hlen] at hs
    exact .fail State.running_evaluating hs
  · rename_i hlen
    simp only [visit, if_neg hlen] at hs
    cases inits with
    | nil => exact .fail State.running_evaluating hs
    | cons first rest =>
        simp only [bind, EStateM.bind, perform] at hs ⊢
        cases hx : Env.extend env names (names.map fun _ => .undefined) h with
        | error e h' =>
            rw [hx] at hs
            exact .fail State.running_evaluating hs
        | ok inner h' =>
            rw [hx] at hs
            have gathered := (gathers_letRec table inner names (first :: rest) body).follows
              agrees stack h' [] [] first rest rfl rfl
            refine .step State.running_evaluating hs (gathered.bind ?_)
            intro values s' h₂ ready
            exact agrees.enter (fun _ => inner) ready.1 ready.2

theorem follows_primApp (agrees : Agrees table fuel) (name : Name) (rands : List Expr) :
    Follows table (fuel + 1) ⟨.evaluating (.primApp name rands), env, stack⟩ h (Returned stack)
      (Expr.eval table (fuel + 1) (.primApp name rands) env h) := by
  cases rands with
  | nil =>
      exact .perform State.running_evaluating (fun v => ⟨.returning v, env, stack⟩) rfl
        fun v => ⟨env, rfl⟩
  | cons first rest =>
      have gathered := (gathers_primApp table env name (first :: rest)).follows agrees
        stack h [] [] first rest rfl rfl
      refine .step State.running_evaluating rfl (gathered.bind ?_)
      intro args s' h' ready
      exact .perform ready.1 (fun v => ⟨.returning v, env, stack⟩) ready.2 fun v => ⟨env, rfl⟩

theorem follows_app (agrees : Agrees table fuel) (rator : Expr) (rands : List Expr) :
    Follows table (fuel + 1) ⟨.evaluating (.app rator rands), env, stack⟩ h (Returned stack)
      (Expr.eval table (fuel + 1) (.app rator rands) env h) := by
  refine .step State.running_evaluating rfl ((agrees rator env _ h).bind ?_)
  intro operator s' h' hv
  obtain ⟨env', rfl⟩ := hv
  cases rands with
  | nil => exact agrees.call ⟨State.running_returning, by rw [step_returning]; rfl⟩
  | cons first rest =>
      have hs : step table ⟨.returning operator, env', stack.push (.operator env (first :: rest))⟩
          h' = .ok ⟨.evaluating first, env,
            stack.push (.operand env (first :: rest) operator [])⟩ h' := by
        rw [step_returning]
        rfl
      have gathered := (gathers_operand table env (first :: rest) operator).follows
        agrees stack h' [] [] first rest rfl rfl
      have gathered := (gathered.step State.running_returning hs).mono (Nat.le_succ fuel)
      refine gathered.bind ?_
      intro args s'' h'' ready
      exact agrees.call ready

/-- Runs follow direct evaluation, with any fuel. -/
theorem agrees (table : Table) (fuel : Nat) : Agrees table fuel := by
  induction fuel with
  | zero => exact fun e env stack h => ⟨0, _, h, Nat.le_refl 0, .done _ h⟩
  | succ fuel ih =>
      intro e env stack h
      cases e with
      | datum d => exact ⟨1, _, .one State.running_evaluating rfl, env, rfl⟩
      | ref x =>
          exact .perform State.running_evaluating (fun v => ⟨.returning v, env, stack⟩) rfl
            fun v => ⟨env, rfl⟩
      | lambda params body => exact ⟨1, _, .one State.running_evaluating rfl, env, rfl⟩
      | cond test conseq alt => exact follows_cond ih test conseq alt
      | assign x rhs => exact follows_assign ih x rhs
      | seq body => exact follows_seq ih body
      | letIn names inits body => exact follows_letIn ih names inits body
      | letRec names inits body => exact follows_letRec ih names inits body
      | primApp name rands => exact follows_primApp ih name rands
      | app rator rands => exact follows_app ih rator rands

/-- The ending of a run as an outcome of direct evaluation. -/
def Ending.outcome : Ending → EStateM.Result Stop Heap Value
  | .ok v h => .ok v h
  | .error e h => .error (.failed e) h

theorem ends_of_eval {e : Expr} {a : Ending} (result : e.eval table fuel env h = a.outcome) :
    ∃ n, Ends table n (.initial e env) h a := by
  have follows := agrees table fuel e env (Stack.empty.push (.halt env)) h
  rw [result] at follows
  cases a with
  | ok v h' =>
      obtain ⟨n, s', run, env', rfl⟩ := follows
      have hs : step table ⟨.returning v, env', Stack.empty.push (.halt env)⟩ h' =
          .ok ⟨.halted v, env, Stack.empty⟩ h' := by
        rw [step_returning]
        rfl
      exact ⟨n + 1, run.ends (.step State.running_returning hs (.halted h' rfl))⟩
  | error err h' => exact follows

/-- With more fuel than the run has steps, direct evaluation gives the outcome of
the run. -/
theorem eval_of_ends {n : Nat} {e : Expr} {a : Ending}
    (ending : Ends table n (.initial e env) h a) (enough : n < fuel) :
    e.eval table fuel env h = a.outcome := by
  have same : ∀ b : Ending, e.eval table fuel env h = b.outcome →
      e.eval table fuel env h = a.outcome := by
    intro b hb
    obtain ⟨m, other⟩ := ends_of_eval hb
    rw [hb, (ending.unique other).2]
  have follows := agrees table fuel e env (Stack.empty.push (.halt env)) h
  cases result : e.eval table fuel env h with
  | ok v h' =>
      rw [← result]
      exact same (.ok v h') result
  | error stop h' =>
      cases stop with
      | failed err =>
          rw [← result]
          exact same (.error err h') result
      | outOfFuel =>
          -- the run would then be longer than it is
          rw [result] at follows
          obtain ⟨m, s', h₂, hm, run⟩ := follows
          have := run.le_of_ends ending
          omega

theorem evaluate_iff_eval (e : Expr) (h : Heap) (a : Ending) :
    (∃ fuel stats, evaluate table fuel e h = some (stats, a)) ↔
      ∃ fuel, e.eval table fuel h.newRoot.1 h.newRoot.2 = a.outcome := by
  constructor
  · intro run
    obtain ⟨fuel, run⟩ := run
    obtain ⟨n, -, ending⟩ := evaluate_eq_some_iff.mp run
    exact ⟨n + 1, eval_of_ends ending (Nat.lt_succ_self n)⟩
  · intro result
    obtain ⟨fuel, result⟩ := result
    obtain ⟨n, ending⟩ := ends_of_eval result
    exact ⟨n, evaluate_eq_some_iff.mpr ⟨n, Nat.le_refl n, ending⟩⟩

/-- The machine ends with a value or an error exactly when direct evaluation
does, and with the same one over the same heap. It goes on for ever exactly when
no fuel is enough for direct evaluation. -/
theorem evaluate_refines_eval (table : Table) (e : Expr) (h : Heap) :
    (∀ v h', (∃ fuel stats, evaluate table fuel e h = some (stats, .ok v h')) ↔
      ∃ fuel, e.eval table fuel h.newRoot.1 h.newRoot.2 = .ok v h') ∧
    (∀ err h', (∃ fuel stats, evaluate table fuel e h = some (stats, .error err h')) ↔
      ∃ fuel, e.eval table fuel h.newRoot.1 h.newRoot.2 = .error (.failed err) h') ∧
    ((∀ fuel, evaluate table fuel e h = none) ↔
      ∀ fuel, ∃ h', e.eval table fuel h.newRoot.1 h.newRoot.2 = .error .outOfFuel h') := by
  refine ⟨fun v h' => evaluate_iff_eval e h (.ok v h'),
    fun err h' => evaluate_iff_eval e h (.error err h'), ?_, ?_⟩
  · intro diverges fuel
    have never : ∀ a : Ending, e.eval table fuel h.newRoot.1 h.newRoot.2 ≠ a.outcome := by
      intro a result
      obtain ⟨fuel', stats, run⟩ := (evaluate_iff_eval e h a).mpr ⟨fuel, result⟩
      rw [diverges fuel'] at run
      cases run
    cases result : e.eval table fuel h.newRoot.1 h.newRoot.2 with
    | ok v h' => exact absurd result (never (.ok v h'))
    | error stop h' =>
        cases stop with
        | failed err => exact absurd result (never (.error err h'))
        | outOfFuel => exact ⟨h', rfl⟩
  · intro diverges fuel
    cases run : evaluate table fuel e h with
    | none => rfl
    | some answer =>
        obtain ⟨stats, a⟩ := answer
        obtain ⟨n, -, ending⟩ := evaluate_eq_some_iff.mp ⟨stats, run⟩
        obtain ⟨h', result⟩ := diverges (n + 1)
        rw [eval_of_ends ending (Nat.lt_succ_self n)] at result
        cases a <;> cases result

end Machine

end CoreLisp
