import CoreLisp.Machine.Log
import CoreLisp.Proofs.Machine.Steps
import CoreLisp.Proofs.Machine.Transition

/-!
# The machine in place

A step is a function from states to states elsewhere, and the counters and the log of a
run come from an observer that sees each state before its step. Here the machine changes
its registers in place. It counts a step when it begins it, notes the depth of the stack
whenever it pushes a frame, and writes each line of the log when it comes to it, so what
was noted and written before a failure stays.

Both come to the same. A frame is pushed last of all in a step, if at all, and the step
then does not fail; and the last frame is taken away before the machine halts.
-/
namespace CoreLisp

/-- What the machine keeps beside its control. The latest line of the log is the first. -/
structure Registers where
  heap : Heap
  env : Env
  stack : Stack
  stats : Stats
  log : List Event

/-- Notes that the stack has come to this depth. -/
def Stats.note (depth : Nat) (s : Stats) : Stats := { s with peakDepth := max s.peakDepth depth }

namespace Registers

def push (k : Kont) (m : Registers) : Registers :=
  { m with stack := m.stack.push k, stats := m.stats.note (m.stack.depth + 1) }

/-- The registers when a program begins. -/
def start (e : Expr) (h : Heap) : Registers :=
  let (root, h) := h.newRoot
  push (.halt root) ⟨h, root, .empty, {}, [.started e.kind]⟩

/-- What is told of a run that has ended. -/
def report (m : Registers) (a : Machine.Ending) : Stats × List Event × Machine.Ending :=
  (m.stats, (Machine.closing m.stats a :: m.log).reverse, a)

end Registers

/-- What the machine does, to its end or until it fails. -/
abbrev Routine := EStateM EvalError Registers

namespace Routine

variable {α β : Type}

def onHeap (act : Action α) : Routine α := fun m =>
  match act m.heap with
  | .ok r h => .ok r { m with heap := h }
  | .error e h => .error e { m with heap := h }

def push (k : Kont) : Routine Unit := modify (Registers.push k)

def setEnv (env : Env) : Routine Unit := modify fun m => { m with env }

def write (line : Event) : Routine Unit := modify fun m => { m with log := line :: m.log }

def applyProcedure (operator : Value) (args : List Value) : Routine Control :=
  match operator with
  | .procedure f =>
      if args.length = f.params.length then do
        setEnv (← onHeap (Env.extend f.env f.params args))
        return .evaluating f.body
      else throw (.arity f.params.length args.length)
  | v => throw (.notAProcedure v.description)

def applyPrimitive (table : Table) (name : Name) (args : List Value) : Routine Control := do
  return .returning (← onHeap (table.apply name args))

def visit (table : Table) (e : Expr) : Routine Control := do
  let env := (← get).env
  match e with
  | .datum d => return .returning d.value
  | .ref x => return .returning (← onHeap (Env.lookup env x))
  | .lambda params body => return .returning (.procedure (← onHeap (Closure.new params body env)))
  | .cond test conseq alt =>
      push (.cond env conseq alt)
      return .evaluating test
  | .assign x rhs =>
      push (.assign env x)
      return .evaluating rhs
  | .seq [] => throw (.malformed .emptySequence)
  | .seq [single] => return .evaluating single
  | .seq (first :: rest) =>
      push (.seq env (first :: rest) 1)
      return .evaluating first
  | .letIn names inits body =>
      if names.length ≠ inits.length then throw (.malformed .letLengths)
      else match inits with
        | [] => return .evaluating body
        | first :: _ =>
            push (.letIn env names inits body [])
            return .evaluating first
  | .letRec names inits body =>
      if names.length ≠ inits.length then throw (.malformed .letRecLengths)
      else match inits with
        | [] => throw (.malformed .letRecEmpty)
        | first :: _ =>
            let inner ← onHeap (Env.extend env names (names.map fun _ => .undefined))
            setEnv inner
            push (.letRec inner names inits body [])
            return .evaluating first
  | .primApp name [] => applyPrimitive table name []
  | .primApp name (first :: rest) =>
      push (.primApp env name (first :: rest) [])
      return .evaluating first
  | .app rator rands =>
      push (.operator env rands)
      return .evaluating rator

/-- Goes on with a frame that has been taken off the stack, in its environment. -/
def resume (table : Table) (k : Kont) (v : Value) : Routine Control :=
  match k with
  | .halt _ => return .halted v
  | .cond _ conseq alt => return .evaluating (if v.isTruthy then conseq else alt)
  | .assign env x => do
      onHeap (Env.assign env x v)
      return .returning .unit
  | .seq env body index =>
      match body[index]? with
      | none => return .returning v
      | some next =>
          if index + 1 < body.length then do
            push (.seq env body (index + 1))
            return .evaluating next
          else return .evaluating next
  | .letIn env names inits body values =>
      match inits[values.length + 1]? with
      | some next => do
          push (.letIn env names inits body (values ++ [v]))
          return .evaluating next
      | none => do
          setEnv (← onHeap (Env.extend env names (values ++ [v])))
          return .evaluating body
  | .letRec env names inits body values =>
      match inits[values.length + 1]? with
      | some next => do
          push (.letRec env names inits body (values ++ [v]))
          return .evaluating next
      | none => do
          onHeap (Env.assignAll env (names.zip (values ++ [v])))
          return .evaluating body
  | .primApp env name rands values =>
      match rands[values.length + 1]? with
      | some next => do
          push (.primApp env name rands (values ++ [v]))
          return .evaluating next
      | none => applyPrimitive table name (values ++ [v])
  | .operator env rands =>
      match rands with
      | [] => applyProcedure v []
      | first :: _ => do
          push (.operand env rands v [])
          return .evaluating first
  | .operand env rands operator values =>
      match rands[values.length + 1]? with
      | some next => do
          push (.operand env rands operator (values ++ [v]))
          return .evaluating next
      | none => applyProcedure operator (values ++ [v])

/-- Gives the value to the next frame. -/
def giveBack (table : Table) (v : Value) : Routine Control := do
  let m ← get
  match m.stack.pop? with
  | none => throw (.malformed .stackExhausted)
  | some (k, below) =>
      set { m with stack := below }
      write (.resuming k.kind v.text)
      setEnv k.env
      resume table k v

def step (table : Table) (c : Control) : Routine Control := do
  modify fun m => { m with stats.steps := m.stats.steps + 1 }
  let m ← get
  write (.step m.stats.steps m.stack.depth ((m.heap.scopes m.env).length - 1) c.text)
  match c with
  | .evaluating e => visit table e
  | .returning v => giveBack table v
  | .halted v => return .halted v

/-- Steps until the machine has halted or a step fails. -/
def run (table : Table) :
    Nat → Control → Registers → Option (EStateM.Result EvalError Registers Value)
  | _, .halted v, m => some (.ok v m)
  | 0, _, _ => none
  | fuel + 1, c, m =>
      match step table c m with
      | .ok c' m' => run table fuel c' m'
      | .error e m' => some (.error e m')

/-- What is told of the run in the end. -/
def outcome : EStateM.Result EvalError Registers Value → Stats × List Event × Machine.Ending
  | .ok v m => m.report (.ok v m.heap)
  | .error e m => m.report (.error e m.heap)

/-- Runs a program from the empty environment. -/
def trace (table : Table) (fuel : Nat) (e : Expr) (h : Heap) :
    Option (Stats × List Event × Machine.Ending) :=
  (run table fuel (.evaluating e) (.start e h)).map outcome

variable {table : Table} {m : Registers} {c : Control} {s : State} {h : Heap}

/-- The routine comes to what the action on states comes to. Of the depths it has noted
the one that it ends with is the greatest, and if it fails there is none. -/
inductive Performs (stats : Stats) (log : List Event) :
    EStateM.Result EvalError Heap State → EStateM.Result EvalError Registers Control → Prop
  | ok (s : State) (h : Heap) : Performs stats log (.ok s h)
      (.ok s.control ⟨h, s.env, s.stack, stats.note s.stack.depth, log⟩)
  | error (e : EvalError) (h : Heap) (env : Env) (stack : Stack) :
      Performs stats log (.error e h) (.error e ⟨h, env, stack, stats, log⟩)

/-- Nothing is deeper than what was noted before. -/
theorem Performs.stay (noted : m.stack.depth ≤ m.stats.peakDepth) (c : Control) :
    Performs m.stats m.log (.ok ⟨c, m.env, m.stack⟩ m.heap) (.ok c m) := by
  obtain ⟨heap, env, stack, ⟨steps, peak⟩, log⟩ := m
  have same : max peak stack.depth = peak := Nat.max_eq_left noted
  have whole := @Performs.ok ⟨steps, peak⟩ log ⟨c, env, stack⟩ heap
  simp only [Stats.note, same] at whole
  exact whole

theorem Performs.onHeap {act : Action α} {f : α → Action State} {g : α → Routine Control}
    (rest : ∀ r h, act m.heap = .ok r h →
      Performs m.stats m.log (f r h) (g r { m with heap := h })) :
    Performs m.stats m.log ((act >>= f) m.heap) ((Routine.onHeap act >>= g) m) := by
  change Performs m.stats m.log (EStateM.bind act f m.heap)
    (EStateM.bind (Routine.onHeap act) g m)
  unfold EStateM.bind Routine.onHeap
  cases ha : act m.heap with
  | error e h => exact .error e h m.env m.stack
  | ok r h => exact rest r h ha

theorem performs_applyProcedure (noted : m.stack.depth ≤ m.stats.peakDepth) (operator : Value)
    (args : List Value) : Performs m.stats m.log
      (Machine.applyProcedure operator args m.stack m.heap) (applyProcedure operator args m) := by
  cases operator with
  | procedure f =>
      simp only [Machine.applyProcedure, applyProcedure]
      split
      · exact .onHeap fun env h _ => .stay (m := { m with heap := h, env }) noted _
      · exact .error _ _ _ _
  | _ => exact .error _ _ _ _

theorem performs_applyPrimitive (noted : m.stack.depth ≤ m.stats.peakDepth) (name : Name)
    (args : List Value) : Performs m.stats m.log
      (Machine.applyPrimitive table name args m.env m.stack m.heap)
      (applyPrimitive table name args m) :=
  .onHeap fun _ h _ => .stay (m := { m with heap := h }) noted _

theorem performs_visit (noted : m.stack.depth ≤ m.stats.peakDepth) (e : Expr) :
    Performs m.stats m.log (Machine.visit table e m.env m.stack m.heap) (visit table e m) := by
  cases e with
  | datum d => exact .stay noted _
  | ref x => exact .onHeap fun _ h _ => .stay (m := { m with heap := h }) noted _
  | lambda params body =>
      exact .onHeap fun f h _ => .stay (m := { m with heap := h }) noted (.returning (.procedure f))
  | cond | assign | app => exact .ok _ _
  | seq es =>
      rcases es with _ | ⟨first, _ | ⟨second, rest⟩⟩
      · exact .error _ _ _ _
      · exact .stay noted _
      · exact .ok _ _
  | letIn names inits body =>
      by_cases hlen : names.length ≠ inits.length
      · simp only [Machine.visit, visit, if_pos hlen]
        exact .error _ _ _ _
      · simp only [Machine.visit, visit, if_neg hlen]
        cases inits with
        | nil => exact .stay noted _
        | cons => exact .ok _ _
  | letRec names inits body =>
      by_cases hlen : names.length ≠ inits.length
      · simp only [Machine.visit, visit, if_pos hlen]
        exact .error _ _ _ _
      · simp only [Machine.visit, visit, if_neg hlen]
        cases inits with
        | nil => exact .error _ _ _ _
        | cons => exact .onHeap fun inner h _ => .ok _ _
  | primApp name rands =>
      cases rands with
      | nil => exact performs_applyPrimitive noted name []
      | cons => exact .ok _ _

theorem performs_resume {k : Kont} (noted : m.stack.depth ≤ m.stats.peakDepth)
    (henv : m.env = k.env) (v : Value) :
    Performs m.stats m.log (Machine.resume table k v m.stack m.heap) (resume table k v m) := by
  obtain ⟨heap, env, stack, stats, log⟩ := m
  cases henv
  cases k with
  | halt | cond => exact .stay noted _
  | assign env x => exact .onHeap fun _ h _ => .stay (m := ⟨h, env, stack, stats, log⟩) noted _
  | seq env body index =>
      simp only [Machine.resume, resume]
      cases body[index]? with
      | none => exact .stay noted _
      | some next =>
          simp only
          split
          · exact .ok _ _
          · exact .stay noted _
  | letIn env names inits body values =>
      simp only [Machine.resume, resume]
      cases inits[values.length + 1]? with
      | some next => exact .ok _ _
      | none =>
          refine .onHeap (m := ⟨heap, env, stack, stats, log⟩) fun inner h _ => ?_
          exact .stay (m := ⟨h, inner, stack, stats, log⟩) noted _
  | letRec env names inits body values =>
      simp only [Machine.resume, resume]
      cases inits[values.length + 1]? with
      | some next => exact .ok _ _
      | none =>
          refine .onHeap (m := ⟨heap, env, stack, stats, log⟩) fun _ h _ => ?_
          exact .stay (m := ⟨h, env, stack, stats, log⟩) noted _
  | primApp env name rands values =>
      simp only [Machine.resume, resume]
      cases rands[values.length + 1]? with
      | some next => exact .ok _ _
      | none => exact performs_applyPrimitive noted name _
  | operator env rands =>
      cases rands with
      | nil => exact performs_applyProcedure noted v []
      | cons => exact .ok _ _
  | operand env rands operator values =>
      simp only [Machine.resume, resume]
      cases rands[values.length + 1]? with
      | some next => exact .ok _ _
      | none => exact performs_applyProcedure noted operator _

/-- A step counts itself and writes the lines of its state, the one that names a frame
after it has taken the frame. -/
theorem performs_step (noted : m.stack.depth ≤ m.stats.peakDepth) (c : Control) :
    Performs { m.stats with steps := m.stats.steps + 1 }
      ((State.events (m.stats.steps + 1) ⟨c, m.env, m.stack⟩ m.heap).reverse ++ m.log)
      (Machine.step table ⟨c, m.env, m.stack⟩ m.heap) (step table c m) := by
  obtain ⟨heap, env, stack, ⟨steps, peak⟩, log⟩ := m
  cases c with
  | evaluating e =>
      exact performs_visit (m := ⟨heap, env, stack, ⟨steps + 1, peak⟩, _ :: log⟩) noted e
  | halted v =>
      exact .stay (m := ⟨heap, env, stack, ⟨steps + 1, peak⟩, _ :: log⟩) noted (.halted v)
  | returning v =>
      rcases stack.empty_or_push with rfl | ⟨k, below, rfl⟩
      · exact .error _ _ _ _
      · have lower : below.depth ≤ peak := Nat.le_of_succ_le noted
        exact performs_resume
          (m := ⟨heap, k.env, below, ⟨steps + 1, peak⟩, _ :: _ :: log⟩) lower rfl v

/-- The registers where a run has come to a state and the observer has told this of the
states before. The depth of the stack has been noted already. -/
def reached (first : Event) (seen : Machine.Trace) (s : State) (h : Heap) : Registers :=
  ⟨h, s.env, s.stack, seen.stats.note s.stack.depth, seen.events ++ [first]⟩

theorem run_halted {fuel : Nat} {v : Value} (hv : c = .halted v) :
    run table fuel c m = some (.ok v m) := by
  subst hv
  cases fuel <;> rfl

theorem run_running {fuel : Nat} (running : ∀ v, c ≠ .halted v) :
    run table (fuel + 1) c m =
      match step table c m with
      | .ok c' m' => run table fuel c' m'
      | .error e m' => some (.error e m') := by
  cases c with
  | halted v => exact absurd rfl (running v)
  | evaluating | returning => rfl

theorem run_no_fuel (running : ∀ v, c ≠ .halted v) : run table 0 c m = none := by
  cases c with
  | halted v => exact absurd rfl (running v)
  | evaluating | returning => rfl

/-- What the observer of a run has seen, told as it is in the end. -/
def told (first : Event) : Machine.Trace × Machine.Ending → Stats × List Event × Machine.Ending
  | (seen, a) => (seen.stats, first :: (seen.events.reverse ++ [Machine.closing seen.stats a]), a)

theorem run_eq_of_halted {fuel : Nat} {first : Event} {seen : Machine.Trace} {v : Value}
    (noted : s.stack.depth ≤ seen.stats.peakDepth) (hv : s.control = .halted v) :
    (run table fuel s.control (reached first seen s h)).map outcome =
      (Machine.runWith table Machine.Trace.observe fuel seen s h).map (told first) := by
  have same : seen.stats.note s.stack.depth = seen.stats := by
    rw [Stats.note, Nat.max_eq_left noted]
  rw [run_halted hv, Machine.runWith_halted hv]
  simp [outcome, Registers.report, reached, told, same]

/-- The machine in place comes to what the observer of the states has seen. -/
theorem run_eq_runWith {fuel : Nat} {first : Event} {seen : Machine.Trace}
    (noted : ∀ v, s.control = .halted v → s.stack.depth ≤ seen.stats.peakDepth) :
    (run table fuel s.control (reached first seen s h)).map outcome =
      (Machine.runWith table Machine.Trace.observe fuel seen s h).map (told first) := by
  induction fuel generalizing seen s h with
  | zero =>
      rcases s.halted_or_running with ⟨v, hv⟩ | running
      · exact run_eq_of_halted (noted v hv) hv
      · rw [run_no_fuel running, Machine.runWith_no_fuel running]
        rfl
  | succ fuel ih =>
      rcases s.halted_or_running with ⟨v, hv⟩ | running
      · exact run_eq_of_halted (noted v hv) hv
      · have performs : Performs _ _ (Machine.step table s h) (step table s.control _) :=
          performs_step (m := reached first seen s h) (Nat.le_max_right _ _) s.control
        rw [run_running running, Machine.runWith_running running]
        generalize hs : Machine.step table s h = left at performs
        generalize step table s.control (reached first seen s h) = right at performs
        cases performs with
        | error e h' env stack =>
            simp [outcome, Registers.report, reached, told, Machine.Trace.observe, Stats.count,
              Stats.note]
        | ok s' h' =>
            have step := @ih s' h' (seen.observe s h) ?_
            · rw [Machine.Trace.observe, Stats.count, reached, List.append_assoc] at step
              exact step
            · -- what is left of the stack when the machine halts was noted before the step
              intro v hv
              have t := Machine.step_eq_ok_iff.mp hs
              obtain ⟨env, root, below, rfl, lower, -⟩ := t.halting running hv
              rw [lower]
              exact Nat.le_trans (Nat.le_succ _) (Nat.le_max_right _ _)

/-- The statistics and the log of a program are those that the machine keeps itself. -/
theorem trace_eq (table : Table) (fuel : Nat) (e : Expr) (h : Heap) :
    trace table fuel e h = Machine.trace table fuel e h := by
  have same : (run table fuel (.evaluating e) (.start e h)).map outcome =
      (Machine.evaluateWith table Machine.Trace.observe fuel {} e h).map (told (.started e.kind)) :=
    @run_eq_runWith table (.initial e h.newRoot.1) h.newRoot.2 fuel (.started e.kind) {} nofun
  rw [trace, same, Machine.trace]
  cases Machine.evaluateWith table Machine.Trace.observe fuel {} e h <;> rfl

end Routine

end CoreLisp
