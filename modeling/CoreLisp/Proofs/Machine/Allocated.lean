import CoreLisp.Proofs.Heap.Sound
import CoreLisp.Proofs.Machine.Steps
import CoreLisp.Proofs.Machine.Values

/-!
# States without dangling references

All that a state refers to is on the heap: its environment, those of the waiting frames,
and what its values refer to. A step from there is a safe action, as it only hands on
references that it has, finds on a sound heap, or has just made.
-/
namespace CoreLisp

open CoreLisp.Action

variable {h h' : Heap} {s s' : State} {k : Kont} {v : Value} {env : Env}
variable {stack : Stack}

structure Kont.Allocated (h : Heap) (k : Kont) : Prop where
  env : k.env < h.frames.size
  values : ∀ v ∈ k.values, v.Allocated h

def Stack.Allocated (h : Heap) (s : Stack) : Prop := ∀ k ∈ s.frames, k.Allocated h

structure State.Allocated (h : Heap) (s : State) : Prop where
  control : ∀ v ∈ s.control.values, v.Allocated h
  env : s.env < h.frames.size
  stack : s.stack.Allocated h

theorem Value.Plain.allocated (plain : v.Plain) : v.Allocated h := by
  cases v with
  | box | procedure => cases plain
  | _ => exact trivial

theorem Kont.Allocated.mono (allocated : k.Allocated h) (grows : h.Grows h') : k.Allocated h' :=
  ⟨Nat.lt_of_lt_of_le allocated.env grows.frames_le,
    Value.allocated_all_mono allocated.values grows⟩

namespace Stack

theorem Allocated.mono (allocated : stack.Allocated h) (grows : h.Grows h') :
    stack.Allocated h' :=
  fun k mem => (allocated k mem).mono grows

theorem allocated_push_iff : (stack.push k).Allocated h ↔ k.Allocated h ∧ stack.Allocated h :=
  List.forall_mem_cons

theorem Allocated.pop {below : Stack} (allocated : stack.Allocated h)
    (hpop : stack.pop? = some (k, below)) : k.Allocated h ∧ below.Allocated h := by
  rw [pop?_eq_some_iff] at hpop
  exact allocated_push_iff.mp (hpop ▸ allocated)

end Stack

namespace State

variable {e : Expr}

theorem Allocated.mono (allocated : s.Allocated h) (grows : h.Grows h') : s.Allocated h' :=
  ⟨Value.allocated_all_mono allocated.control grows,
    Nat.lt_of_lt_of_le allocated.env grows.frames_le, allocated.stack.mono grows⟩

theorem Allocated.evaluating (henv : env < h.frames.size) (hstack : stack.Allocated h) :
    State.Allocated h ⟨.evaluating e, env, stack⟩ :=
  ⟨List.forall_mem_nil _, henv, hstack⟩

theorem Allocated.returning (hv : v.Allocated h) (henv : env < h.frames.size)
    (hstack : stack.Allocated h) : State.Allocated h ⟨.returning v, env, stack⟩ :=
  ⟨List.forall_mem_singleton.mpr hv, henv, hstack⟩

/-- A part is evaluated while a frame with its environment waits. -/
theorem Allocated.waiting (henv : k.env < h.frames.size) (hvalues : ∀ v ∈ k.values, v.Allocated h)
    (hstack : stack.Allocated h) : State.Allocated h ⟨.evaluating e, k.env, stack.push k⟩ :=
  .evaluating henv (Stack.allocated_push_iff.mpr ⟨⟨henv, hvalues⟩, hstack⟩)

end State

namespace Machine

variable {table : Table} {e : Expr} {args : List Value}

/-- A step is safe if the state after it refers to what is on the heap. -/
abbrev SafeStep (h : Heap) (a : Action State) : Prop := Safe h (fun h' s => s.Allocated h') a

/-- What an operation gives is returned, and the rest of the state stays as it is. -/
theorem safe_returning {α : Type} {Q : Heap → α → Prop} {a : Action α} {value : α → Value}
    (safe : Safe h Q a) (given : ∀ x h', Q h' x → (value x).Allocated h')
    (henv : env < h.frames.size) (hstack : stack.Allocated h) :
    SafeStep h (a >>= fun x => return ⟨.returning (value x), env, stack⟩) :=
  safe.bind fun x h' grows hx => safe_pure (.returning (given x h' hx)
    (Nat.lt_of_lt_of_le henv grows.frames_le) (hstack.mono grows))

theorem safe_applyProcedure (hv : v.Allocated h) (hargs : ∀ a ∈ args, a.Allocated h)
    (hstack : stack.Allocated h) : SafeStep h (applyProcedure v args stack) := by
  cases v with
  | procedure f =>
      unfold applyProcedure
      by_cases hlen : args.length = f.params.length
      · simp only [if_pos hlen]
        exact (Env.safe_extend hv hargs).bind fun _ _ grows inner =>
          safe_pure (.evaluating inner (hstack.mono grows))
      · simp only [if_neg hlen]
        exact safe_throw
  | _ => exact safe_throw

theorem safe_applyPrimitive {name : Name} (primitives : table.Safe h)
    (hargs : ∀ a ∈ args, a.Allocated h) (henv : env < h.frames.size)
    (hstack : stack.Allocated h) : SafeStep h (applyPrimitive table name args env stack) :=
  safe_returning (primitives name args hargs) (fun _ _ hv => hv) henv hstack

theorem safe_visit (primitives : table.Safe h) (henv : env < h.frames.size)
    (hstack : stack.Allocated h) : SafeStep h (visit table e env stack) := by
  cases e with
  | datum d => exact safe_pure (.returning d.plain_value.allocated henv hstack)
  | ref x => exact safe_returning Env.safe_lookup (fun _ _ hv => hv) henv hstack
  | lambda params body =>
      exact safe_returning (Closure.safe_new henv) (fun _ _ hf => hf) henv hstack
  | cond test conseq alt =>
      exact safe_pure (.waiting (k := .cond env conseq alt) henv (List.forall_mem_nil _) hstack)
  | assign x rhs =>
      exact safe_pure (.waiting (k := .assign env x) henv (List.forall_mem_nil _) hstack)
  | seq body =>
      match body with
      | [] => exact safe_throw
      | [single] => exact safe_pure (.evaluating henv hstack)
      | first :: second :: rest =>
          exact safe_pure (.waiting (k := .seq env (first :: second :: rest) 1)
            henv (List.forall_mem_nil _) hstack)
  | letIn names inits body =>
      unfold visit
      by_cases hlen : names.length = inits.length
      · simp only [if_neg (Decidable.not_not.mpr hlen)]
        cases inits with
        | nil => exact safe_pure (.evaluating henv hstack)
        | cons first rest =>
            exact safe_pure (.waiting (k := .letIn env names (first :: rest) body [])
              henv (List.forall_mem_nil _) hstack)
      · simp only [if_pos hlen]
        exact safe_throw
  | letRec names inits body =>
      unfold visit
      by_cases hlen : names.length = inits.length
      · simp only [if_neg (Decidable.not_not.mpr hlen)]
        cases inits with
        | nil => exact safe_throw
        | cons first rest =>
            have placeholders : ∀ v ∈ names.map fun _ => Value.undefined, v.Allocated h := by
              intro v mem
              obtain ⟨-, -, rfl⟩ := List.mem_map.mp mem
              exact trivial
            exact (Env.safe_extend henv placeholders).bind fun inner h' grows hinner => safe_pure
              (.waiting (k := .letRec inner names (first :: rest) body [])
                hinner (List.forall_mem_nil _) (hstack.mono grows))
      · simp only [if_pos hlen]
        exact safe_throw
  | primApp name rands =>
      cases rands with
      | nil => exact safe_applyPrimitive primitives (List.forall_mem_nil _) henv hstack
      | cons first rest =>
          exact safe_pure (.waiting (k := .primApp env name (first :: rest) [])
            henv (List.forall_mem_nil _) hstack)
  | app rator rands =>
      exact safe_pure (.waiting (k := .operator env rands) henv (List.forall_mem_nil _) hstack)

/-- A frame that goes on has what it refers to, and the value that it gets. -/
theorem safe_resume (primitives : table.Safe h) (hv : v.Allocated h) (hk : k.Allocated h)
    (hstack : stack.Allocated h) : SafeStep h (resume table k v stack) := by
  obtain ⟨henv, hvalues⟩ := hk
  cases k with
  | halt root => exact safe_pure ⟨List.forall_mem_singleton.mpr hv, henv, hstack⟩
  | cond outer conseq alt => exact safe_pure (.evaluating henv hstack)
  | assign outer x =>
      exact safe_returning (Env.safe_assign hv) (fun _ _ _ => trivial) henv hstack
  | seq outer body index =>
      simp only [resume]
      cases body[index]? with
      | none => exact safe_pure (.returning hv henv hstack)
      | some next =>
          by_cases hlt : index + 1 < body.length
          · simp only [if_pos hlt]
            exact safe_pure (.waiting (k := .seq outer body (index + 1))
              henv (List.forall_mem_nil _) hstack)
          · simp only [if_neg hlt]
            exact safe_pure (.evaluating henv hstack)
  | letIn outer names inits body values =>
      have gathered := forall_mem_snoc hvalues hv
      simp only [resume]
      cases inits[values.length + 1]? with
      | none =>
          exact (Env.safe_extend henv gathered).bind fun _ _ grows inner =>
            safe_pure (.evaluating inner (hstack.mono grows))
      | some next =>
          exact safe_pure (.waiting (k := .letIn outer names inits body (values ++ [v]))
            henv gathered hstack)
  | letRec inner names inits body values =>
      have gathered := forall_mem_snoc hvalues hv
      simp only [resume]
      cases inits[values.length + 1]? with
      | none =>
          have bound : ∀ b ∈ names.zip (values ++ [v]), b.2.Allocated h :=
            fun b mem => gathered b.2 (List.of_mem_zip mem).2
          exact (Env.safe_assignAll bound).bind fun _ _ grows _ => safe_pure
            (.evaluating (Nat.lt_of_lt_of_le henv grows.frames_le) (hstack.mono grows))
      | some next =>
          exact safe_pure (.waiting (k := .letRec inner names inits body (values ++ [v]))
            henv gathered hstack)
  | primApp outer name rands values =>
      have gathered := forall_mem_snoc hvalues hv
      simp only [resume]
      cases rands[values.length + 1]? with
      | none => exact safe_applyPrimitive primitives gathered henv hstack
      | some next =>
          exact safe_pure (.waiting (k := .primApp outer name rands (values ++ [v]))
            henv gathered hstack)
  | operator outer rands =>
      cases rands with
      | nil => exact safe_applyProcedure hv (List.forall_mem_nil _) hstack
      | cons first rest =>
          exact safe_pure (.waiting (k := .operand outer (first :: rest) v [])
            henv (List.forall_mem_singleton.mpr hv) hstack)
  | operand outer rands rator values =>
      obtain ⟨hrator, hvalues⟩ := List.forall_mem_cons.mp hvalues
      have gathered := forall_mem_snoc hvalues hv
      simp only [resume]
      cases rands[values.length + 1]? with
      | none => exact safe_applyProcedure hrator gathered hstack
      | some next =>
          exact safe_pure (.waiting (k := .operand outer rands rator (values ++ [v]))
            henv (List.forall_mem_cons.mpr ⟨hrator, gathered⟩) hstack)

theorem safe_step (primitives : table.Safe h) (hs : s.Allocated h) :
    SafeStep h (step table s) := by
  obtain ⟨control, env, stack⟩ := s
  cases control with
  | evaluating e => exact safe_visit primitives hs.env hs.stack
  | returning v =>
      have hv := hs.control v List.mem_cons_self
      simp only [step]
      cases hpop : stack.pop? with
      | none => exact safe_throw
      | some top =>
          obtain ⟨hk, below⟩ := hs.stack.pop hpop
          exact safe_resume primitives hv hk below
  | halted v => exact safe_pure hs

/-- The first state of a program stands over a new root. -/
theorem allocated_initial (e : Expr) : (State.initial e h.newRoot.1).Allocated h.newRoot.2 := by
  have root : h.newRoot.1 < h.newRoot.2.frames.size := by simp [Heap.newRoot]
  exact .waiting (k := .halt h.newRoot.1) root (List.forall_mem_nil _) (List.forall_mem_nil _)

end Machine

end CoreLisp
