import CoreLisp.Proofs.Machine.Move
import CoreLisp.Proofs.Machine.Values

/-!
# Environments mirror scopes

The machine extends environments and puts them back, and a program is written in
scopes. In all states of a run, the frames of an environment are the scopes around
an occurrence of the expression that is evaluated in it. This is kept together for
the control, for the frames that wait and for all procedures, because a call goes
to the scope of the procedure and a return goes back to the scope of the frame.

So the text of a program decides whether a name is bound.
-/
namespace CoreLisp

variable {p e part : Expr} {h h' : Heap} {env env' : Env}

/-- The scopes of the environment are those around an occurrence of the expression
in the program. Behind them is the root, which binds nothing. -/
def Expr.Stands (p : Expr) (h : Heap) (env : Env) (e : Expr) : Prop :=
  ∃ chain, Occurs p chain e ∧ h.scopes env = chain ++ [[]]

/-- A procedure keeps the environment of its lambda expression. -/
def Value.Stands (p : Expr) (h : Heap) : Value → Prop
  | .procedure f => Expr.Stands p h f.env (.lambda f.params f.body)
  | _ => True

/-- A frame waits in an expression, in the scope that this has for its inner parts. -/
def Kont.Stands (p : Expr) (h : Heap) (k : Kont) : Prop :=
  k.isHalt = false → ∃ e outer, k.WaitsIn e ∧ h.Enters outer e.innerScope k.env ∧
    Expr.Stands p h outer e

/-- The expressions that a frame has still to evaluate, each with the names that the
frame binds around it first, if it does. -/
def Kont.pending : Kont → List (Option (List Name) × Expr)
  | .halt _ | .assign .. => []
  | .cond _ conseq alt => [(none, conseq), (none, alt)]
  | .letIn _ names inits body values =>
      (inits.drop (values.length + 1)).map (none, ·) ++ [(some names, body)]
  | .letRec _ _ inits body values => (inits.drop (values.length + 1) ++ [body]).map (none, ·)
  | .seq _ body index => (body.drop index).map (none, ·)
  | .primApp _ _ rands values | .operand _ rands _ values =>
      (rands.drop (values.length + 1)).map (none, ·)
  | .operator _ rands => rands.map (none, ·)

structure State.Stands (p : Expr) (h : Heap) (s : State) : Prop where
  control : ∀ e, s.control = .evaluating e → Expr.Stands p h s.env e
  frames : ∀ k ∈ s.stack.frames, k.Stands p h
  values : ∀ v ∈ s.values, v.Stands p h

namespace Expr

theorem Stands.lt_size (stands : p.Stands h env e) : env < h.frames.size := by
  obtain ⟨chain, -, hscopes⟩ := stands
  cases chain with
  | nil => exact Heap.lt_size_of_scopes hscopes
  | cons => exact Heap.lt_size_of_scopes hscopes

theorem Stands.mono (stands : p.Stands h env e) (grows : h.Grows h') : p.Stands h' env e := by
  have hlt := stands.lt_size
  obtain ⟨chain, occurs, hscopes⟩ := stands
  exact ⟨chain, occurs, (grows.scopes hlt).trans hscopes⟩

/-- Entering a scope prolongs the chain. -/
theorem scopes_enter {scope : Option (List Name)} (enters : h.Enters env scope env') :
    h.scopes env' = enter scope (h.scopes env) := by
  cases scope with
  | none => rw [enters, enter_none]
  | some names => exact enters.scopes

theorem enter_append (scope : Option (List Name)) (chain rest : List (List Name)) :
    enter scope (chain ++ rest) = enter scope chain ++ rest := by
  cases scope <;> rfl

theorem Stands.inner (stands : p.Stands h env e) (mem : part ∈ e.innerParts)
    (enters : h.Enters env e.innerScope env') : p.Stands h env' part := by
  obtain ⟨chain, occurs, hscopes⟩ := stands
  refine ⟨_, occurs.inner mem, ?_⟩
  rw [scopes_enter enters, hscopes, enter_append]

theorem Stands.tail (stands : p.Stands h env e) (mem : part ∈ e.tailParts)
    (enters : h.Enters env e.tailScope env') : p.Stands h env' part := by
  obtain ⟨chain, occurs, hscopes⟩ := stands
  refine ⟨_, occurs.tail mem, ?_⟩
  rw [scopes_enter enters, hscopes, enter_append]

theorem Stands.body {params : List Name} {body : Expr}
    (stands : p.Stands h env (lambda params body)) (enters : h.Enters env (some params) env') :
    p.Stands h env' body := by
  obtain ⟨chain, occurs, hscopes⟩ := stands
  refine ⟨_, occurs.procedure, ?_⟩
  rw [enters.scopes, hscopes, List.cons_append]

/-- The name is unbound there when no scope around the occurrence has it. -/
theorem unbound_iff {x : Name} {chain : List (List Name)}
    (hscopes : h.scopes env = chain ++ [[]]) :
    h.find? x env = none ↔ ∀ names ∈ chain, x ∉ names := by
  rw [Heap.find?_eq_none_iff, hscopes, List.forall_mem_append]
  simp

end Expr

theorem Value.Stands.mono {v : Value} (stands : v.Stands p h) (grows : h.Grows h') :
    v.Stands p h' := by
  cases v with
  | procedure f => exact Expr.Stands.mono stands grows
  | _ => trivial

theorem Kont.Stands.mono {k : Kont} (stands : k.Stands p h) (grows : h.Grows h') :
    k.Stands p h' := by
  intro inner
  obtain ⟨e, outer, waits, enters, here⟩ := stands inner
  exact ⟨e, outer, waits, grows.enters enters, here.mono grows⟩

/-- The frame that a recursive binding fills binds the names of the binding. -/
theorem Kont.Stands.enters_letRec {place : Env} {names : List Name} {inits : List Expr}
    {body : Expr} {values : List Value}
    (stands : (Kont.letRec place names inits body values).Stands p h) :
    ∃ outer, h.Enters outer (some names) place := by
  obtain ⟨_, outer, waits, enters, -⟩ := stands rfl
  cases waits
  exact ⟨outer, enters⟩

namespace Expr

theorem mem_inner_or_tail {body : List Expr} (mem : part ∈ body) :
    part ∈ (seq body).innerParts ∨ part ∈ (seq body).tailParts := by
  rcases mem_parts_iff.mp (show part ∈ (seq body).parts from mem) with inner | tail | ⟨_, he⟩
  · exact .inl inner
  · exact .inr tail
  · cases he

end Expr

/-- What a frame has still to evaluate are parts of the expression that it waits in. For
a part in tail position the scope of the expression has been entered before or is
entered then. -/
theorem Kont.WaitsIn.pending {k : Kont} {scope : Option (List Name)} (waits : k.WaitsIn e)
    (mem : (scope, part) ∈ k.pending) :
    (scope = none ∧ part ∈ e.innerParts) ∨ (part ∈ e.tailParts ∧
      ∀ chain, Expr.enter scope (Expr.enter e.innerScope chain) = Expr.enter e.tailScope chain) := by
  cases waits with
  | assign => cases mem
  | cond =>
      simp only [Kont.pending, List.mem_cons, List.not_mem_nil, or_false, Prod.mk.injEq] at mem
      rcases mem with ⟨rfl, rfl⟩ | ⟨rfl, rfl⟩ <;> exact .inr ⟨by simp [Expr.tailParts], fun _ => rfl⟩
  | letIn hne =>
      rcases List.mem_append.mp mem with mem | mem
      · obtain ⟨_, mem, he⟩ := List.mem_map.mp mem
        cases he
        exact .inl ⟨rfl, List.mem_of_mem_drop mem⟩
      · cases List.mem_singleton.mp mem
        refine .inr ⟨List.mem_cons_self, ?_⟩
        intro chain
        rw [Expr.tailScope, if_neg (by simpa using hne)]
        rfl
  | letRec =>
      obtain ⟨_, mem, he⟩ := List.mem_map.mp mem
      cases he
      rcases List.mem_append.mp mem with mem | mem
      · exact .inl ⟨rfl, List.mem_of_mem_drop mem⟩
      · exact .inr ⟨mem, fun _ => rfl⟩
  | seq =>
      obtain ⟨_, mem, he⟩ := List.mem_map.mp mem
      cases he
      rcases Expr.mem_inner_or_tail (List.mem_of_mem_drop mem) with inner | tail
      · exact .inl ⟨rfl, inner⟩
      · exact .inr ⟨tail, fun _ => rfl⟩
  | primApp =>
      obtain ⟨_, mem, he⟩ := List.mem_map.mp mem
      cases he
      exact .inl ⟨rfl, List.mem_of_mem_drop mem⟩
  | operator =>
      obtain ⟨_, mem, he⟩ := List.mem_map.mp mem
      cases he
      exact .inl ⟨rfl, List.mem_cons_of_mem _ mem⟩
  | operand =>
      obtain ⟨_, mem, he⟩ := List.mem_map.mp mem
      cases he
      exact .inl ⟨rfl, List.mem_cons_of_mem _ (List.mem_of_mem_drop mem)⟩

theorem Kont.Stands.pending {k : Kont} {scope : Option (List Name)} (stands : k.Stands p h)
    (mem : (scope, part) ∈ k.pending) :
    ∃ chain, Expr.Occurs p chain part ∧ Expr.enter scope (h.scopes k.env) = chain ++ [[]] := by
  have inner : k.isHalt = false := by
    cases k with
    | halt => cases mem
    | _ => rfl
  obtain ⟨e, outer, waits, enters, chain, occurs, hscopes⟩ := stands inner
  rw [Expr.scopes_enter enters, hscopes, Expr.enter_append, Expr.enter_append]
  rcases waits.pending mem with ⟨rfl, hinner⟩ | ⟨htail, hscope⟩
  · exact ⟨_, occurs.inner hinner, rfl⟩
  · exact ⟨_, occurs.tail htail, by rw [hscope]⟩

namespace Machine

variable {s s' : State}

/-- What is evaluated next and what waits then stand in the program. -/
theorem Move.stands (move : Move h h' s s') (grows : h.Grows h') (hs : s.Stands p h) :
    (∀ e, s'.control = .evaluating e → p.Stands h' s'.env e) ∧
      ∀ k ∈ s'.stack.frames, k.Stands p h' := by
  obtain ⟨control, frames, values⟩ := hs
  have frames' : ∀ k ∈ s.stack.frames, k.Stands p h' := fun k mem => (frames k mem).mono grows
  cases move with
  | give => exact ⟨nofun, frames'⟩
  | @enter e part k env stack waits mem enters =>
      have stands := control e rfl
      have enters := enters stands.lt_size
      have hk : k.Stands p h' := fun _ => ⟨e, env, waits, enters, stands.mono grows⟩
      refine ⟨?_, List.forall_mem_cons.mpr ⟨hk, frames'⟩⟩
      intro e' he'
      cases he'
      exact (stands.mono grows).inner mem enters
  | @replace e part env stack mem hscope =>
      have stands := (control e rfl).mono grows
      refine ⟨?_, frames'⟩
      intro e' he'
      cases he'
      exact stands.tail mem (by rw [hscope]; rfl)
  | @next part k k' v env stack notHalt parts henv =>
      obtain ⟨hk, hbelow⟩ := List.forall_mem_cons.mp frames'
      obtain ⟨e, outer, waits, enters, stands⟩ := hk notHalt
      obtain ⟨waits', mem⟩ := parts e waits
      have hk' : k'.Stands p h' := fun _ => ⟨e, outer, waits', henv ▸ enters, stands⟩
      refine ⟨?_, List.forall_mem_cons.mpr ⟨hk', hbelow⟩⟩
      intro e' he'
      cases he'
      exact stands.inner mem enters
  | @last part k v env inner stack notHalt parts scope =>
      obtain ⟨hk, hbelow⟩ := List.forall_mem_cons.mp frames
      obtain ⟨e, outer, waits, enters, stands⟩ := hk notHalt
      have enters' := scope e outer waits stands.lt_size enters
      refine ⟨?_, (List.forall_mem_cons.mp frames').2⟩
      intro e' he'
      cases he'
      exact (stands.mono grows).tail (parts e waits) enters'
  | pass => exact ⟨nofun, (List.forall_mem_cons.mp frames').2⟩
  | @call f k v env inner stack notHalt calls mem enters =>
      -- the procedure is the value at hand or one that the frame has gathered
      obtain ⟨hv, hvalues, -⟩ := State.forall_values_returning.mp values
      have stands : p.Stands h f.env (.lambda f.params f.body) := by
        rcases List.mem_cons.mp mem with rfl | mem
        · exact hv
        · exact hvalues _ mem
      refine ⟨?_, (List.forall_mem_cons.mp frames').2⟩
      intro e' he'
      cases he'
      exact (stands.mono grows).body (enters stands.lt_size)
  | halt => exact ⟨nofun, (List.forall_mem_cons.mp frames').2⟩
  | halted => exact ⟨nofun, frames'⟩

theorem Transition.stands {m : Mark} (t : Transition .standard s h s' h')
    (own : s.Own (fun _ => True) m) (hown : h.Own (fun _ => True) m) (hs : s.Stands p h)
    (all : h.All (Value.Stands p h) m) : s'.Stands p h' ∧ h'.All (Value.Stands p h') m := by
  have grows := t.grows Table.standard_grows
  obtain ⟨control, frames⟩ := t.move.stands grows hs
  have makes : Makes (Value.Stands p h') s h h' := by
    refine ⟨?_, fun _ _ => trivial, ?_⟩
    · intro v plain
      cases v with
      | procedure => cases plain
      | _ => trivial
    · intro params body hcontrol
      exact (hs.control _ hcontrol).mono grows
  obtain ⟨values, all⟩ := t.values makes own hown (fun v mem => (hs.values v mem).mono grows)
    (all.imp fun v hv => hv.mono grows)
  exact ⟨⟨control, frames, values⟩, all⟩

theorem Reachable.stands (reached : Reachable .standard p h s h') :
    s.Stands p h' ∧ h'.All (Value.Stands p h') h.mark := by
  refine reached.induction (P := fun s h' => s.Stands p h' ∧ h'.All (Value.Stands p h') h.mark)
    ⟨⟨?_, ?_, List.forall_mem_nil _⟩, ?_⟩ ?_
  · intro e he
    cases he
    refine ⟨[], .root, ?_⟩
    rw [Heap.scopes]
    simp [Heap.newRoot, State.initial, Frame.names]
  · intro k mem inner
    rw [List.mem_singleton.mp mem] at inner
    cases inner
  · exact (Heap.Each.at_mark _ _ h).addFrame (List.forall_mem_nil _)
  · intro s s' h₁ h₂ reached hs here
    obtain ⟨own, hown⟩ := reached.own_standard
    exact (step_eq_ok_iff.mp hs).stands own hown here.1 here.2

theorem step_ref_unbound_iff {table : Table} {x : Name} {stack : Stack} :
    (∃ h', step table ⟨.evaluating (.ref x), env, stack⟩ h = .error (.unboundName x) h') ↔
      h.find? x env = none := by
  constructor
  · intro fail
    obtain ⟨h', fail⟩ := fail
    cases step_eq_error_iff.mp fail with
    | ref hx => exact (Env.lookup_eq_error_iff.mp hx).2.1
  · intro missing
    exact ⟨h, step_eq_error_iff.mpr (.ref (Env.lookup_eq_error_iff.mpr ⟨rfl, missing, rfl⟩))⟩

theorem step_assign_unbound_iff {table : Table} {x : Name} {v : Value} {stack : Stack} :
    (∃ h', step table ⟨.returning v, env', stack.push (.assign env x)⟩ h =
        .error (.unboundName x) h') ↔ h.find? x env = none := by
  constructor
  · intro fail
    obtain ⟨h', fail⟩ := fail
    simp only [step, Stack.pop?_push, resume] at fail
    rcases Action.bind_eq_error_iff.mp fail with hx | ⟨_, _, _, done⟩
    · exact (Env.assign_eq_error_iff.mp hx).2.1
    · cases done
  · intro missing
    exact ⟨h, step_eq_error_iff.mpr (.assigned (Env.assign_eq_error_iff.mpr ⟨rfl, missing, rfl⟩))⟩

/-- Only a reference and an assignment find a name unbound. The names of a recursive
binding are in scope when they get their values. -/
theorem Failure.unbound {x : Name} (fail : Failure .standard s h (.unboundName x) h')
    (hs : s.Stands p h) :
    s.control = .evaluating (.ref x) ∨
      ∃ v env, ∃ below : Stack, s.control = .returning v ∧ s.stack = below.push (.assign env x) := by
  generalize he : EvalError.unboundName x = err at fail
  cases fail with
  | ref hx =>
      obtain ⟨-, -, rfl⟩ := Env.lookup_eq_error_iff.mp hx
      cases he
      exact .inl rfl
  | assigned hx =>
      obtain ⟨-, -, rfl⟩ := Env.assign_eq_error_iff.mp hx
      cases he
      exact .inr ⟨_, _, _, rfl, rfl⟩
  | seqEmpty | letLengths | letRecLengths | letRecEmpty | exhausted => cases he
  | letRecFirst _ hx | letDone _ hx =>
      obtain ⟨-, ⟨-, rfl⟩ | ⟨-, -, rfl⟩⟩ := Env.extend_eq_error_iff.mp hx <;> cases he
  | letRecDone _ hx =>
      obtain ⟨outer, enters⟩ := (hs.frames _ List.mem_cons_self).enters_letRec
      exact absurd hx (Env.assignAll_ne_error enters)
  | callNone hx | call _ hx =>
      obtain ⟨n, m, rfl⟩ | ⟨d, rfl⟩ | ⟨f, -, -, rfl⟩ := applyProcedure_error hx <;> cases he
  | primNone hx | primDone _ hx =>
      subst he
      obtain ⟨-, he | ⟨b, refusal⟩⟩ := Table.apply_standard_error hx
      · cases he
      · cases refusal

/-- A step that fails leaves the heap as it was: a recursive binding gives all its names
their values, and everything else fails before it writes. -/
theorem Failure.heap_eq {err : EvalError} (fail : Failure .standard s h err h')
    (hs : s.Stands p h) : h' = h := by
  cases fail with
  | seqEmpty | letLengths | letRecLengths | letRecEmpty | exhausted => rfl
  | ref hx => exact (Env.lookup_eq_error_iff.mp hx).1
  | assigned hx => exact (Env.assign_eq_error_iff.mp hx).1
  | letRecFirst _ hx | letDone _ hx => exact (Env.extend_eq_error_iff.mp hx).1
  | letRecDone _ hx =>
      obtain ⟨outer, enters⟩ := (hs.frames _ List.mem_cons_self).enters_letRec
      exact absurd hx (Env.assignAll_ne_error enters)
  | callNone hx | call _ hx => exact heap_of_applyProcedure_error hx
  | primNone hx | primDone _ hx => exact (Table.apply_standard_error hx).1

theorem Reachable.heap_eq_of_error {err : EvalError} {h₁ : Heap}
    (reached : Reachable .standard p h s h₁)
    (fail : Machine.step .standard s h₁ = .error err h') : h' = h₁ :=
  (step_eq_error_iff.mp fail).heap_eq reached.stands.1

/-- A failed run leaves the heap of the state that it failed in. -/
theorem Ends.failing_state {err : EvalError} {n : Nat}
    (ends : Ends .standard n (.initial p h.newRoot.1) h.newRoot.2 (.error err h')) :
    ∃ s, Reachable .standard p h s h' ∧ Machine.step .standard s h' = .error err h' := by
  obtain ⟨k, s, h₁, steps, fail⟩ := ends.failing_step
  have reached : Reachable .standard p h s h₁ := ⟨k, steps⟩
  obtain rfl := reached.heap_eq_of_error fail
  exact ⟨s, reached, fail⟩

/-- In every state of every run, the environment of the expression that is evaluated,
those of the expressions that wait and those of all procedures to which the state
can come consist of the scopes around an occurrence of the expression. So a name is
found unbound exactly where no scope around the reference or assignment has it. -/
theorem environments_mirror_scopes (p : Expr) (h h' : Heap) (s : State)
    (reached : Reachable .standard p h s h') :
    (∀ e, s.control = .evaluating e →
      ∃ chain, p.Occurs chain e ∧ h'.scopes s.env = chain ++ [[]]) ∧
    (∀ k ∈ s.stack.frames, ∀ scope e, (scope, e) ∈ k.pending →
      ∃ chain, p.Occurs chain e ∧ Expr.enter scope (h'.scopes k.env) = chain ++ [[]]) ∧
    (∀ f, s.Present h' (.inr (.procedure f)) →
      ∃ chain, p.Occurs (f.params :: chain) f.body ∧ h'.scopes f.env = chain ++ [[]]) ∧
    (∀ x, s.control = .evaluating (.ref x) →
      ∃ chain, p.Occurs chain (.ref x) ∧ h'.scopes s.env = chain ++ [[]] ∧
        ((∃ h'', step .standard s h' = .error (.unboundName x) h'') ↔
          ∀ names ∈ chain, x ∉ names)) ∧
    (∀ v env x, ∀ below : Stack, s.control = .returning v → s.stack = below.push (.assign env x) →
      ∃ chain rhs, p.Occurs chain (.assign x rhs) ∧ h'.scopes env = chain ++ [[]] ∧
        ((∃ h'', step .standard s h' = .error (.unboundName x) h'') ↔
          ∀ names ∈ chain, x ∉ names)) ∧
    (∀ x h'', step .standard s h' = .error (.unboundName x) h'' →
      s.control = .evaluating (.ref x) ∨
        ∃ v env, ∃ below : Stack, s.control = .returning v ∧ s.stack = below.push (.assign env x)) := by
  obtain ⟨stands, all⟩ := reached.stands
  obtain ⟨own, hown⟩ := reached.own_standard
  refine ⟨stands.control, ?_, ?_, ?_, ?_, ?_⟩
  · intro k hk scope e mem
    exact (stands.frames k hk).pending mem
  · intro f present
    obtain ⟨-, chain, occurs, hscopes⟩ := present.own own hown stands.values all
    exact ⟨chain, occurs.procedure, hscopes⟩
  · intro x hcontrol
    obtain ⟨chain, occurs, hscopes⟩ := stands.control _ hcontrol
    refine ⟨chain, occurs, hscopes, ?_⟩
    obtain ⟨control, env, stack⟩ := s
    cases hcontrol
    exact step_ref_unbound_iff.trans (Expr.unbound_iff hscopes)
  · intro v env x below hcontrol hstack
    obtain ⟨control, env', stack⟩ := s
    cases hcontrol
    cases hstack
    obtain ⟨e, outer, waits, enters, chain, occurs, hscopes⟩ :=
      (List.forall_mem_cons.mp stands.frames).1 rfl
    cases waits with
    | @assign _ _ rhs =>
        cases enters
        exact ⟨chain, rhs, occurs, hscopes,
          step_assign_unbound_iff.trans (Expr.unbound_iff hscopes)⟩
  · intro x h'' fail
    exact (step_eq_error_iff.mp fail).unbound stands

/-- A call of a procedure whose body refers to a name that is bound nowhere. The
environment has the scope of the parameter, and the reference fails. -/
theorem environments_mirror_scopes_call :
    ∃ s : State, Reachable .standard (.app (.lambda ["x"] (.ref "y")) [.datum (.integer 1)]) {} s
        ⟨#[⟨[], none⟩, ⟨[("x", .integer 1)], some 0⟩], #[], 1⟩ ∧
      s.control = .evaluating (.ref "y") ∧ s.env = 1 ∧
      ∃ h, step .standard s ⟨#[⟨[], none⟩, ⟨[("x", .integer 1)], some 0⟩], #[], 1⟩ =
        .error (.unboundName "y") h := by
  have reached : Reachable .standard (.app (.lambda ["x"] (.ref "y")) [.datum (.integer 1)]) {}
      ⟨.evaluating (.ref "y"), 1, Stack.empty.push (.halt 0)⟩
      ⟨#[⟨[], none⟩, ⟨[("x", .integer 1)], some 0⟩], #[], 1⟩ :=
    ⟨5, .step State.running_evaluating rfl (.step State.running_evaluating rfl
      (.step State.running_returning rfl (.step State.running_evaluating rfl
        (.one State.running_returning rfl))))⟩
  obtain ⟨-, -, -, references, -⟩ := environments_mirror_scopes _ _ _ _ reached
  obtain ⟨chain, -, hscopes, unbound⟩ := references "y" rfl
  have here : [["x"]] ++ [[]] = chain ++ [[]] := by
    rw [← hscopes]
    simp [Heap.scopes, Frame.names]
  obtain rfl := List.append_cancel_right here
  exact ⟨_, reached, rfl, rfl, unbound.mpr (by decide)⟩

end Machine

end CoreLisp
