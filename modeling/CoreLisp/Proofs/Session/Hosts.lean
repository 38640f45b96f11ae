import CoreLisp.Proofs.Machine.Allocated
import CoreLisp.Proofs.Machine.Places
import Mathlib.Logic.Relation

/-!
# Frames and references of a host

A host embeds the language. It runs programs one after another, with whatever primitives,
and uses environments, boxes and primitives of its own accord, also while a program runs.
It has no references but those that it has been given.

Cells can come to hold procedures over the very frame that they are in, so values cannot
be followed to an end. Still nothing dangles, and the frames around a frame end in a root:
names and parents of frames are never written, and a parent is there before its frame.
-/
namespace CoreLisp

/-- A world in which the embedder also holds environments. -/
structure Host extends World where
  envs : List Env

/-- What a host can ask for. -/
inductive Host.Call where
  | empty
  | extend (env : Env) (names : List Name) (values : List Value)
  | lookup (env : Env) (x : Name)
  | assign (env : Env) (x : Name) (v : Value)
  | box (v : Value)
  | contents (ref : BoxRef)
  | setBox (ref : BoxRef) (v : Value)
  | primitive (table : Table) (name : Name) (args : List Value)

namespace Host.Call

/-- The environments that are used. -/
def envs : Call → List Env
  | extend env .. | lookup env _ | assign env .. => [env]
  | empty | box _ | contents _ | setBox .. | primitive .. => []

/-- The values that are used. -/
def values : Call → List Value
  | extend _ _ values | primitive _ _ values => values
  | assign _ _ v | box v => [v]
  | contents ref => [.box ref]
  | setBox ref v => [.box ref, v]
  | empty | lookup .. => []

/-- Gives new environments and values to the host. -/
def perform : Call → Action (List Env × List Value)
  | empty => fun h => .ok ([h.newRoot.1], []) h.newRoot.2
  | extend env names values => do return ([← env.extend names values], [])
  | lookup env x => do return ([], [← env.lookup x])
  | assign env x v => do
      env.assign x v
      return ([], [])
  | box v => do return ([], [.box (← BoxRef.new v)])
  | contents ref => do return ([], [← ref.get])
  | setBox ref v => do
      ref.set v
      return ([], [])
  | primitive table name args => do return ([], [← table.apply name args])

/-- Primitives that are called are safe. -/
def Trusted (h : Heap) : Call → Prop
  | primitive table .. => table.Safe h
  | _ => True

end Host.Call

namespace Host

/-- The host has been given all that it uses, or can write it down. -/
structure Allows (w : Host) (call : Call) : Prop where
  envs : ∀ env ∈ call.envs, env ∈ w.envs
  values : ∀ v ∈ call.values, v ∈ w.held ∨ v.Plain
  trusted : call.Trusted w.heap

/-- The host as it begins, with nothing. -/
def start : Host := ⟨⟨{}, none, []⟩, []⟩

inductive Event : Host → Host → Prop
  | begin {h : Heap} {held : List Value} {envs : List Env} (e : Expr) :
      Event ⟨⟨h, none, held⟩, envs⟩ ⟨⟨h.newRoot.2, some (.initial e h.newRoot.1), held⟩, envs⟩
  | step {table : Table} {s s' : State} {h h' : Heap} {held : List Value} {envs : List Env} :
      table.Safe h → Machine.step table s h = .ok s' h' →
      Event ⟨⟨h, some s, held⟩, envs⟩ ⟨⟨h', some s', held⟩, envs⟩
  | fail {table : Table} {s : State} {h h' : Heap} {err : EvalError} {held : List Value}
      {envs : List Env} : table.Safe h → Machine.step table s h = .error err h' →
      Event ⟨⟨h, some s, held⟩, envs⟩ ⟨⟨h', none, held⟩, envs⟩
  | finish {s : State} {v : Value} {h : Heap} {held : List Value} {envs : List Env} :
      s.control = .halted v → Event ⟨⟨h, some s, held⟩, envs⟩ ⟨⟨h, none, held ++ [v]⟩, envs⟩
  | answer {w : Host} {call : Call} {envs : List Env} {values : List Value} {h' : Heap} :
      w.Allows call → call.perform w.heap = .ok (envs, values) h' →
      Event w ⟨⟨h', w.running, w.held ++ values⟩, w.envs ++ envs⟩
  | refuse {w : Host} {call : Call} {err : EvalError} {h' : Heap} :
      w.Allows call → call.perform w.heap = .error err h' →
      Event w ⟨⟨h', w.running, w.held⟩, w.envs⟩

/-- Events lead from one host to another. -/
abbrev Leads : Host → Host → Prop := Relation.ReflTransGen Event

/-- All that the host, the program that it runs and the heap refer to is on the heap. -/
structure Allocated (w : Host) : Prop where
  heap : w.heap.Sound
  running : ∀ s, w.running = some s → s.Allocated w.heap
  held : ∀ v ∈ w.held, v.Allocated w.heap
  envs : ∀ env ∈ w.envs, env < w.heap.frames.size

variable {w w' : Host} {call : Call} {h h' : Heap}

/-- The call gives what is on the heap that it leaves. -/
def Gives (h : Heap) (given : List Env × List Value) : Prop :=
  (∀ env ∈ given.1, env < h.frames.size) ∧ ∀ v ∈ given.2, v.Allocated h

theorem gives_env {env : Env} (henv : env < h.frames.size) : Gives h ([env], []) :=
  ⟨List.forall_mem_singleton.mpr henv, List.forall_mem_nil _⟩

theorem gives_value {v : Value} (hv : v.Allocated h) : Gives h ([], [v]) :=
  ⟨List.forall_mem_nil _, List.forall_mem_singleton.mpr hv⟩

theorem gives_nothing : Gives h ([], []) :=
  ⟨List.forall_mem_nil _, List.forall_mem_nil _⟩

theorem Call.safe_perform (henvs : ∀ env ∈ call.envs, env < h.frames.size)
    (hvalues : ∀ v ∈ call.values, v.Allocated h) (trusted : call.Trusted h) :
    Action.Safe h Gives call.perform := by
  cases call with
  | empty =>
      have root : h.newRoot.1 < h.newRoot.2.frames.size := by simp [Heap.newRoot]
      exact fun sound => .ok h.grows_newRoot sound.newRoot (gives_env root)
  | extend env names values =>
      have henv := henvs env List.mem_cons_self
      exact (Env.safe_extend henv hvalues).bind fun _ _ _ inner =>
        Action.safe_pure (gives_env inner)
  | lookup env x =>
      exact Env.safe_lookup.bind fun _ _ _ hv => Action.safe_pure (gives_value hv)
  | assign env x v =>
      have hv := hvalues v List.mem_cons_self
      exact (Env.safe_assign hv).bind fun _ _ _ _ => Action.safe_pure gives_nothing
  | box v =>
      have hv := hvalues v List.mem_cons_self
      exact (BoxRef.safe_new hv).bind fun _ _ _ href => Action.safe_pure (gives_value href)
  | contents ref =>
      exact BoxRef.safe_get.bind fun _ _ _ hv => Action.safe_pure (gives_value hv)
  | setBox ref v =>
      have hv := hvalues v (List.mem_cons_of_mem _ List.mem_cons_self)
      exact (BoxRef.safe_set hv).bind fun _ _ _ _ => Action.safe_pure gives_nothing
  | primitive table name args =>
      exact (trusted name args hvalues).bind fun _ _ _ hv => Action.safe_pure (gives_value hv)

/-- What the host asks for is safe, as it uses only what it has been given. -/
theorem Allows.safe_perform (allows : w.Allows call) (allocated : w.Allocated) :
    Action.Safe w.heap Gives call.perform := by
  refine Call.safe_perform ?_ ?_ allows.trusted
  · exact fun env mem => allocated.envs env (allows.envs env mem)
  · intro v mem
    rcases allows.values v mem with mem | plain
    · exact allocated.held v mem
    · exact plain.allocated

theorem allocated_idle : ∀ s : State, none = some s → s.Allocated h := by
  intro s hs
  cases hs

/-- What was on a heap is on the heap that it has grown to. -/
theorem Allocated.grown (allocated : w.Allocated) (grows : w.heap.Grows h') (sound : h'.Sound) :
    Allocated ⟨⟨h', w.running, w.held⟩, w.envs⟩ where
  heap := sound
  running s hs := (allocated.running s hs).mono grows
  held := Value.allocated_all_mono allocated.held grows
  envs env mem := Nat.lt_of_lt_of_le (allocated.envs env mem) grows.frames_le

theorem Event.allocated (event : w.Event w') (allocated : w.Allocated) :
    w.heap.Grows w'.heap ∧ w'.Allocated := by
  cases event with
  | @begin h held envs e =>
      have grows := h.grows_newRoot
      obtain ⟨heap, -, held, envs⟩ := allocated.grown grows allocated.heap.newRoot
      refine ⟨grows, heap, ?_, held, envs⟩
      intro s hs
      cases hs
      exact Machine.allocated_initial e
  | step primitives hstep =>
      have safe := Machine.safe_step primitives (allocated.running _ rfl)
      obtain ⟨grows, sound, hs'⟩ := safe.of_ok allocated.heap hstep
      obtain ⟨heap, -, held, envs⟩ := allocated.grown grows sound
      refine ⟨grows, heap, ?_, held, envs⟩
      intro s hs
      cases hs
      exact hs'
  | fail primitives hstep =>
      have safe := Machine.safe_step primitives (allocated.running _ rfl)
      obtain ⟨grows, sound⟩ := safe.of_error allocated.heap hstep
      obtain ⟨heap, -, held, envs⟩ := allocated.grown grows sound
      exact ⟨grows, heap, allocated_idle, held, envs⟩
  | @finish s v h held envs hv =>
      have hs := allocated.running s rfl
      have returned : v.Allocated h := hs.control v (by simp [hv, Control.values])
      refine ⟨.refl h, allocated.heap, allocated_idle, ?_, allocated.envs⟩
      exact forall_mem_snoc allocated.held returned
  | answer allows ok =>
      obtain ⟨grows, sound, newEnvs, newValues⟩ := (allows.safe_perform allocated).of_ok
        allocated.heap ok
      obtain ⟨heap, running, held, envs⟩ := allocated.grown grows sound
      refine ⟨grows, heap, running, ?_, ?_⟩
      · exact List.forall_mem_append.mpr ⟨held, newValues⟩
      · exact List.forall_mem_append.mpr ⟨envs, newEnvs⟩
  | refuse allows refused =>
      obtain ⟨grows, sound⟩ := (allows.safe_perform allocated).of_error allocated.heap refused
      exact ⟨grows, allocated.grown grows sound⟩

theorem allocated_start : start.Allocated :=
  ⟨Heap.sound_empty, allocated_idle, List.forall_mem_nil _, List.forall_mem_nil _⟩

/-- Induction on the events. -/
theorem Leads.allocated (leads : Leads w w') (allocated : w.Allocated) :
    w.heap.Grows w'.heap ∧ w'.Allocated := by
  induction leads with
  | refl => exact ⟨.refl w.heap, allocated⟩
  | tail _ event ih =>
      obtain ⟨first, allocated⟩ := ih
      obtain ⟨last, allocated⟩ := event.allocated allocated
      exact ⟨first.trans last, allocated⟩

/-- Whatever a host does, with the standard primitives or with safe ones in addition, the
references that it, the running program and the heap hold are to what is on the heap. A
new frame has the names and the parent that it is made with, and whatever happens next
they stay as they are. From every frame the parents lead to a frame without names and
parent, after no more steps than the frame has frames before it: so the depth of an
environment is its number of frames without that last one, and a name that is looked up
or assigned to is found in one of them or is unbound. -/
theorem frames_fixed_and_chains_end : (∀ h, Table.standard.Safe h) ∧
    (∀ (t : Table) (p : Primitive) (name : Name) (h : Heap), t.Safe h → p.Safe h →
      (t.register name p).Safe h) ∧
    ∀ w, Leads start w → w.Allocated ∧
      w.heap.newRoot.2.frames[w.heap.newRoot.1]? = some ⟨[], none⟩ ∧
      (∀ env names values inner h', Env.extend env names values w.heap = .ok inner h' →
        ∃ f, h'.frames[inner]? = some f ∧ f.names = names ∧ f.parent = some env) ∧
      (∀ w', Leads w w' → ∀ (place : Env) (f : Frame), w.heap.frames[place]? = some f →
        ∃ f', w'.heap.frames[place]? = some f' ∧ f'.names = f.names ∧ f'.parent = f.parent) ∧
      ∀ env : Env, env < w.heap.frames.size → ∃ frames, w.heap.Chain env frames ∧
        frames.length ≤ env + 1 ∧ frames.getLast? = some ⟨[], none⟩ ∧
        w.heap.scopes env = frames.map Frame.names ∧
        (w.heap.scopes env).length - 1 + 1 = frames.length ∧
        ∀ x, (env.lookup x w.heap = match frames.findSome? (·.get? x) with
            | some v => .ok v w.heap
            | none => .error (.unboundName x) w.heap) ∧
          ∀ v, match frames.findSome? (·.get? x) with
            | some _ => ∃ owner, env.assign x v w.heap = .ok () (w.heap.rebind owner x v)
            | none => env.assign x v w.heap = .error (.unboundName x) w.heap := by
  refine ⟨Table.standard_safe, fun t p name h table primitive => table.register primitive, ?_⟩
  intro w reached
  have allocated := (reached.allocated allocated_start).2
  refine ⟨allocated, by simp [Heap.newRoot], ?_, ?_, ?_⟩
  · intro env names values inner h' ok
    obtain ⟨hlen, -, rfl, rfl⟩ := Env.extend_eq_ok_iff.mp ok
    exact ⟨⟨names.zip values, some env⟩, by simp, List.map_fst_zip (Nat.le_of_eq hlen), rfl⟩
  · intro w' later place f hf
    exact (later.allocated allocated).1.frame hf
  · intro env henv
    obtain ⟨frames, chain, hlen⟩ := allocated.heap.exists_chain henv
    have scopes := chain.scopes allocated.heap
    refine ⟨frames, chain, hlen, chain.getLast? allocated.heap, scopes, ?_, ?_⟩
    · rw [scopes, List.length_map, Nat.sub_add_cancel chain.length_pos]
    · intro x
      exact ⟨chain.lookup allocated.heap x, chain.assign allocated.heap x⟩

/-- A program that gives a procedure which gives itself. -/
def knot : Expr := .letRec ["f"] [.lambda [] (.ref "f")] (.ref "f")

/-- The procedure is in the frame that it was made in. -/
def knotted : Value := .procedure ⟨0, [], .ref "f", 1⟩

/-- A host has run the program, with a primitive of its own, and holds the procedure. -/
theorem frames_fixed_and_chains_end_knot : ∃ w, Leads start w ∧ w.held = [knotted] ∧
    w.heap.frames = #[⟨[], none⟩, ⟨[("f", knotted)], some 0⟩] ∧ w.Allocated ∧
    (∀ w', Leads w w' → ∃ f, w'.heap.frames[1]? = some f ∧ f.names = ["f"] ∧
      f.parent = some 0) ∧
    ∃ frames, w.heap.Chain 1 frames ∧ frames.length ≤ 2 ∧
      frames.getLast? = some ⟨[], none⟩ := by
  have primitive : ∀ h, (Primitive.mk 0 fun _ => pure .undefined).Safe h :=
    fun _ _ _ _ => Action.safe_pure trivial
  have safe : ∀ h, (Table.standard.register "hole" ⟨0, fun _ => pure .undefined⟩).Safe h :=
    fun h => frames_fixed_and_chains_end.2.1 _ _ _ h (frames_fixed_and_chains_end.1 h) (primitive h)
  have begun : Leads start _ := .single (.begin knot)
  have entered := (begun.tail (.step (safe _) rfl)).tail (.step (safe _) rfl)
  have filled := entered.tail (.step (safe _) (Action.bind_eq_ok_iff.mpr ⟨(), _,
    Action.bind_eq_ok_iff.mpr ⟨(), _, Env.assign_own_frame rfl List.mem_cons_self, rfl⟩, rfl⟩))
  have looked := filled.tail (.step (safe _) (Action.bind_eq_ok_iff.mpr ⟨knotted, _,
    Env.lookup_eq_ok_iff.mpr ⟨rfl, 1, Heap.find?_here rfl rfl⟩, rfl⟩))
  have returned := (looked.tail (.step (safe _) rfl)).tail (.finish rfl)
  obtain ⟨allocated, -, -, kept, chains⟩ := frames_fixed_and_chains_end.2.2 _ returned
  obtain ⟨frames, chain, hlen, root, -⟩ := chains 1 Nat.one_lt_two
  exact ⟨_, returned, rfl, rfl, allocated, fun w' later => kept w' later 1 _ rfl,
    frames, chain, hlen, root⟩

end Host

end CoreLisp
