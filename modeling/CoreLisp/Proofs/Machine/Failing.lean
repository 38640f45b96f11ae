import CoreLisp.Proofs.Machine.Scope
import CoreLisp.Proofs.Machine.Shape

/-!
# A failing step writes nothing

What a step has written stays written when it fails later, so a step that failed in the
midst of its writes would leave half of them behind. No step does. All steps but one
make a single write, after the last of their checks. The exception is the end of a
recursive binding, which assigns all names of a frame one after the other: there the
frame on the stack still stands where it was made for these names, and an assignment
that finds its name in the frame itself cannot fail.
-/
namespace CoreLisp

variable {program body : Expr} {h h' : Heap} {env place outer : Env} {below : Stack}
  {names : List Name} {inits : List Expr} {values : List Value} {x : Name} {v w : Value}

/-- Of several assignments to names of a frame, each finds those before it done and its own
name in the frame. -/
theorem Env.assign_of_split {bindings before after : List (Name × Value)}
    (enters : h.Enters outer (some names) place) (bound : ∀ b ∈ bindings, b.1 ∈ names)
    (split : bindings = before ++ (x, w) :: after) :
    ∃ h₁, place.assignAll before h = .ok () h₁ ∧
      place.assign x w h₁ = .ok () (h₁.rebind place x w) := by
  subst split
  obtain ⟨boundBefore, boundRest⟩ := List.forall_mem_append.mp bound
  obtain ⟨h₁, ok⟩ := assignAll_frame_ok enters boundBefore
  -- the frame has the same names after the first assignments
  obtain ⟨-, f, hf, hnames, -⟩ := (grows_of_assignAll ok).enters enters
  exact ⟨h₁, ok, assign_own_frame hf (hnames ▸ boundRest _ List.mem_cons_self)⟩

namespace Machine

/-- The step that ends a recursive binding has a value for each name, and it makes all the
assignments in the frame of the binding. -/
theorem Reachable.letRec_filled
    (reached : Reachable .standard program h
      ⟨.returning v, env, below.push (.letRec place names inits body values)⟩ h')
    (last : inits[values.length + 1]? = none) :
    names.length = (values ++ [v]).length ∧ (∃ f, h'.frames[place]? = some f ∧ f.names = names) ∧
    (∀ before x w after, names.zip (values ++ [v]) = before ++ (x, w) :: after →
      ∃ h₁, place.assignAll before h' = .ok () h₁ ∧
        place.assign x w h₁ = .ok () (h₁.rebind place x w)) ∧
    ∃ h'', place.assignAll (names.zip (values ++ [v])) h' = .ok () h'' := by
  obtain ⟨waiting, -⟩ := Stack.Shaped.below reached.shaped rfl
  obtain ⟨outer, enters⟩ := (reached.stands.1.frames _ List.mem_cons_self).enters_letRec
  have bound : ∀ b ∈ names.zip (values ++ [v]), b.1 ∈ names := fun b hb => (List.of_mem_zip hb).1
  refine ⟨waiting.length_of_last last, ?_, ?_, Env.assignAll_frame_ok enters bound⟩
  · obtain ⟨-, f, hf, hnames, -⟩ := enters
    exact ⟨f, hf, hnames⟩
  · intro before x w after split
    exact Env.assign_of_split enters bound split

/-- In every state of every run, a step that fails leaves the heap as it was. In particular
the step that ends a recursive binding never stops between its assignments: there is a
value for each name, each assignment finds its name in the frame of the binding, and the
step does not fail. So what a failed run leaves behind is the heap of the state it failed
in. A call of a primitive that fails leaves the heap as it was too. -/
theorem failing_step_writes_nothing (program : Expr) (h : Heap) :
    (∀ s h', Reachable .standard program h s h' →
      (∀ err h'', step .standard s h' = .error err h'' → h'' = h') ∧
      ∀ place names inits body values v, ∀ below : Stack, s.control = .returning v →
        s.stack = below.push (.letRec place names inits body values) →
        inits[values.length + 1]? = none →
        names.length = (values ++ [v]).length ∧
        (∃ f, h'.frames[place]? = some f ∧ f.names = names) ∧
        (∀ before x w after, names.zip (values ++ [v]) = before ++ (x, w) :: after →
          ∃ h₁, place.assignAll before h' = .ok () h₁ ∧
            place.assign x w h₁ = .ok () (h₁.rebind place x w)) ∧
        ∃ h'', step .standard s h' = .ok ⟨.evaluating body, place, below⟩ h'') ∧
    (∀ fuel stats err h', evaluate .standard fuel program h = some (stats, .error err h') →
      ∃ s, Reachable .standard program h s h' ∧ step .standard s h' = .error err h') ∧
    ∀ name args err h', Table.standard.apply name args h = .error err h' → h' = h := by
  refine ⟨?_, ?_, fun name args err h' fail => (Table.apply_standard_error fail).1⟩
  · intro s h' reached
    refine ⟨fun err h'' fail => reached.heap_eq_of_error fail, ?_⟩
    intro place names inits body values v below hcontrol hstack last
    obtain ⟨control, env, stack⟩ := s
    cases hcontrol
    cases hstack
    obtain ⟨lengths, frame, assigns, h'', filled⟩ := reached.letRec_filled last
    exact ⟨lengths, frame, assigns, h'', step_eq_ok_iff.mpr (.letRecDone last filled)⟩
  · intro fuel stats err h' run
    obtain ⟨n, -, ends⟩ := evaluate_eq_some_iff.mp ⟨stats, run⟩
    exact ends.failing_state

/-- A recursive binding of two names whose body fails. The second name gets its value in a
frame in which the first one has its own, and the failure finds and leaves both. -/
theorem failing_step_writes_nothing_pair :
    (∃ s h, Reachable .standard (.letRec ["a", "b"]
        [.datum (.integer 1), .datum (.integer 2)] (.primApp "unbox" [])) {} s h ∧
      h.frames[1]? = some ⟨[("a", .undefined), ("b", .undefined)], some 0⟩ ∧
      (∃ h₁, Env.assignAll 1 [("a", .integer 1)] h = .ok () h₁ ∧
        Env.assign 1 "b" (.integer 2) h₁ = .ok () (h₁.rebind 1 "b" (.integer 2))) ∧
      ∃ s' h', step .standard s h = .ok s' h' ∧
        h'.frames[1]? = some ⟨[("a", .integer 1), ("b", .integer 2)], some 0⟩ ∧
        ∃ err h'', step .standard s' h' = .error err h'' ∧ h'' = h') ∧
    ∃ err h', Table.standard.apply "set_box" [.unit, .unit] { boxes := #[.integer 7] } =
      .error err h' ∧ h' = { boxes := #[.integer 7] } := by
  obtain ⟨states, -⟩ := failing_step_writes_nothing (.letRec ["a", "b"]
    [.datum (.integer 1), .datum (.integer 2)] (.primApp "unbox" [])) {}
  have reached : Reachable .standard (.letRec ["a", "b"]
      [.datum (.integer 1), .datum (.integer 2)] (.primApp "unbox" [])) {} _ _ :=
    ⟨4, .step State.running_evaluating rfl (.step State.running_evaluating rfl
      (.step State.running_returning rfl (.one State.running_evaluating rfl)))⟩
  obtain ⟨-, patching⟩ := states _ _ reached
  obtain ⟨-, -, assigns, -⟩ := patching 1 _ _ _ _ _ _ rfl rfl rfl
  have first : Env.assign 1 "a" (.integer 1) ⟨#[⟨[], none⟩,
      ⟨[("a", .undefined), ("b", .undefined)], some 0⟩], #[], 0⟩ = .ok () _ :=
    Env.assign_own_frame rfl List.mem_cons_self
  have second : Env.assign 1 "b" (.integer 2) ⟨#[⟨[], none⟩,
      ⟨[("a", .integer 1), ("b", .undefined)], some 0⟩], #[], 0⟩ = .ok () _ :=
    Env.assign_own_frame rfl (List.mem_cons_of_mem _ List.mem_cons_self)
  have patched : Env.assignAll 1 (["a", "b"].zip ([.integer 1] ++ [.integer 2])) _ = .ok () _ :=
    Action.bind_eq_ok_iff.mpr ⟨(), _, first, Action.bind_eq_ok_iff.mpr ⟨(), _, second, rfl⟩⟩
  have last : step .standard ⟨.returning (.integer 2), 1, (Stack.empty.push (.halt 0)).push
      (.letRec 1 ["a", "b"] [.datum (.integer 1), .datum (.integer 2)] (.primApp "unbox" [])
        [.integer 1])⟩ _ = .ok _ _ :=
    step_eq_ok_iff.mpr (.letRecDone rfl patched)
  obtain ⟨failing, -⟩ := states _ _ (reached.step last)
  refine ⟨⟨_, _, reached, rfl, assigns [("a", .integer 1)] "b" (.integer 2) [] rfl, _, _, last, rfl,
    _, _, rfl, failing _ _ rfl⟩, _, _, rfl, ?_⟩
  have refused : Table.standard.apply "set_box" [.unit, .unit] { boxes := #[.integer 7] } =
    .error _ _ := rfl
  exact (failing_step_writes_nothing (.seq []) { boxes := #[.integer 7] }).2.2 _ _ _ _ refused

end Machine

end CoreLisp
