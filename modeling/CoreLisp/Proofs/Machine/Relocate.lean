import CoreLisp.Machine.Log
import CoreLisp.Proofs.Machine.Steps
import CoreLisp.Proofs.Primitive.Relocate

/-!
# Runs behind another heap

A state whose places and procedures have moved up steps to the moved next state, and
fails when the original does. So a program that is started on a heap with whatever
in front runs as it does on an empty heap, step by step: the log and the statistics
are the same, the heap in front stays as it is, and only the places differ.
-/
namespace CoreLisp

open CoreLisp.Action

variable {site : Site} {base h h' : Heap} {s s' : State}

def Kont.relocate (site : Site) : Kont → Kont
  | .halt env => .halt (site.place env)
  | .cond env conseq alt => .cond (site.place env) conseq alt
  | .assign env x => .assign (site.place env) x
  | .letIn env names inits body values =>
      .letIn (site.place env) names inits body (values.map (Value.relocate site))
  | .letRec env names inits body values =>
      .letRec (site.place env) names inits body (values.map (Value.relocate site))
  | .seq env body index => .seq (site.place env) body index
  | .primApp env name rands values =>
      .primApp (site.place env) name rands (values.map (Value.relocate site))
  | .operator env rands => .operator (site.place env) rands
  | .operand env rands rator values =>
      .operand (site.place env) rands (rator.relocate site)
        (values.map (Value.relocate site))

def Stack.relocate (site : Site) (s : Stack) : Stack :=
  ⟨s.frames.map (Kont.relocate site), s.depth, by simp [s.depth_eq]⟩

def Control.relocate (site : Site) : Control → Control
  | .evaluating e => .evaluating e
  | .returning v => .returning (v.relocate site)
  | .halted v => .halted (v.relocate site)

def State.relocate (site : Site) (s : State) : State :=
  ⟨s.control.relocate site, site.place s.env, s.stack.relocate site⟩

theorem State.control_relocate {v : Value} (hv : s.control = .halted v) :
    (s.relocate site).control = .halted (v.relocate site) := by
  rw [State.relocate, hv, Control.relocate]

theorem State.Running.relocate (running : s.Running) : (s.relocate site).Running := by
  obtain ⟨control, env, stack⟩ := s
  cases control with
  | evaluating => exact State.running_evaluating
  | returning => exact State.running_returning
  | halted v => exact absurd rfl (running v)

@[simp] theorem Kont.kind_relocate (k : Kont) : (k.relocate site).kind = k.kind := by
  cases k <;> rfl

theorem Stack.pop?_relocate (s : Stack) :
    (s.relocate site).pop? = s.pop?.map fun top => (top.1.relocate site, top.2.relocate site) := by
  obtain ⟨frames, depth, h⟩ := s
  cases frames <;> rfl

namespace Machine

variable {table : Table} {e : Expr} {env : Env} {stack : Stack} {v : Value} {args : List Value}

/-- A step that leaves the heap alone. -/
theorem relocates_state (s : State) :
    Relocates site (State.relocate site) (pure s) (pure (s.relocate site)) :=
  relocates_pure s

theorem relocates_applyProcedure : Relocates site (State.relocate site)
    (applyProcedure v args stack)
    (applyProcedure (v.relocate site) (args.map (Value.relocate site)) (stack.relocate site)) := by
  cases v with
  | procedure f =>
      unfold applyProcedure
      simp only [Value.relocate, Closure.relocate, List.length_map]
      by_cases hlen : args.length = f.params.length
      · simp only [if_pos hlen]
        exact Env.relocates_extend.bind fun inner => relocates_state (.mk _ inner stack)
      · simp only [if_neg hlen]
        exact relocates_throw _
  | _ => exact relocates_throw _

theorem relocates_applyPrimitive {name : Name} : Relocates site (State.relocate site)
    (applyPrimitive .standard name args env stack)
    (applyPrimitive .standard name (args.map (Value.relocate site)) (site.place env)
      (stack.relocate site)) :=
  Table.relocates_standard.bind fun v => relocates_state (.mk (.returning v) env stack)

theorem relocates_visit : Relocates site (State.relocate site) (visit .standard e env stack)
    (visit .standard e (site.place env) (stack.relocate site)) := by
  cases e with
  | datum d =>
      have moved := @relocates_state site ⟨.returning d.value, env, stack⟩
      rwa [State.relocate, Control.relocate, Datum.relocate_value] at moved
  | ref x =>
      exact Env.relocates_lookup.bind fun v => relocates_state (.mk (.returning v) env stack)
  | lambda params body =>
      exact Closure.relocates_new.bind fun f =>
        relocates_state (.mk (.returning (.procedure f)) env stack)
  | cond test conseq alt =>
      exact relocates_state (.mk (.evaluating test) env (stack.push (.cond env conseq alt)))
  | assign x rhs =>
      exact relocates_state (.mk (.evaluating rhs) env (stack.push (.assign env x)))
  | seq body =>
      match body with
      | [] => exact relocates_throw _
      | [single] => exact relocates_state (.mk (.evaluating single) env stack)
      | first :: second :: rest =>
          exact relocates_state
            (.mk (.evaluating first) env (stack.push (.seq env (first :: second :: rest) 1)))
  | letIn names inits body =>
      unfold visit
      by_cases hlen : names.length = inits.length
      · simp only [if_neg (Decidable.not_not.mpr hlen)]
        cases inits with
        | nil => exact relocates_state (.mk (.evaluating body) env stack)
        | cons first rest =>
            exact relocates_state (.mk (.evaluating first) env
              (stack.push (.letIn env names (first :: rest) body [])))
      · simp only [if_pos hlen]
        exact relocates_throw _
  | letRec names inits body =>
      unfold visit
      by_cases hlen : names.length = inits.length
      · simp only [if_neg (Decidable.not_not.mpr hlen)]
        cases inits with
        | nil => exact relocates_throw _
        | cons first rest =>
            have extend : Relocates site _
                (Env.extend env names (names.map fun _ => .undefined)) _ := Env.relocates_extend
            rw [List.map_map] at extend
            exact extend.bind fun inner => relocates_state (.mk (.evaluating first) inner
              (stack.push (.letRec inner names (first :: rest) body [])))
      · simp only [if_pos hlen]
        exact relocates_throw _
  | primApp name rands =>
      cases rands with
      | nil => exact relocates_applyPrimitive
      | cons first rest =>
          exact relocates_state (.mk (.evaluating first) env
            (stack.push (.primApp env name (first :: rest) [])))
  | app rator rands =>
      exact relocates_state (.mk (.evaluating rator) env (stack.push (.operator env rands)))

theorem relocate_snoc {values : List Value} : values.map (Value.relocate site) ++
    [v.relocate site] = (values ++ [v]).map (Value.relocate site) := by
  simp

/-- The frame goes on as it does alone. A frame with a list of parts looks at the same
index, since it has gathered as many values. -/
theorem relocates_resume {k : Kont} : Relocates site (State.relocate site)
    (resume .standard k v stack)
    (resume .standard (k.relocate site) (v.relocate site) (stack.relocate site)) := by
  cases k with
  | halt root => exact relocates_state (.mk (.halted v) root stack)
  | cond outer conseq alt =>
      simp only [Kont.relocate, resume, Value.isTruthy_relocate]
      exact relocates_state (.mk (.evaluating (if v.isTruthy then conseq else alt)) outer stack)
  | assign outer x =>
      exact Env.relocates_assign.bind fun _ => relocates_state (.mk (.returning .unit) outer stack)
  | seq outer body index =>
      simp only [Kont.relocate, resume]
      cases body[index]? with
      | none => exact relocates_state (.mk (.returning v) outer stack)
      | some next =>
          by_cases hlt : index + 1 < body.length
          · simp only [if_pos hlt]
            exact relocates_state
              (.mk (.evaluating next) outer (stack.push (.seq outer body (index + 1))))
          · simp only [if_neg hlt]
            exact relocates_state (.mk (.evaluating next) outer stack)
  | letIn outer names inits body values =>
      simp only [Kont.relocate, resume, List.length_map, relocate_snoc]
      cases inits[values.length + 1]? with
      | none =>
          exact Env.relocates_extend.bind fun inner =>
            relocates_state (.mk (.evaluating body) inner stack)
      | some next =>
          exact relocates_state (.mk (.evaluating next) outer
            (stack.push (.letIn outer names inits body (values ++ [v]))))
  | letRec inner names inits body values =>
      simp only [Kont.relocate, resume, List.length_map, relocate_snoc, List.zip_map_right]
      cases inits[values.length + 1]? with
      | none =>
          exact Env.relocates_assignAll.bind fun _ =>
            relocates_state (.mk (.evaluating body) inner stack)
      | some next =>
          exact relocates_state (.mk (.evaluating next) inner
            (stack.push (.letRec inner names inits body (values ++ [v]))))
  | primApp outer name rands values =>
      simp only [Kont.relocate, resume, List.length_map, relocate_snoc]
      cases rands[values.length + 1]? with
      | none => exact relocates_applyPrimitive
      | some next =>
          exact relocates_state (.mk (.evaluating next) outer
            (stack.push (.primApp outer name rands (values ++ [v]))))
  | operator outer rands =>
      cases rands with
      | nil => exact relocates_applyProcedure
      | cons first rest =>
          exact relocates_state
            (.mk (.evaluating first) outer (stack.push (.operand outer (first :: rest) v [])))
  | operand outer rands rator values =>
      simp only [Kont.relocate, resume, List.length_map, relocate_snoc]
      cases rands[values.length + 1]? with
      | none => exact relocates_applyProcedure
      | some next =>
          exact relocates_state (.mk (.evaluating next) outer
            (stack.push (.operand outer rands rator (values ++ [v]))))

theorem relocates_step : Relocates site (State.relocate site) (step .standard s)
    (step .standard (s.relocate site)) := by
  obtain ⟨control, env, stack⟩ := s
  cases control with
  | evaluating e => exact relocates_visit
  | returning v =>
      simp only [step, State.relocate, Control.relocate, Stack.pop?_relocate]
      cases stack.pop? with
      | none => exact relocates_throw _
      | some top => exact relocates_resume
  | halted v => exact relocates_state (.mk (.halted v) env stack)

/-- The log of a step does not tell where a state is. -/
theorem events_relocate (rooted : h.Rooted) (number : Nat) :
    (s.relocate site).events number (site.behind h) = s.events number h := by
  obtain ⟨control, env, stack⟩ := s
  obtain ⟨frames, depth, hdepth⟩ := stack
  cases control <;> cases frames <;>
    simp [State.events, State.relocate, Stack.relocate, Control.relocate, Control.text,
      Heap.scopes_behind rooted]

theorem closing_relocate (stats : Stats) (ending : Ending) :
    closing stats (moved site (Value.relocate site) ending) = closing stats ending := by
  cases ending with
  | ok v h => exact congrArg (Event.halted · stats) Value.text_relocate
  | error e h => rfl

section Loop
variable {σ : Type} {observe : State → Heap → σ → σ} {fuel : Nat} {seen : σ}

/-- If the observer does not tell where a state is then a run is observed and ends as it
does alone. -/
theorem runWith_relocate (blind : ∀ s h seen, h.Rooted →
      observe (s.relocate site) (site.behind h) seen = observe s h seen) (rooted : h.Rooted) :
    runWith .standard observe fuel seen (s.relocate site) (site.behind h) =
      (runWith .standard observe fuel seen s h).map fun run =>
        (run.1, moved site (Value.relocate site) run.2) := by
  induction fuel generalizing seen s h with
  | zero =>
      rcases s.halted_or_running with ⟨v, hv⟩ | running
      · rw [runWith_halted hv, runWith_halted (State.control_relocate hv)]
        rfl
      · rw [runWith_no_fuel running, runWith_no_fuel running.relocate]
        rfl
  | succ fuel ih =>
      rcases s.halted_or_running with ⟨v, hv⟩ | running
      · rw [runWith_halted hv, runWith_halted (State.control_relocate hv)]
        rfl
      · obtain ⟨same, rooted'⟩ := @relocates_step site s h rooted
        rw [runWith_running running, runWith_running running.relocate, same, blind s h seen rooted]
        cases hs : step .standard s h with
        | ok s' h' =>
            rw [hs] at rooted'
            exact ih rooted'
        | error e h' => rfl

/-- A program that is started on a site runs as on an empty heap. -/
theorem runWith_site (blind : ∀ s h seen, h.Rooted →
      observe (s.relocate site) (site.behind h) seen = observe s h seen) :
    runWith .standard observe fuel seen (.initial e site.root) site.front =
      (evaluateWith .standard observe fuel seen e {}).map fun run =>
        (run.1, moved site (Value.relocate site) run.2) := by
  have start : State.initial e site.root =
      (State.initial e ({} : Heap).newRoot.1).relocate site := rfl
  unfold evaluateWith
  rw [← runWith_relocate blind Heap.rooted_newRoot, ← start, Heap.behind_newRoot]

/-- A program that is started on a heap makes a new root there. -/
theorem evaluateWith_relocate (blind : ∀ s h seen, h.Rooted →
      observe (s.relocate base.site) (base.site.behind h) seen = observe s h seen) :
    evaluateWith .standard observe fuel seen e base =
      (evaluateWith .standard observe fuel seen e {}).map fun run =>
        (run.1, moved base.site (Value.relocate base.site) run.2) :=
  runWith_site blind

end Loop

/-- The statistics and the ending of a run do not depend on the heap that the program
finds, but for the places in the ending. -/
theorem evaluate_relocate (e : Expr) (base : Heap) {fuel : Nat} : evaluate .standard fuel e base =
    (evaluate .standard fuel e {}).map fun run =>
      (run.1, moved base.site (Value.relocate base.site) run.2) :=
  evaluateWith_relocate fun _ _ _ _ => rfl

/-- What a program leaves stands behind what it has found. -/
theorem moved_of_evaluate {fuel : Nat} {stats : Stats} {ending : Ending}
    (run : evaluate .standard fuel e base = some (stats, ending)) :
    ∃ alone, ending = moved base.site (Value.relocate base.site) alone := by
  rw [evaluate_relocate e base] at run
  obtain ⟨alone, -, he⟩ := Option.map_eq_some_iff.mp run
  cases he
  exact ⟨alone.2, rfl⟩

/-- The log, the statistics and the ending of a run do not depend on the heap that the
program finds, but for the places in the ending. -/
theorem trace_relocate {fuel : Nat} : trace .standard fuel e base =
    (trace .standard fuel e {}).map fun run =>
      (run.1, run.2.1, moved base.site (Value.relocate base.site) run.2.2) := by
  have blind : ∀ s h seen, h.Rooted → Trace.observe (s.relocate base.site) (base.site.behind h)
      seen = Trace.observe s h seen := by
    intro s h seen rooted
    simp only [Trace.observe, events_relocate rooted]
    rfl
  unfold trace
  rw [evaluateWith_relocate blind]
  cases evaluateWith .standard Trace.observe fuel {} e {} with
  | none => rfl
  | some run =>
      obtain ⟨seen, ending⟩ := run
      simp [closing_relocate]

/-- All states of a run stand behind the heap that the program has found. -/
theorem Reachable.behind (reached : Reachable .standard e base s' h') :
    ∃ s h, Reachable .standard e {} s h ∧ s' = s.relocate base.site ∧ h' = base.site.behind h := by
  have whole : ∃ s h, Reachable .standard e {} s h ∧ s' = s.relocate base.site ∧
      h' = base.site.behind h ∧ h.Rooted := by
    refine reached.induction (P := fun s' h' => ∃ s h, Reachable .standard e {} s h ∧
      s' = s.relocate base.site ∧ h' = base.site.behind h ∧ h.Rooted) ?_ ?_
    · exact ⟨_, _, ⟨0, .done _ _⟩, rfl, (@Heap.behind_newRoot base.site).symm, Heap.rooted_newRoot⟩
    · intro s' s'' h' h'' _ hs alone
      obtain ⟨s, h, reached, rfl, rfl, rooted⟩ := alone
      obtain ⟨same, rooted'⟩ := @relocates_step base.site s h rooted
      rw [same] at hs
      cases hstep : Machine.step .standard s h with
      | ok s₁ h₁ =>
          rw [hstep] at hs rooted'
          cases hs
          exact ⟨s₁, h₁, reached.step hstep, rfl, rfl, rooted'⟩
      | error e h₁ =>
          rw [hstep] at hs
          cases hs
  obtain ⟨s, h, reached, hs, hh, -⟩ := whole
  exact ⟨s, h, reached, hs, hh⟩

end Machine

end CoreLisp
