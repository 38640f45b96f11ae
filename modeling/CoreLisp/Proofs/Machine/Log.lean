import CoreLisp.Proofs.Machine.Registers
import CoreLisp.Proofs.Machine.Shape
import CoreLisp.Proofs.Machine.Visits

/-!
# What the log tells

The log of a run goes through the states of the run one by one. The step line of a
state says how deep the stack is before the step, while the greatest depth is
reported at the end and the frame that a value goes to is named in between. That all
this fits together rests on the shape of the stack: a state that returns a value has
a frame for it, a step adds or takes away one frame at most, and the end of the
program is resumed once, by the last step.
-/
namespace CoreLisp

namespace Event

/-- What a step line says of the step, apart from the frames in scope. -/
structure StepLine where
  number : Nat
  depth : Nat
  control : String

def stepLine? : Event → Option StepLine
  | step number depth _ control => some ⟨number, depth, control⟩
  | _ => none

/-- The step lines of a log. -/
def stepLines (log : List Event) : List StepLine := log.filterMap stepLine?

namespace StepLine

def Evaluating (l : StepLine) : Prop := ∃ kind, l.control = "evaluating " ++ kind

def Returning (l : StepLine) : Prop := ∃ text, l.control = "returning " ++ text

/-- A frame may be added while an expression is visited, and taken away when a value is
returned. -/
structure Leads (l next : StepLine) : Prop where
  visit : l.Evaluating → next.depth = l.depth ∨ next.depth = l.depth + 1
  resume : l.Returning → next.depth = l.depth ∨ next.depth + 1 = l.depth

end StepLine

/-- The second line names the frame that gets a value just if the first is the step line
that returns the value. -/
def Answered (line next : Event) : Prop :=
  ∀ text, (∃ number depth scopes, line = .step number depth scopes ("returning " ++ text)) ↔
    ∃ kind, next = .resuming kind text

/-- The line is not the step line of a state that returns a value. -/
def Silent (line : Event) : Prop :=
  ∀ number depth scopes text, line ≠ .step number depth scopes ("returning " ++ text)

theorem Silent.answered {line next : Event} (silent : line.Silent)
    (other : ∀ kind text, next ≠ .resuming kind text) : line.Answered next := by
  intro text
  constructor
  · rintro ⟨number, depth, scopes, h⟩
    exact absurd h (silent number depth scopes text)
  · rintro ⟨kind, h⟩
    exact absurd h (other kind text)

theorem answered_resuming (number depth scopes : Nat) (kind text : String) :
    (step number depth scopes ("returning " ++ text)).Answered (.resuming kind text) := by
  intro text'
  simp [String.append_right_inj]

end Event

namespace Control

variable {c : Control} {text : String}

theorem text_eq_evaluating_iff : (∃ kind, c.text = "evaluating " ++ kind) ↔
    ∃ e, c = .evaluating e := by
  cases c with
  | evaluating e => exact ⟨fun _ => ⟨e, rfl⟩, fun _ => ⟨e.kind, rfl⟩⟩
  | returning | halted => simp [Control.text, String.ext_iff]

theorem text_eq_returning_iff : c.text = "returning " ++ text ↔
    ∃ v, c = .returning v ∧ v.text = text := by
  cases c with
  | returning v => simp [Control.text, String.append_right_inj]
  | evaluating | halted => simp [Control.text, String.ext_iff]

theorem halted_of_text (h : c.text = "halted with " ++ text) : ∃ v, c = .halted v := by
  cases c with
  | halted v => exact ⟨v, rfl⟩
  | evaluating | returning => simp [Control.text, String.ext_iff] at h

end Control

theorem Kont.isHalt_of_kind {k : Kont} (h : k.kind = "halt") : k.isHalt = true := by
  cases k <;> first | rfl | simp [kind] at h

/-- Until the machine halts there is a frame on the stack. -/
theorem State.Shaped.exists_push {s : State} (shaped : s.Shaped) (running : s.Running) :
    ∃ k below, s.stack = Stack.push k below := by
  obtain ⟨control, env, stack⟩ := s
  have shaped : stack.Shaped := by
    cases control with
    | halted v => exact absurd rfl (running v)
    | evaluating | returning => exact shaped
  exact stack.empty_or_push.resolve_left shaped.ne_empty

namespace Machine

open Event (StepLine stepLines Answered Silent)

variable {table : Table} {fuel n : Nat} {e : Expr} {s s' : State} {h h' : Heap} {a : Ending}
variable {visited : List (State × Heap)} {stats : Stats} {log : List Event} {v : Value}

/-- A step pushes one frame at most, and only a step that has taken a frame away leaves
fewer than before. -/
theorem Transition.depth (t : Transition table s h s' h') :
    ((∃ e, s.control = .evaluating e) → s'.stack.depth = s.stack.depth ∨
      s'.stack.depth = s.stack.depth + 1) ∧
    ((∃ v, s.control = .returning v) → s'.stack.depth = s.stack.depth ∨
      s'.stack.depth + 1 = s.stack.depth) := by
  cases t <;> simp

/-- In a run that halts, the last state and no other resumes the end of the program. -/
theorem Visits.halts (visits : Visits table visited s h (.ok v h')) (running : s.Running)
    (shaped : s.Shaped) :
    ∃ front env root, visited =
        front ++ [(⟨.returning v, env, Stack.empty.push (.halt root)⟩, h')] ∧
      ∀ p ∈ front, ∀ w k below, p.1.control = .returning w → p.1.stack = Stack.push k below →
        k.isHalt = false := by
  generalize ha : (EStateM.Result.ok v h' : Ending) = a at visits
  induction visits with
  | halted _ hv => exact absurd hv (running _)
  | failed => cases ha
  | @step visited s s₁ h h₁ a _ hs visits ih =>
      subst ha
      have t := step_eq_ok_iff.mp hs
      rcases s₁.halted_or_running with ⟨w, hw⟩ | running₁
      · -- the next state has halted, so this one is the last
        obtain ⟨env, root, below, rfl, -, rfl⟩ := t.halting running hw
        obtain rfl := Stack.Shaped.below_halt shaped
        cases visits with
        | halted _ hv =>
            rw [hw] at hv
            cases hv
            exact ⟨[], env, root, rfl, List.forall_mem_nil _⟩
        | step running₁ => exact absurd hw (running₁ _)
      · obtain ⟨front, env, root, rfl, inner⟩ := ih running₁ (t.shaped shaped) rfl
        refine ⟨(s, h) :: front, env, root, rfl, List.forall_mem_cons.mpr ⟨?_, inner⟩⟩
        intro w k below hcontrol hstack
        obtain ⟨control, env, stack⟩ := s
        cases hcontrol
        cases hstack
        cases k with
        | halt root =>
            cases hs
            exact absurd rfl (running₁ w)
        | _ => rfl

/-- The lines of the steps from these states, the first of which is step `number`. -/
def stepsLog (number : Nat) : List (State × Heap) → List Event
  | [] => []
  | (s, h) :: visited => s.events number h ++ stepsLog (number + 1) visited

/-- The step line of a state. -/
def lineOf (number : Nat) (s : State) : StepLine := ⟨number, s.stack.depth, s.control.text⟩

theorem stepLines_events (number : Nat) (s : State) (h : Heap) :
    stepLines (s.events number h) = [lineOf number s] := by
  obtain ⟨control, env, stack⟩ := s
  obtain ⟨frames, depth, hdepth⟩ := stack
  cases control <;> cases frames <;> rfl

theorem stepLines_stepsLog_cons (number : Nat) (s : State) (h : Heap) :
    stepLines (stepsLog number ((s, h) :: visited)) =
      lineOf number s :: stepLines (stepsLog (number + 1) visited) := by
  rw [stepsLog, stepLines, List.filterMap_append, ← stepLines, stepLines_events]
  rfl

theorem gather_observe (t : Trace) :
    gather Trace.observe t visited =
      ⟨gather (fun s _ => Stats.count s.stack.depth) t.stats visited,
        (stepsLog (t.stats.steps + 1) visited).reverse ++ t.events⟩ := by
  induction visited generalizing t with
  | nil => rfl
  | cons p visited ih =>
      obtain ⟨s, h⟩ := p
      have rest := ih (Trace.observe s h t)
      simp only [gather, List.foldl_cons] at rest ⊢
      rw [rest]
      simp [Trace.observe, Stats.count, stepsLog]

/-- The log of a program has the lines of the states that it goes through between its
first line and its last. -/
theorem trace_eq_some_iff : trace table fuel e h = some (stats, log, a) ↔
    ∃ visited, Visits table visited (.initial e h.newRoot.1) h.newRoot.2 a ∧
      visited.length ≤ fuel ∧ stats = ⟨visited.length, peak visited⟩ ∧
      log = .started e.kind :: (stepsLog 1 visited ++ [closing stats a]) := by
  unfold trace evaluateWith
  simp only [Option.bind_eq_bind, Option.bind_eq_some_iff]
  constructor
  · rintro ⟨⟨seen, ending⟩, run, he⟩
    obtain ⟨visited, visits, enough, rfl⟩ := runWith_eq_some_iff.mp run
    cases he
    refine ⟨visited, visits, enough, ?_, ?_⟩
    · simp [gather_observe, gather_count]
    · simp [gather_observe]
  · rintro ⟨visited, visits, enough, rfl, rfl⟩
    refine ⟨_, visits.runWith enough _, ?_⟩
    simp [gather_observe, gather_count]

theorem map_number_stepLines (number : Nat) : (stepLines (stepsLog number visited)).map (·.number) =
    List.range' number visited.length := by
  induction visited generalizing number with
  | nil => rfl
  | cons p visited ih =>
      obtain ⟨s, h⟩ := p
      rw [stepLines_stepsLog_cons, List.map_cons, ih, List.length_cons, List.range'_succ]
      rfl

theorem map_depth_stepLines (number : Nat) :
    (stepLines (stepsLog number visited)).map (·.depth) = depths visited := by
  induction visited generalizing number with
  | nil => rfl
  | cons p visited ih =>
      obtain ⟨s, h⟩ := p
      rw [stepLines_stepsLog_cons, List.map_cons, ih]
      rfl

/-- The step lines follow one another as the states do. -/
theorem isChain_stepLines (number : Nat)
    (chain : visited.IsChain fun p q => Machine.step table p.1 p.2 = .ok q.1 q.2) :
    (stepLines (stepsLog number visited)).IsChain StepLine.Leads := by
  induction visited generalizing number with
  | nil => exact .nil
  | cons p visited ih =>
      obtain ⟨s, h⟩ := p
      obtain ⟨first, rest⟩ := List.isChain_cons.mp chain
      rw [stepLines_stepsLog_cons]
      refine (ih (number + 1) rest).cons ?_
      cases visited with
      | nil => exact nofun
      | cons q visited =>
          obtain ⟨s', h'⟩ := q
          rw [stepLines_stepsLog_cons]
          intro l hl
          cases hl
          obtain ⟨visit, resume⟩ := (step_eq_ok_iff.mp (first _ rfl)).depth
          refine ⟨?_, ?_⟩
          · intro evaluating
            exact visit (Control.text_eq_evaluating_iff.mp evaluating)
          · rintro ⟨text, returning⟩
            obtain ⟨v, hv, -⟩ := Control.text_eq_returning_iff.mp returning
            exact resume ⟨v, hv⟩

/-- A line that names a frame comes right after the step line of a state that returns,
and such a step line has it. -/
theorem isChain_answered {last : Event} (before : Event) (silent : before.Silent)
    (other : ∀ kind text, last ≠ .resuming kind text) (number : Nat)
    (hvisited : ∀ p ∈ visited, p.1.Running ∧ p.1.Shaped) :
    (before :: (stepsLog number visited ++ [last])).IsChain Answered := by
  induction visited generalizing number before with
  | nil => exact List.isChain_pair.mpr (silent.answered other)
  | cons p visited ih =>
      obtain ⟨⟨control, env, stack⟩, h⟩ := p
      obtain ⟨⟨running, shaped⟩, hrest⟩ := List.forall_mem_cons.mp hvisited
      cases control with
      | halted v => exact absurd rfl (running v)
      | evaluating e =>
          have quiet : (Event.step number stack.depth ((h.scopes env).length - 1)
              ("evaluating " ++ e.kind)).Silent := by
            intro _ _ _ text same
            simp [String.ext_iff] at same
          exact List.isChain_cons_cons.mpr ⟨silent.answered nofun, ih _ quiet (number + 1) hrest⟩
      | returning v =>
          obtain ⟨k, below, rfl⟩ : ∃ k below, stack = Stack.push k below :=
            shaped.exists_push running
          have quiet : (Event.resuming k.kind v.text).Silent := nofun
          refine List.isChain_cons_cons.mpr ⟨silent.answered nofun, ?_⟩
          refine List.isChain_cons_cons.mpr ⟨Event.answered_resuming _ _ _ _ _, ?_⟩
          exact ih _ quiet (number + 1) hrest

theorem stepsLog_append (number : Nat) (rest : List (State × Heap)) :
    stepsLog number (visited ++ rest) =
      stepsLog number visited ++ stepsLog (number + visited.length) rest := by
  induction visited generalizing number with
  | nil => rfl
  | cons p visited ih =>
      rw [List.cons_append, stepsLog, stepsLog, ih, List.append_assoc, List.length_cons,
        Nat.add_assoc, Nat.add_comm 1]

/-- Only a state that resumes the end of the program has a line that says so. -/
theorem resuming_halt_not_mem {text : String} (number : Nat)
    (inner : ∀ p ∈ visited, ∀ w k below, p.1.control = .returning w →
      p.1.stack = Stack.push k below → k.isHalt = false) :
    .resuming "halt" text ∉ stepsLog number visited := by
  induction visited generalizing number with
  | nil => exact nofun
  | cons p visited ih =>
      obtain ⟨⟨control, env, stack⟩, h⟩ := p
      obtain ⟨here, hrest⟩ := List.forall_mem_cons.mp inner
      rw [stepsLog, List.mem_append, not_or]
      refine ⟨?_, ih (number + 1) hrest⟩
      intro mem
      rcases List.mem_cons.mp mem with step | mem
      · cases step
      · cases control with
        | evaluating | halted => cases mem
        | returning w =>
            rcases stack.empty_or_push with rfl | ⟨k, below, rfl⟩
            · cases mem
            · have hkind := (Event.resuming.inj (List.mem_singleton.mp mem)).1
              have outer := here w k below rfl rfl
              rw [Kont.isHalt_of_kind hkind.symm] at outer
              cases outer

/-- No state of the run has a deeper stack than those that a step is made from. -/
theorem Visits.depth_le_peak_of_steps (visits : Visits table visited s h a)
    (run : Steps table n s h s' h') (shaped : s.Shaped) : s'.stack.depth ≤ peak visited := by
  induction run generalizing visited with
  | done s h =>
      rcases s.halted_or_running with ⟨v, hv⟩ | running
      · obtain ⟨control, env, stack⟩ := s
        cases hv
        have empty : stack = Stack.empty := shaped
        rw [empty]
        exact Nat.zero_le _
      · exact visits.depth_le_peak running
  | step running hs _ ih =>
      cases visits with
      | halted _ hv => exact absurd hv (running _)
      | failed _ hs' =>
          rw [hs] at hs'
          cases hs'
      | step _ hs' visits =>
          rw [hs] at hs'
          cases hs'
          have rest := ih visits ((step_eq_ok_iff.mp hs).shaped shaped)
          exact Nat.le_trans rest (Nat.le_max_right _ _)

/-- What a log has to do with the run of a program and with its statistics. -/
structure LogAgrees (table : Table) (e : Expr) (h : Heap) (stats : Stats) (log : List Event)
    (ending : Ending) : Prop where
  /-- The step lines are numbered without gaps, up to the number of steps. -/
  numbers : (stepLines log).map (·.number) = List.range' 1 stats.steps
  first : (stepLines log).head?.map (·.depth) = some 1
  positive : ∀ l ∈ stepLines log, 1 ≤ l.depth
  greatest : ((stepLines log).map (·.depth)).max? = some stats.peakDepth
  /-- No state of the run has a deeper stack, not even the one in which it ends. -/
  highest : ∀ n s h', Steps table n (.initial e h.newRoot.1) h.newRoot.2 s h' →
    s.stack.depth ≤ stats.peakDepth
  leads : (stepLines log).IsChain StepLine.Leads
  /-- A step line shows a state that evaluates or returns, and none that has halted. -/
  controls : ∀ l ∈ stepLines log, (l.Evaluating ∨ l.Returning) ∧
    ∀ text, l.control ≠ "halted with " ++ text
  /-- A frame is named right after the step line that returns the value, with that
  value, and nowhere else. -/
  answered : log.IsChain Answered
  start : log.head? = some (.started e.kind)
  close : log.getLast? = some (closing stats ending)
  /-- If the run gives a value then its last step, and no other, resumes the end of the
  program with that value. -/
  halts : ∀ v h', ending = .ok v h' → ∃ front scopes,
    log = front ++ [.step stats.steps 1 scopes ("returning " ++ v.text), .resuming "halt" v.text,
      .halted v.text stats] ∧ ∀ text, .resuming "halt" text ∉ front

theorem stepLines_log : stepLines (.started e.kind :: (stepsLog 1 visited ++ [closing stats a])) =
    stepLines (stepsLog 1 visited) := by
  have last : stepLines [closing stats a] = [] := by cases a <;> rfl
  rw [stepLines, List.filterMap_cons_none rfl, List.filterMap_append]
  change _ ++ stepLines [closing stats a] = _
  rw [last, List.append_nil]
  rfl

theorem mem_stepLines {l : StepLine} {number : Nat}
    (mem : l ∈ stepLines (stepsLog number visited)) :
    ∃ p ∈ visited, ∃ n, l = lineOf n p.1 := by
  induction visited generalizing number with
  | nil => cases mem
  | cons p visited ih =>
      obtain ⟨s, h⟩ := p
      rw [stepLines_stepsLog_cons] at mem
      rcases List.mem_cons.mp mem with rfl | mem
      · exact ⟨_, List.mem_cons_self, number, rfl⟩
      · obtain ⟨p, hp, n, rfl⟩ := ih mem
        exact ⟨p, List.mem_cons_of_mem _ hp, n, rfl⟩

theorem lineOf_running (number : Nat) (running : s.Running) :
    ((lineOf number s).Evaluating ∨ (lineOf number s).Returning) ∧
      ∀ text, (lineOf number s).control ≠ "halted with " ++ text := by
  refine ⟨?_, fun text same => ?_⟩
  · cases hcontrol : s.control with
    | halted v => exact absurd hcontrol (running v)
    | evaluating e => exact .inl (Control.text_eq_evaluating_iff.mpr ⟨e, hcontrol⟩)
    | returning v => exact .inr ⟨v.text, Control.text_eq_returning_iff.mpr ⟨v, hcontrol, rfl⟩⟩
  · obtain ⟨v, hv⟩ := Control.halted_of_text same
    exact running v hv

/-- The lines of a run that halts end with those of the last state. -/
theorem Visits.exists_stepsLog_eq (visits : Visits table visited s h (.ok v h'))
    (running : s.Running) (shaped : s.Shaped) : ∃ front scopes, stepsLog 1 visited =
        front ++ [.step visited.length 1 scopes ("returning " ++ v.text), .resuming "halt" v.text] ∧
      ∀ text, .resuming "halt" text ∉ front := by
  obtain ⟨front, env, root, rfl, inner⟩ := visits.halts running shaped
  refine ⟨stepsLog 1 front, (h'.scopes env).length - 1, ?_, ?_⟩
  · rw [stepsLog_append, List.length_append, List.length_singleton, Nat.add_comm front.length]
    rfl
  · exact fun text => resuming_halt_not_mem 1 inner

/-- Whatever the program and the primitives are, if a run ends then its log agrees with
it and with the statistics that it reports. The log and the greatest depth are also what
the machine in place has written and has noted at each push. -/
theorem log_agrees (table : Table) (fuel : Nat) (e : Expr) (h : Heap) (stats : Stats)
    (log : List Event) (ending : Ending) (run : trace table fuel e h = some (stats, log, ending)) :
    evaluate table fuel e h = some (stats, ending) ∧
      Routine.trace table fuel e h = some (stats, log, ending) ∧
      LogAgrees table e h stats log ending := by
  have inPlace : Routine.trace table fuel e h = some (stats, log, ending) :=
    (Routine.trace_eq table fuel e h).trans run
  obtain ⟨visited, visits, enough, hstats, rfl⟩ := trace_eq_some_iff.mp run
  refine ⟨evaluate_eq_some_iff_visits.mpr ⟨visited, visits, enough, hstats⟩, inPlace, ?_⟩
  have shaped : (State.initial e h.newRoot.1).Shaped := Stack.shaped_end _
  have all := visits.all shaped fun hs => (step_eq_ok_iff.mp hs).shaped
  obtain ⟨p, rest, rfl⟩ : ∃ p rest, visited = p :: rest := by
    cases visits with
    | halted _ hv => cases hv
    | failed | step => exact ⟨_, _, rfl⟩
  obtain rfl := visits.head p rfl
  subst hstats
  constructor
  case numbers => rw [stepLines_log, map_number_stepLines]
  case first =>
    rw [stepLines_log, stepLines_stepsLog_cons]
    rfl
  case positive =>
    intro l mem
    rw [stepLines_log] at mem
    obtain ⟨p, hp, n, rfl⟩ := mem_stepLines mem
    obtain ⟨k, below, hstack⟩ := (all p hp).2.exists_push (all p hp).1
    rw [lineOf, hstack]
    exact Nat.le_add_left 1 _
  case greatest =>
    rw [stepLines_log, map_depth_stepLines, List.max?_eq_some_iff]
    exact ⟨peak_mem_depths (List.cons_ne_nil _ _), fun d => le_peak⟩
  case highest =>
    intro n s h' run
    exact visits.depth_le_peak_of_steps run shaped
  case leads =>
    rw [stepLines_log]
    exact isChain_stepLines 1 visits.chain
  case controls =>
    intro l mem
    rw [stepLines_log] at mem
    obtain ⟨p, hp, n, rfl⟩ := mem_stepLines mem
    exact lineOf_running n (all p hp).1
  case answered =>
    refine isChain_answered (.started e.kind) nofun ?_ 1 all
    cases ending <;> exact nofun
  case start => rfl
  case close =>
    rw [← List.cons_append]
    exact List.getLast?_concat
  case halts =>
    rintro v h' rfl
    obtain ⟨front, scopes, lines, inner⟩ :=
      visits.exists_stepsLog_eq State.running_evaluating shaped
    refine ⟨.started e.kind :: front, scopes, ?_, ?_⟩
    · rw [lines, List.append_assoc]
      rfl
    · intro text mem
      rcases List.mem_cons.mp mem with same | mem
      · cases same
      · exact inner text mem

/-- A call of a procedure with a conditional in its body. -/
def choosing : Expr :=
  .app (.lambda ["x"] (.cond (.datum (.boolean true)) (.datum .undefined) (.ref "x")))
    [.datum (.integer 1)]

/-- The call takes ten steps and has two frames on the stack at most. -/
theorem log_agrees_choosing : ∃ log h',
    trace {} 10 choosing {} = some (⟨10, 2⟩, log, .ok .undefined h') ∧
    LogAgrees {} choosing {} ⟨10, 2⟩ log (.ok .undefined h') := by
  have run : trace {} 10 choosing {} = some (⟨10, 2⟩, _, .ok .undefined _) := rfl
  exact ⟨_, _, run, (log_agrees _ _ _ _ _ _ _ run).2.2⟩

end Machine

end CoreLisp
