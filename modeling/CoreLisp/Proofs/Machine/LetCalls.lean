import CoreLisp.Proofs.Machine.Parallel
import CoreLisp.Proofs.Machine.Relocate
import CoreLisp.Proofs.Machine.Transition
import CoreLisp.Proofs.Machine.Visits

/-!
# A let is the call of a procedure

A program runs beside the one in which each `let` has become a call. Where the first
visits a `let` the second visits the call, makes the procedure and takes it as the
operator, and this is two steps more; the stacks are as high again when the first
initializer is visited. From there on each step of one is a step of the other, the last
one too, in which the names are bound. So both end, show the same, and need stacks of
one height.
-/
namespace CoreLisp.Machine

open CoreLisp.Action

variable {w : Sides} {s s' s₁ : State} {h h' h₁ : Heap} {a : Ending} {n fuel : Nat} {e : Expr}
variable {visited : List (State × Heap)} {stats : Stats}

/-- What is shown of an ending: the text of the value or the cause of failing. -/
def printed : Ending → Except EvalError String
  | .ok v _ => .ok v.text
  | .error e _ => .error e

/-- Counts the lets with something to bind that a run visits. -/
def countLets (s : State) (_ : Heap) (lets : Nat) : Nat := if s.visitsLet then lets + 1 else lets

def letVisits (visited : List (State × Heap)) : Nat := visited.countP (·.1.visitsLet)

theorem letVisits_cons : letVisits ((s, h) :: visited) =
    letVisits visited + if s.visitsLet then 1 else 0 :=
  List.countP_cons

theorem gather_countLets (lets : Nat) :
    gather countLets lets visited = lets + letVisits visited := by
  induction visited generalizing lets with
  | nil => rfl
  | cons p visited ih =>
      have rest := ih (countLets p.1 p.2 lets)
      simp only [gather, List.foldl_cons, letVisits, List.countP_cons, countLets] at rest ⊢
      rw [rest]
      split <;> omega

/-- The depths of the steps on the right that belong to one on the left. -/
def stride (s : State) : List Nat :=
  if s.visitsLet then [s.stack.depth, s.stack.depth + 1, s.stack.depth + 1] else [s.stack.depth]

theorem length_stride : (stride s).length = 1 + 2 * if s.visitsLet then 1 else 0 := by
  unfold stride
  split <;> rfl

/-- The depths on the right count no more than what is reached on the left after it. -/
theorem max_stride {top : Nat} (higher : s.visitsLet → s.stack.depth + 1 ≤ top) :
    max ((stride s).foldr max 0) top = max s.stack.depth top := by
  unfold stride
  split
  · have := higher ‹_›
    simp only [List.foldr_cons, List.foldr_nil]
    omega
  · rw [List.foldr_cons, List.foldr_nil, Nat.max_zero]

/-- What the right side does for a step on the left, which comes to this result. -/
inductive KeepsUp (w : Sides) (s s' : State) : EStateM.Result EvalError Heap State → Prop
  | on {s₁ s₁' : State} {passed : List (State × Heap)} (w' : Sides) :
      Passes .standard passed s' w.right s₁' w'.right → depths passed = stride s →
      s₁.Matches .lets w' s₁' → w'.Agree .lets →
      (s.visitsLet → s₁.Running ∧ s₁.stack.depth = s.stack.depth + 1) →
      KeepsUp w s s' (.ok s₁ w'.left)
  | failed {e : EvalError} {h' : Heap} (h : Heap) : s.visitsLet = false →
      step .standard s' w.right = .error e h' → KeepsUp w s s' (.error e h)

/-- The call is visited, the procedure is made, and it becomes the operator. -/
theorem passes_call (table : Table) (params : List Name) (body first : Expr)
    (rest : List Expr) (env : Env) (stack : Stack) (h : Heap) :
    ∃ passed, Passes table passed
        ⟨.evaluating (.app (.lambda params body) (first :: rest)), env, stack⟩ h
        ⟨.evaluating first, env, stack.push (.operand env (first :: rest)
          (.procedure ⟨h.procedures, params, body, env⟩) [])⟩
        { h with procedures := h.procedures + 1 } ∧
      depths passed = [stack.depth, stack.depth + 1, stack.depth + 1] := by
  have take : step table ⟨.returning (.procedure ⟨h.procedures, params, body, env⟩), env,
      stack.push (.operator env (first :: rest))⟩ { h with procedures := h.procedures + 1 } =
        .ok _ _ := step_eq_ok_iff.mpr .operandFirst
  refine ⟨_, .step State.running_evaluating (step_eq_ok_iff.mpr .app)
    (.step State.running_evaluating (step_eq_ok_iff.mpr (.lambda rfl))
      (.step State.running_returning take (.done _ _))), rfl⟩

theorem keepsUp_let (hs : s.Matches .lets w s') (agree : w.Agree .lets)
    (visits : s.visitsLet = true) : KeepsUp w s s' (step .standard s w.left) := by
  cases hs with
  | returning | halted => cases visits
  | @evaluating e e' env stack stack' he hs =>
      obtain ⟨henv, he⟩ := he
      cases he with
      | letIn hc => cases hc
      | @letCall _ _ names names' inits inits' body body' _ some bound binders lengths parts
          inner =>
          have all : Expr.MatchAllAt .lets w env inits inits' :=
            Expr.matchesAt_all henv lengths parts
          cases all with
          | nil => exact absurd rfl some
          | @cons first first' rest rest' here later =>
              have left : step .standard
                  ⟨.evaluating (.letIn names (first :: rest) body), env, stack⟩ w.left =
                    .ok _ w.skipProcedure.left := step_eq_ok_iff.mpr (.letFirst bound)
              obtain ⟨passed, passes, strides⟩ :=
                passes_call .standard names' body' first' rest' env stack' w.right
              have waiting := @Kont.Matches.letCall .lets w names _ _ body
                ⟨w.right.procedures, names', body', env⟩ [] [] bound (Nat.zero_lt_succ _) binders
                (.cons here later) ⟨henv, inner⟩ .nil
              rw [left]
              refine .on w.skipProcedure passes ?_ (.evaluating (here.mono .skipProcedure)
                ((hs.mono .skipProcedure).push (waiting.mono .skipProcedure)))
                agree.skipProcedure fun _ => ⟨State.running_evaluating, rfl⟩
              rw [strides, stride, if_pos visits, hs.depth_eq]
      | _ => cases visits

theorem keepsUp (hs : s.Matches .lets w s') (agree : w.Agree .lets) (running : s.Running) :
    KeepsUp w s s' (step .standard s w.left) := by
  cases visits : s.visitsLet with
  | true => exact keepsUp_let hs agree visits
  | false =>
      have both := parallel_step hs (fun _ => visits) agree
      have running' := hs.running running
      generalize hl : step .standard s w.left = left at both ⊢
      generalize hr : step .standard s' w.right = right at both
      cases both with
      | error h h' same =>
          cases same
          exact .failed h visits hr
      | ok w' _ agree' matching =>
          refine .on w' (.step running' hr (.done _ _)) ?_ matching agree' ?_
          · simp [stride, visits, hs.depth_eq]
          · simp [visits]

/-- Each let that is visited costs two steps more. -/
theorem Visits.keepsUp (visits : Visits .standard visited s w.left a)
    (hs : s.Matches .lets w s') (agree : w.Agree .lets) :
    ∃ visited' a', Visits .standard visited' s' w.right a' ∧ printed a' = printed a ∧
      visited'.length = visited.length + 2 * letVisits visited ∧ peak visited' = peak visited := by
  generalize hl : w.left = h at visits
  induction visits generalizing w s' with
  | halted h hv =>
      obtain ⟨v', hv', matching⟩ := hs.halted_right hv
      exact ⟨[], _, .halted _ hv', congrArg Except.ok matching.text.symm, rfl, rfl⟩
  | failed running fail =>
      have next := Machine.keepsUp hs agree running
      rw [hl, fail] at next
      cases next with
      | failed _ plain fail' =>
          refine ⟨_, _, .failed (hs.running running) fail', rfl, ?_, ?_⟩
          · simp [letVisits, plain]
          · simp [hs.depth_eq]
  | @step visited s s₁ h h₁ a running ok rest ih =>
      have next := Machine.keepsUp hs agree running
      rw [hl, ok] at next
      generalize hr : EStateM.Result.ok s₁ h₁ = r at next
      cases next with
      | failed => cases hr
      | @on _ s₁' passed w' passes strides matching agree' higher =>
          cases hr
          obtain ⟨visited', a', visits', same, lengths, peaks⟩ := ih matching agree' rfl
          refine ⟨passed ++ visited', a', passes.visits visits', same, ?_, ?_⟩
          · have count : passed.length = (stride s).length := by
              rw [← strides, depths, List.length_map]
            rw [List.length_append, count, length_stride, lengths, letVisits_cons,
              List.length_cons]
            omega
          · rw [peak_append, peaks, peak_cons, peak, strides]
            refine max_stride fun hlet => ?_
            obtain ⟨running₁, up⟩ := higher hlet
            exact up ▸ rest.depth_le_peak running₁

/-- As long as the run goes on, it does so on the right, by as many steps or more. -/
theorem Steps.keepsUp (run : Steps .standard n s w.left s₁ h₁) (hs : s.Matches .lets w s')
    (agree : w.Agree .lets) : ∃ m ≥ n, ∃ s₁' h₁', Steps .standard m s' w.right s₁' h₁' := by
  generalize hl : w.left = h at run
  induction run generalizing w s' with
  | done => exact ⟨0, Nat.le_refl 0, s', w.right, .done _ _⟩
  | @step n s s₁ s₂ h h₁ h₂ running ok rest ih =>
      have next := Machine.keepsUp hs agree running
      rw [hl, ok] at next
      generalize hr : EStateM.Result.ok s₁ h₁ = r at next
      cases next with
      | failed => cases hr
      | @on _ s₁' passed w' passes strides matching agree' _ =>
          cases hr
          obtain ⟨m, le, s₂', h₂', run'⟩ := ih matching agree' rfl
          have count : passed.length = (stride s).length := by
            rw [← strides, depths, List.length_map]
          refine ⟨passed.length + m, ?_, s₂', h₂', passes.steps.trans run'⟩
          rw [count, length_stride]
          omega

/-- What the two programs have in common when both have answered. -/
theorem letsAsCalls_agrees {fuel' : Nat} {stats' : Stats} {a' : Ending} (wf : e.WellFormed)
    (left : evaluate .standard fuel e {} = some (stats, a))
    (right : evaluate .standard fuel' e.letsAsCalls {} = some (stats', a')) :
    printed a' = printed a ∧ stats'.peakDepth = stats.peakDepth ∧
      ∃ lets, evaluateWith .standard countLets fuel 0 e {} = some (lets, a) ∧
        stats'.steps = stats.steps + 2 * lets := by
  obtain ⟨visited, visits, enough, rfl⟩ := evaluate_eq_some_iff_visits.mp left
  obtain ⟨visited', visits', -, rfl⟩ := evaluate_eq_some_iff_visits.mp right
  have start := matches_initial (Expr.matches_letsAsCalls wf [[]])
  obtain ⟨other, b, followed, same, lengths, peaks⟩ :=
    Visits.keepsUp (w := .start) visits start (Sides.start_agree _)
  obtain ⟨rfl, rfl⟩ := visits'.unique followed
  refine ⟨same, peaks, letVisits visited, ?_, lengths⟩
  exact runWith_eq_some_iff.mpr ⟨visited, visits, enough, by rw [gather_countLets, Nat.zero_add]⟩

theorem letsAsCalls_answers {run : Stats × Ending} (wf : e.WellFormed)
    (answers : evaluate .standard fuel e {} = some run) :
    ∃ fuel run, evaluate .standard fuel e.letsAsCalls {} = some run := by
  obtain ⟨visited, visits, -, -⟩ := evaluate_eq_some_iff_visits.mp answers
  have start := matches_initial (Expr.matches_letsAsCalls wf [[]])
  obtain ⟨visited', a', followed, -⟩ :=
    Visits.keepsUp (w := .start) visits start (Sides.start_agree _)
  exact ⟨_, _, evaluate_eq_some_iff_visits.mpr ⟨visited', followed, Nat.le_refl _, rfl⟩⟩

/-- If it went on for longer than the program with the calls, that one would do so too. -/
theorem evaluate_of_letsAsCalls {run : Stats × Ending} (wf : e.WellFormed)
    (answers : evaluate .standard fuel e.letsAsCalls {} = some run) :
    ∃ fuel run, evaluate .standard fuel e {} = some run := by
  obtain ⟨n, -, ending⟩ := evaluate_eq_some_iff.mp ⟨_, answers⟩
  have start := matches_initial (Expr.matches_letsAsCalls wf [[]])
  rcases steps_or_ends .standard (n + 1) (.initial e ({} : Heap).newRoot.1)
    ({} : Heap).newRoot.2 with ⟨s, h, steps⟩ | ⟨m, a, ended⟩
  · obtain ⟨k, le, s', h', steps'⟩ :=
      Steps.keepsUp (w := .start) steps start (Sides.start_agree _)
    exact absurd (Nat.le_trans le (steps'.le_of_ends ending)) (Nat.not_succ_le_self n)
  · obtain ⟨stats, answer⟩ := evaluate_eq_some_iff.mpr ⟨m, Nat.le_refl m, ended⟩
    exact ⟨m, _, answer⟩

theorem printed_moved {site : Site} (a : Ending) :
    printed (moved site (Value.relocate site) a) = printed a := by
  cases a with
  | ok v h => exact congrArg Except.ok Value.text_relocate
  | error e h => rfl

theorem visitsLet_relocate {site : Site} (s : State) :
    (s.relocate site).visitsLet = s.visitsLet := by
  obtain ⟨control, env, stack⟩ := s
  cases control <;> rfl

/-- Whether a program answers does not depend on the heap that it finds. -/
theorem answers_iff_alone (e : Expr) (h : Heap) :
    (∃ fuel run, evaluate .standard fuel e h = some run) ↔
      ∃ fuel run, evaluate .standard fuel e {} = some run := by
  simp only [evaluate_relocate e h, ← Option.isSome_iff_exists, Option.isSome_map]

/-- A well-formed program and the one in which each let that binds something is the call
of a procedure both come to an end or both do not. They show the same value or the same
error and need stacks of one height. Each time that the program visits such a let the
other one makes two steps more. -/
theorem lets_as_calls (wf : e.WellFormed) (h : Heap) :
    ((∃ fuel run, evaluate .standard fuel e h = some run) ↔
      ∃ fuel run, evaluate .standard fuel e.letsAsCalls h = some run) ∧
    ∀ fuel fuel' stats stats' a a', evaluate .standard fuel e h = some (stats, a) →
      evaluate .standard fuel' e.letsAsCalls h = some (stats', a') →
      printed a' = printed a ∧ stats'.peakDepth = stats.peakDepth ∧
        ∃ lets, evaluateWith .standard countLets fuel 0 e h = some (lets, a) ∧
          stats'.steps = stats.steps + 2 * lets := by
  refine ⟨?_, ?_⟩
  · rw [answers_iff_alone e, answers_iff_alone e.letsAsCalls]
    constructor
    · rintro ⟨fuel, run, answers⟩
      exact letsAsCalls_answers wf answers
    · rintro ⟨fuel, run, answers⟩
      exact evaluate_of_letsAsCalls wf answers
  · intro fuel fuel' stats stats' a a' left right
    rw [evaluate_relocate e h] at left
    rw [evaluate_relocate e.letsAsCalls h] at right
    obtain ⟨⟨stats₁, a₁⟩, alone, hl⟩ := Option.map_eq_some_iff.mp left
    obtain ⟨⟨stats₂, a₂⟩, alone', hr⟩ := Option.map_eq_some_iff.mp right
    cases hl
    cases hr
    obtain ⟨same, peaks, lets, counted, steps⟩ := letsAsCalls_agrees wf alone alone'
    refine ⟨?_, peaks, lets, ?_, steps⟩
    · rw [printed_moved, printed_moved, same]
    · rw [evaluateWith_relocate, counted, Option.map_some]
      intro s h lets _
      rw [countLets, countLets, visitsLet_relocate]

/-- A let in the initializer of another one, and a procedure with a let in it. -/
def nested : Expr :=
  .letIn ["x"] [.letIn ["y"] [.datum (.integer 1)] (.datum (.boolean true))]
    (.lambda ["z"] (.letIn ["y"] [.ref "z"] (.ref "x")))

/-- Of its three lets the program visits two. -/
theorem lets_as_calls_nested : nested.WellFormed ∧ ∃ a a',
    evaluate .standard 8 nested {} = some (⟨8, 3⟩, a) ∧
    evaluate .standard 12 nested.letsAsCalls {} = some (⟨12, 3⟩, a') ∧
    printed a' = printed a ∧ ∃ lets,
      evaluateWith .standard countLets 8 0 nested {} = some (lets, a) ∧ 12 = 8 + 2 * lets := by
  have number (n : Int) : Expr.WellFormed (.datum (.integer n)) :=
    .node trivial (List.forall_mem_nil _)
  have truth : Expr.WellFormed (.datum (.boolean true)) := .node trivial (List.forall_mem_nil _)
  have reference (x : Name) : Expr.WellFormed (.ref x) := .node trivial (List.forall_mem_nil _)
  have binding {x : Name} {init body : Expr} (hinit : init.WellFormed) (hbody : body.WellFormed) :
      Expr.WellFormed (.letIn [x] [init] body) :=
    .node ⟨rfl, List.nodup_singleton x⟩ (by simp [Expr.parts, hinit, hbody])
  have procedure {x : Name} {body : Expr} (hbody : body.WellFormed) :
      Expr.WellFormed (.lambda [x] body) :=
    .node (List.nodup_singleton x) (List.forall_mem_singleton.mpr hbody)
  have wf : nested.WellFormed :=
    binding (binding (number 1) truth) (procedure (binding (reference "z") (reference "x")))
  have left : evaluate .standard 8 nested {} = some (⟨8, 3⟩, _) := rfl
  have right : evaluate .standard 12 nested.letsAsCalls {} = some (⟨12, 3⟩, _) := rfl
  obtain ⟨same, -, lets, counted, steps⟩ := (lets_as_calls wf {}).2 8 12 _ _ _ _ left right
  exact ⟨wf, _, _, left, right, same, lets, counted, steps⟩

end CoreLisp.Machine
