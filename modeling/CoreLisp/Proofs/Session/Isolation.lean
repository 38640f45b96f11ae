import CoreLisp.Proofs.Heap.View
import CoreLisp.Proofs.Machine.Move
import CoreLisp.Proofs.Machine.Relocate
import CoreLisp.Proofs.Machine.Values
import CoreLisp.Session

/-!
# Programs in one session are isolated

The programs of a session share the heap, because the values that they returned are
still there. A program starts behind all that and never comes to it. So it does what
it does alone in a new session, and what was returned before shows what it showed.
-/
namespace CoreLisp

variable {p : Expr → Prop} {m : Mark} {e : Expr} {v : Value} {h h' : Heap}

/-- A program's own value shows the same while the cells of the heap are kept. -/
theorem Heap.Kept.view (kept : h.Kept h') (own : v.Own p m) (hown : h.Own p m)
    (here : v.OnHeap h) (all : h.All (Value.OnHeap h) m) (depth : Nat) :
    h'.view depth v = h.view depth v := by
  induction depth generalizing v with
  | zero => rfl
  | succ depth ih =>
      cases v with
      | box ref =>
          have inside := ih (hown.contents own) (all.contents trivial own)
          simp only [Heap.view, kept.contents here, inside]
      | _ => rfl

namespace Machine

/-- What a run returns shows the same while the cells of its heap are kept. -/
theorem view_of_evaluate {fuel : Nat} {stats : Stats} {later : Heap}
    (run : evaluate .standard fuel e h = some (stats, .ok v h')) (kept : h'.Kept later)
    (depth : Nat) : later.view depth v = h'.view depth v := by
  obtain ⟨n, -, ending⟩ := evaluate_eq_some_iff.mp ⟨stats, run⟩
  obtain ⟨s, steps, hv⟩ := ending.halting_state
  have reached : Reachable .standard e h s h' := ⟨n, steps⟩
  obtain ⟨own, hown⟩ := reached.own_standard
  obtain ⟨values, all⟩ := reached.onHeap
  have held : v ∈ s.values := by
    rw [State.values, hv]
    exact List.mem_cons_self
  exact kept.view (own.values held) hown (values v held) all depth

/-- The log can be left out. -/
theorem evaluate_eq_map_trace {table : Table} {fuel : Nat} : evaluate table fuel e h =
    (trace table fuel e h).map fun run => (run.1, run.2.2) := by
  have less : runWith table (fun s _ => Stats.count s.stack.depth) fuel (Trace.stats {})
      (.initial e h.newRoot.1) h.newRoot.2 =
        (evaluateWith table Trace.observe fuel {} e h).map fun run => (run.1.stats, run.2) :=
    runWith_map (f := Trace.stats) fun _ _ _ => rfl
  rw [trace]
  refine Eq.trans less ?_
  cases evaluateWith table Trace.observe fuel {} e h <;> rfl

end Machine

/-- Evaluating the texts one after the other leads from the first session and heap to
the second. -/
inductive Session.Leads : Session → Heap → List String → Session → Heap → Prop
  | done {s : Session} {h : Heap} : Leads s h [] s h
  | next {s s' : Session} {h h' : Heap} {source : String} {sources : List String} {fuel : Nat}
      {answer : Answer Error} : s.evaluateText fuel source h = some answer →
      Leads answer.session answer.heap sources s' h' → Leads s h (source :: sources) s' h'

/-- The two answers cannot be told apart, wherever their values are: the statistics are
the same, and so is all that can be seen of the value, or else the error. -/
structure Answer.Alike (a b : Answer Error) : Prop where
  stats : a.session.lastRun = b.session.lastRun
  result : match a.result, b.result with
    | .ok v, .ok w => ∀ depth, a.heap.view depth v = b.heap.view depth w
    | .error e, .error e' => e = e'
    | _, _ => False

namespace Session

variable {s s' : Session} {source : String} {sources : List String} {fuel : Nat}
variable {answer : Answer Error}

theorem evaluateText_eq_map_traceText :
    s.evaluateText fuel source h = (s.traceText fuel source h).map Prod.fst := by
  unfold evaluateText traceText evaluateParsed
  cases Expr.parse source with
  | error e => rfl
  | ok e =>
      simp only [evaluate, Machine.evaluate_eq_map_trace]
      cases Machine.trace s.table fuel e h <;> rfl

/-- The log and the answer of a program are made from its run. -/
theorem traceText_of_parse (parsed : Expr.parse source = .ok e) : s.traceText fuel source h =
    (Machine.trace s.table fuel e h).map fun run =>
      ((s.answer run.1 run.2.2).mapError .running,
        .parsed e.kind source.utf8ByteSize :: run.2.1) := by
  simp only [traceText, parsed]
  cases Machine.trace s.table fuel e h <;> rfl

/-- A program runs in a session with the standard table as it does alone. -/
theorem traceText_alike (standard : s.table = .standard) (parsed : Expr.parse source = .ok e) :
    Option.Rel (fun a b => a.1.Alike b.1 ∧ a.2 = b.2) (s.traceText fuel source h)
      (({} : Session).traceText fuel source {}) := by
  rw [traceText_of_parse parsed, traceText_of_parse parsed, standard, Machine.trace_relocate]
  cases Machine.trace .standard fuel e {} with
  | none => exact .none
  | some run =>
      obtain ⟨stats, events, ending⟩ := run
      refine .some ⟨?_, rfl⟩
      cases ending with
      | ok v h₁ => exact ⟨rfl, fun depth => Heap.view_behind depth⟩
      | error e h₁ => exact ⟨rfl, rfl⟩

/-- A text that does not parse changes nothing, and one that does runs. -/
theorem evaluateText_eq_some (run : s.evaluateText fuel source h = some answer) :
    (∃ e, answer = ⟨.error (.parsing e), s, h⟩) ∨
      ∃ e stats ending, Machine.evaluate s.table fuel e h = some (stats, ending) ∧
        answer = (s.answer stats ending).mapError .running := by
  cases parsed : Expr.parse source with
  | error e =>
      simp only [evaluateText, evaluateParsed, parsed] at run
      cases run
      exact .inl ⟨e, rfl⟩
  | ok e =>
      simp only [evaluateText, evaluateParsed, parsed, evaluate] at run
      cases hrun : Machine.evaluate s.table fuel e h with
      | none =>
          rw [hrun] at run
          cases run
      | some outcome =>
          rw [hrun] at run
          cases run
          exact .inr ⟨e, outcome.1, outcome.2, hrun, rfl⟩

/-- An evaluation keeps the table of the session and what it finds on the heap. -/
theorem kept_of_evaluateText (standard : s.table = .standard)
    (run : s.evaluateText fuel source h = some answer) :
    answer.session.table = .standard ∧ h.Kept answer.heap := by
  rcases evaluateText_eq_some run with ⟨e, rfl⟩ | ⟨e, stats, ending, ran, rfl⟩
  · exact ⟨standard, .refl h⟩
  · rw [standard] at ran
    obtain ⟨alone, rfl⟩ := Machine.moved_of_evaluate ran
    cases alone <;> exact ⟨standard, .behind_site h _⟩

theorem Leads.kept (leads : Leads s h sources s' h') (standard : s.table = .standard) :
    s'.table = .standard ∧ h.Kept h' := by
  induction leads with
  | done => exact ⟨standard, .refl _⟩
  | next run _ ih =>
      obtain ⟨standard, first⟩ := kept_of_evaluateText standard run
      obtain ⟨standard', rest⟩ := ih standard
      exact ⟨standard', first.trans rest⟩

theorem view_of_evaluateText (standard : s.table = .standard)
    (run : s.evaluateText fuel source h = some answer) (returned : answer.result = .ok v)
    (kept : answer.heap.Kept h') (depth : Nat) : h'.view depth v = answer.heap.view depth v := by
  rcases evaluateText_eq_some run with ⟨e, rfl⟩ | ⟨e, stats, ending, ran, rfl⟩
  · cases returned
  · rw [standard] at ran
    cases ending with
    | ok w h₁ =>
        cases returned
        exact Machine.view_of_evaluate ran kept depth
    | error e h₁ => cases returned

/-- After any texts have been evaluated in a session, whether they gave a value, did not
parse or failed, a program that parses has the log, the statistics and the outcome
that it has alone in a new session; a text that does not parse changes nothing; and no
program changes a frame or a box that it finds, so what has been returned shows the
same for ever. -/
theorem programs_isolated (sources : List String) (s : Session) (h : Heap)
    (earlier : Leads {} {} sources s h) (source : String) (fuel : Nat) :
    s.evaluateText fuel source h = (s.traceText fuel source h).map Prod.fst ∧
    (∀ e, Expr.parse source = .error e →
      s.evaluateText fuel source h = some ⟨.error (.parsing e), s, h⟩) ∧
    (∀ e, Expr.parse source = .ok e →
      Option.Rel (fun a b => a.1.Alike b.1 ∧ a.2 = b.2) (s.traceText fuel source h)
        (({} : Session).traceText fuel source {}) ∧
      ∀ state h', Machine.Reachable s.table e h state h' → h.Kept h') ∧
    (∀ answer, s.evaluateText fuel source h = some answer → h.Kept answer.heap ∧
      ∀ v, answer.result = .ok v → ∀ later s' h',
        Leads answer.session answer.heap later s' h' →
          ∀ depth, h'.view depth v = answer.heap.view depth v) := by
  have standard := (earlier.kept rfl).1
  refine ⟨evaluateText_eq_map_traceText, ?_, ?_, ?_⟩
  · intro e failed
    simp only [evaluateText, evaluateParsed, failed]
  · intro e parsed
    refine ⟨traceText_alike standard parsed, ?_⟩
    intro state h' reached
    rw [standard] at reached
    obtain ⟨_, h₁, -, -, rfl⟩ := reached.behind
    exact .behind_site h h₁
  · intro answer run
    obtain ⟨standard', kept⟩ := kept_of_evaluateText standard run
    refine ⟨kept, ?_⟩
    intro v returned later s' h' leads depth
    exact view_of_evaluateText standard run returned (leads.kept standard').2 depth

/-- A session in which a box has been returned, a text has not parsed and a program has
failed. -/
theorem programs_isolated_box : ∃ s h,
    Leads {} {} ["(#%primapp box (#%datum 1))", ")", "(#%primapp add1 (#%datum #t))"] s h ∧
    s.lastRun = ⟨3, 2⟩ ∧ h.boxes.size = 1 ∧
    ∀ fuel, Option.Rel (fun a b => a.1.Alike b.1 ∧ a.2 = b.2)
      (s.traceText fuel "(#%primapp box (#%datum 2))" h)
      (({} : Session).traceText fuel "(#%primapp box (#%datum 2))" {}) := by
  have parsed : Expr.parse "(#%primapp box (#%datum 2))" =
      .ok (.primApp "box" [.datum (.integer 2)]) := rfl
  have earlier : Leads {} {}
      ["(#%primapp box (#%datum 1))", ")", "(#%primapp add1 (#%datum #t))"] _ _ :=
    @Leads.next _ _ _ _ _ _ 4 _ rfl (@Leads.next _ _ _ _ _ _ 0 _ rfl
      (@Leads.next _ _ _ _ _ _ 3 _ rfl .done))
  refine ⟨_, _, earlier, rfl, rfl, fun fuel => ?_⟩
  exact ((programs_isolated _ _ _ earlier _ fuel).2.2.1 _ parsed).1

end Session

end CoreLisp
