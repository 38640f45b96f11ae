import Mathlib.Data.List.Forall2
import CoreLisp.Proofs.Evaluation.Cost
import CoreLisp.Proofs.Expr.Builder
import CoreLisp.Proofs.Heap.View
import CoreLisp.Proofs.Machine.Relocate

/-!
# The forms of one program

The forms of a program are evaluated one after the other in one root, in which
nothing can be bound. A form therefore finds nothing of those before it, although
they may have left frames and boxes on the heap: it is on a site of its own, with
the root of the program for its root, and does there what it does alone. A form that
waits for its value has one frame of the program below it, and the last one none.
-/
namespace CoreLisp

open CoreLisp.Action (bind_eq_ok_iff bind_eq_error_iff moved)
open CoreLisp.Expr (InTurn Evaluates)

variable {table : Table} {e : Expr} {es init : List Expr} {env : Env} {h h₁ h' : Heap}
variable {v : Value} {vs : List Value} {c p cs ps n fuel : Nat} {cause : EvalError}

namespace Machine

theorem mapM_eval_of_inTurn (turn : InTurn (Evaluates table) es env h vs h' cs ps)
    (enough : cs + es.length < fuel) :
    es.mapM (fun e => e.eval table fuel env) h = .ok vs h' := by
  induction turn with
  | nil => rfl
  | cons first _ ih =>
      rw [List.length_cons] at enough
      rw [List.mapM_cons]
      refine bind_eq_ok_iff.mpr ⟨_, _, eval_of_ends (ends_of_evaluates first) (by omega), ?_⟩
      exact bind_eq_ok_iff.mpr ⟨_, _, ih (by omega), rfl⟩

/-- If an element fails after those before it have their values then the sequence
fails in the same way. -/
theorem ends_seq_of_failing (turn : InTurn (Evaluates table) init env h vs h₁ cs ps)
    (failing : Ends table n (.initial e env) h₁ (.error cause h')) (rest : List Expr) :
    ∃ m, Ends table m (.initial (.seq (init ++ e :: rest)) env) h (.error cause h') := by
  let fuel := cs + init.length + n + 1
  have before := mapM_eval_of_inTurn turn (show cs + init.length < fuel by omega)
  have here := eval_of_ends failing (show n < fuel by omega)
  have elements : (init ++ e :: rest).mapM (fun e => e.eval table fuel env) h =
      .error (.failed cause) h' := by
    rw [List.mapM_append, List.mapM_cons]
    refine bind_eq_error_iff.mpr (.inr ⟨vs, h₁, before, ?_⟩)
    exact bind_eq_error_iff.mpr (.inl (bind_eq_error_iff.mpr (.inl here)))
  have whole : (Expr.seq (init ++ e :: rest)).eval table (fuel + 1) env h =
      Ending.outcome (.error cause h') := by
    rw [Expr.eval]
    exact bind_eq_error_iff.mpr (.inl elements)
  exact ends_of_eval whole

end Machine

namespace Session

variable {s : Session} {answer : Answer Error} {answers before : List (Answer Error)}

theorem evaluateParsed_eq_some_iff : s.evaluateParsed fuel (.ok e) h = some answer ↔
    ∃ stats ending, Machine.evaluate s.table fuel e h = some (stats, ending) ∧
      (s.answer stats ending).mapError .running = answer := by
  simp only [evaluateParsed, Option.map_eq_some_iff, evaluate_eq_some_iff]
  constructor
  · rintro ⟨_, ⟨stats, ending, run, rfl⟩, rfl⟩
    exact ⟨stats, ending, run, rfl⟩
  · rintro ⟨stats, ending, run, rfl⟩
    exact ⟨_, ⟨stats, ending, run, rfl⟩, rfl⟩

/-- An evaluation that has ended stays as it is with more fuel. -/
theorem evaluateParsed_mono {more : Nat} (le : fuel ≤ more)
    (ended : s.evaluateParsed fuel (.ok e) h = some answer) :
    s.evaluateParsed more (.ok e) h = some answer := by
  obtain ⟨stats, ending, run, rfl⟩ := evaluateParsed_eq_some_iff.mp ended
  exact evaluateParsed_eq_some_iff.mpr ⟨stats, ending, Machine.runWith_mono le run, rfl⟩

/-- With fuel for both, two answers are the same. -/
theorem evaluateParsed_unique {other : Answer Error} {fuel' : Nat}
    (first : s.evaluateParsed fuel (.ok e) h = some answer)
    (second : s.evaluateParsed fuel' (.ok e) h = some other) : answer = other := by
  have first := evaluateParsed_mono (Nat.le_max_left fuel fuel') first
  have second := evaluateParsed_mono (Nat.le_max_right fuel fuel') second
  exact Option.some.inj (first.symm.trans second)

/-- Alone in a new session the program has this answer. -/
def Alone (e : Expr) (answer : Answer Error) : Prop :=
  ∃ fuel, ({} : Session).evaluateParsed fuel (.ok e) {} = some answer

/-- On any site a program runs as it does alone. -/
theorem Alone.runWith_site (alone : Alone e answer) (site : Site) :
    ∃ fuel stats ending, (({} : Session).answer stats ending).mapError .running = answer ∧
      Machine.runWith .standard (fun s _ => Stats.count s.stack.depth) fuel {}
        (.initial e site.root) site.front =
          some (stats, moved site (Value.relocate site) ending) := by
  obtain ⟨fuel, ended⟩ := alone
  obtain ⟨stats, ending, run, hanswer⟩ := evaluateParsed_eq_some_iff.mp ended
  refine ⟨fuel, stats, ending, hanswer, ?_⟩
  rw [Machine.runWith_site fun _ _ _ _ => rfl]
  exact Option.map_eq_some_iff.mpr ⟨_, run, rfl⟩

theorem Alone.evaluates (alone : Alone e answer) (returned : answer.result = .ok v) (site : Site) :
    ∃ c p, Evaluates .standard e site.root site.front (v.relocate site)
        (site.behind answer.heap) c p ∧ answer.session.lastRun = ⟨c + 1, 1 + p⟩ := by
  obtain ⟨fuel, stats, ending, rfl, run⟩ := alone.runWith_site site
  cases ending with
  | ok w h₁ =>
      cases returned
      exact Machine.evaluates_of_runWith run
  | error cause h₁ => cases returned

theorem Alone.fails {err : Error} (alone : Alone e answer) (failed : answer.result = .error err)
    (site : Site) : ∃ cause n h', err = .running cause ∧
      Machine.Ends .standard n (.initial e site.root) site.front (.error cause h') := by
  obtain ⟨fuel, stats, ending, rfl, run⟩ := alone.runWith_site site
  cases ending with
  | ok w h₁ => cases failed
  | error cause h₁ =>
      cases failed
      obtain ⟨n, -, ending⟩ := Machine.ends_of_runWith run
      exact ⟨cause, n, _, rfl, ending⟩

/-- The steps of several answers together. -/
def steps (answers : List (Answer Error)) : Nat :=
  (answers.map fun a => a.session.lastRun.steps).foldr (· + ·) 0

theorem steps_concat {answers : List (Answer Error)} {answer : Answer Error} :
    steps (answers ++ [answer]) = steps answers + answer.session.lastRun.steps := by
  induction answers with
  | nil => exact Nat.add_comm _ _
  | cons first answers ih => exact (congrArg _ ih).trans (Nat.add_assoc _ _ _).symm

/-- The greatest depth of the stack in several answers. -/
def peak (answers : List (Answer Error)) : Nat :=
  (answers.map fun a => a.session.lastRun.peakDepth).foldr max 0

/-- Programs that have values alone have them one after the other in the same root,
each on the heap that the one before it leaves. -/
theorem inTurn_of_alone {root : Nat} (isRoot : h.frames[root]? = some ⟨[], none⟩)
    (alone : List.Forall₂ Alone es answers) (values : ∀ a ∈ answers, ∃ v, a.result = .ok v) :
    ∃ vs h' cs ps, InTurn (Evaluates .standard) es root h vs h' cs ps ∧
      h'.frames[root]? = some ⟨[], none⟩ ∧ cs + es.length = steps answers ∧
      ps = peak answers := by
  induction alone generalizing h with
  | nil => exact ⟨[], h, 0, 0, .nil, isRoot, rfl, rfl⟩
  | @cons e answer es answers first _ ih =>
      obtain ⟨⟨v, returned⟩, values⟩ := List.forall_mem_cons.mp values
      let site : Site := ⟨h, root, isRoot⟩
      obtain ⟨c, p, ev, hstats⟩ := first.evaluates returned site
      have isRoot' : (site.behind answer.heap).frames[root]? = some ⟨[], none⟩ := by
        rw [Heap.getElem?_frames_front site.root_lt]
        exact isRoot
      obtain ⟨vs, h', cs, ps, turn, isRoot', hsteps, hpeak⟩ := ih isRoot' values
      refine ⟨_, h', _, _, .cons ev turn, isRoot', ?_, ?_⟩
      · simp only [steps, List.map_cons, List.foldr_cons, hstats, List.length_cons] at hsteps ⊢
        omega
      · simp only [peak, List.map_cons, List.foldr_cons, hstats, hpeak]

/-- All programs have a value, and so has their sequence: that of the last one. -/
theorem evaluateParsed_seq_value (standard : s.table = .standard)
    (alone : List.Forall₂ Alone init before) (values : ∀ a ∈ before, ∃ v, a.result = .ok v)
    (last : Alone e answer) (returned : answer.result = .ok v) (h : Heap) :
    ∃ fuel w h', s.evaluateParsed fuel (.ok (.seq (init ++ [e]))) h =
        some ⟨.ok w, { s with lastRun := ⟨1 + steps (before ++ [answer]),
          max (peak before + 1) answer.session.lastRun.peakDepth⟩ }, h'⟩ ∧
      w.text = v.text ∧ ∀ depth, h'.view depth w = answer.heap.view depth v := by
  obtain ⟨vs, h₁, cs, ps, turn, isRoot, hsteps, rfl⟩ :=
    inTurn_of_alone h.site.isRoot alone values
  let site : Site := ⟨h₁, h.site.root, isRoot⟩
  obtain ⟨c, p, ev, hstats⟩ := last.evaluates returned site
  have whole := Evaluates.seq turn ev
  have hcount : init.length + 1 + (cs + c) + 1 = 1 + steps (before ++ [answer]) := by
    simp only [steps_concat, hstats]
    omega
  have hdepth : 1 + max (peak before) p =
      max (peak before + 1) answer.session.lastRun.peakDepth := by
    simp only [hstats]
    omega
  have run : Machine.evaluate s.table (1 + steps (before ++ [answer])) (.seq (init ++ [e])) h =
      some (⟨1 + steps (before ++ [answer]),
        max (peak before + 1) answer.session.lastRun.peakDepth⟩,
          .ok (v.relocate site) (site.behind answer.heap)) := by
    rw [standard, ← hcount, ← hdepth]
    exact Machine.runWith_of_evaluates whole (Nat.le_refl _)
  exact ⟨_, _, _, evaluateParsed_eq_some_iff.mpr ⟨_, _, run, rfl⟩, Value.text_relocate,
    fun depth => Heap.view_behind depth⟩

/-- The sequence of the programs fails as the first one does that fails. -/
theorem evaluateParsed_seq_error {err : Error} (standard : s.table = .standard)
    (alone : List.Forall₂ Alone init before) (values : ∀ a ∈ before, ∃ v, a.result = .ok v)
    (failing : Alone e answer) (failed : answer.result = .error err) (rest : List Expr)
    (h : Heap) : ∃ fuel whole, s.evaluateParsed fuel (.ok (.seq (init ++ e :: rest))) h =
      some whole ∧ whole.result = .error err := by
  obtain ⟨vs, h₁, cs, ps, turn, isRoot, -, -⟩ := inTurn_of_alone h.site.isRoot alone values
  obtain ⟨cause, n, h', rfl, ending⟩ := failing.fails failed ⟨h₁, h.site.root, isRoot⟩
  obtain ⟨m, ending⟩ := Machine.ends_seq_of_failing turn ending rest
  rw [← standard] at ending
  obtain ⟨stats, run⟩ := Machine.evaluate_eq_some_iff.mpr ⟨m, Nat.le_refl m, ending⟩
  exact ⟨m, _, evaluateParsed_eq_some_iff.mpr ⟨stats, _, run, rfl⟩, rfl⟩

/-- A program of one form is the expression of the form. -/
theorem ofForm_of_ofProgram {form : Form} (built : Expr.ofProgram [form] = .ok e) :
    Expr.ofForm form = .ok e := by
  obtain ⟨_, row, hblock⟩ := SyntaxError.bind_eq_ok_iff.mp built
  rw [Expr.ofForms] at row
  obtain ⟨e', he, row⟩ := SyntaxError.bind_eq_ok_iff.mp row
  cases row
  cases hblock
  exact he

/-- Forms that build one by one build the sequence of their expressions. -/
theorem ofProgram_eq_seq {forms : List Form}
    (builds : List.Forall₂ (fun form e => Expr.ofProgram [form] = .ok e) forms es)
    (several : 2 ≤ forms.length) : Expr.ofProgram forms = .ok (.seq es) := by
  have row : Expr.ofForms forms = .ok es := by
    clear several
    induction builds with
    | nil => rfl
    | cons built _ ih =>
        rw [Expr.ofForms, ofForm_of_ofProgram built, ih]
        rfl
  cases builds with
  | nil => simp at several
  | cons _ builds =>
      cases builds with
      | nil => simp at several
      | cons => exact SyntaxError.bind_eq_ok_iff.mpr ⟨_, row, rfl⟩

/-- The expressions that the forms build alone have the answers of the forms. -/
theorem exists_alone {forms : List Form}
    (alone : List.Forall₂ (fun form answer => (∃ e, Expr.ofProgram [form] = .ok e) ∧
      ∃ fuel, ({} : Session).evaluateForms fuel [form] {} = some answer) forms answers) :
    ∃ es, List.Forall₂ (fun form e => Expr.ofProgram [form] = .ok e) forms es ∧
      List.Forall₂ Alone es answers := by
  induction alone with
  | nil => exact ⟨[], .nil, .nil⟩
  | cons first _ ih =>
      obtain ⟨⟨e, built⟩, fuel, run⟩ := first
      obtain ⟨es, builds, alone⟩ := ih
      rw [evaluateForms, built] at run
      exact ⟨e :: es, .cons built builds, .cons ⟨fuel, run⟩ alone⟩

/-- Either all answers are values or there is a first one that is an error. -/
theorem values_or_first_error (answers : List (Answer Error)) :
    (∀ a ∈ answers, ∃ v, a.result = .ok v) ∨ ∃ before first after err,
      answers = before ++ first :: after ∧ (∀ a ∈ before, ∃ v, a.result = .ok v) ∧
        first.result = .error err := by
  induction answers with
  | nil => exact .inl nofun
  | cons answer answers ih =>
      cases hresult : answer.result with
      | error err => exact .inr ⟨[], answer, answers, err, rfl, nofun, hresult⟩
      | ok v =>
          rcases ih with values | ⟨before, first, after, err, rfl, values, failed⟩
          · exact .inl (List.forall_mem_cons.mpr ⟨⟨v, hresult⟩, values⟩)
          · exact .inr ⟨answer :: before, first, after, err, rfl,
              List.forall_mem_cons.mpr ⟨⟨v, hresult⟩, values⟩, failed⟩

/-- The expressions of the answers before one, its own, and those of the answers
after it. -/
theorem exists_append_of_alone {first : Answer Error} {after : List (Answer Error)}
    (alone : List.Forall₂ Alone es (before ++ first :: after)) :
    ∃ init e rest, es = init ++ e :: rest ∧ List.Forall₂ Alone init before ∧ Alone e first ∧
      List.Forall₂ Alone rest after := by
  have front := List.forall₂_take_append es before (first :: after) alone
  have back := List.forall₂_drop_append es before (first :: after) alone
  obtain ⟨e, rest, here, later, hdrop⟩ := List.forall₂_cons_right_iff.mp back
  refine ⟨es.take before.length, e, rest, ?_, front, here, later⟩
  rw [← hdrop, List.take_append_drop]

/-- Forms that build one by one and give an answer alone, as one program: the program
ends, with the error of the first form that fails, and if there is none then with the
value of the last form, after one step more than all forms take together and at the
depth that the last form reaches or one frame more than one of the others does. -/
theorem forms_independent (s : Session) (standard : s.table = .standard) (h : Heap)
    (forms : List Form) (several : 2 ≤ forms.length) (answers : List (Answer Error))
    (alone : List.Forall₂ (fun form answer => (∃ e, Expr.ofProgram [form] = .ok e) ∧
      ∃ fuel, ({} : Session).evaluateForms fuel [form] {} = some answer) forms answers) :
    (∃ fuel answer, s.evaluateForms fuel forms h = some answer) ∧
    ∀ fuel answer, s.evaluateForms fuel forms h = some answer →
      (∀ before first after err, answers = before ++ first :: after →
        (∀ a ∈ before, ∃ v, a.result = .ok v) → first.result = .error err →
          answer.result = .error err) ∧
      (∀ before last v, answers = before ++ [last] →
        (∀ a ∈ before, ∃ v, a.result = .ok v) → last.result = .ok v →
          (∃ w, answer.result = .ok w ∧ w.text = v.text ∧
            ∀ depth, answer.heap.view depth w = last.heap.view depth v) ∧
          answer.session.lastRun =
            ⟨1 + steps answers, max (peak before + 1) last.session.lastRun.peakDepth⟩) := by
  obtain ⟨es, builds, alone⟩ := exists_alone alone
  have program : ∀ fuel, s.evaluateForms fuel forms h =
      s.evaluateParsed fuel (.ok (.seq es)) h := by
    intro fuel
    rw [evaluateForms, ofProgram_eq_seq builds several]
  simp only [program]
  refine ⟨?_, ?_⟩
  -- the first form that fails ends the program, and if there is none the last form does
  · rcases values_or_first_error answers with
      values | ⟨before, first, after, err, rfl, values, failed⟩
    · rcases answers.eq_nil_or_concat with rfl | ⟨before, last, rfl⟩
      · cases alone
        cases builds
        cases several
      · rw [List.concat_eq_append] at alone values
        obtain ⟨values, here⟩ := List.forall_mem_append.mp values
        obtain ⟨v, returned⟩ := List.forall_mem_singleton.mp here
        obtain ⟨init, e, rest, rfl, front, here, after⟩ := exists_append_of_alone alone
        cases after
        obtain ⟨fuel, w, h', run, -⟩ :=
          evaluateParsed_seq_value standard front values here returned h
        exact ⟨fuel, _, run⟩
    · obtain ⟨init, e, rest, rfl, front, here, -⟩ := exists_append_of_alone alone
      obtain ⟨fuel, whole, run, -⟩ :=
        evaluateParsed_seq_error standard front values here failed rest h
      exact ⟨fuel, whole, run⟩
  · intro fuel answer run
    constructor
    · rintro before first after err rfl values failed
      obtain ⟨init, e, rest, rfl, front, here, -⟩ := exists_append_of_alone alone
      obtain ⟨fuel', whole, run', hwhole⟩ :=
        evaluateParsed_seq_error standard front values here failed rest h
      rw [evaluateParsed_unique run run']
      exact hwhole
    · rintro before last v rfl values returned
      obtain ⟨init, e, rest, rfl, front, here, after⟩ := exists_append_of_alone alone
      cases after
      obtain ⟨fuel', w, h', run', htext, hview⟩ :=
        evaluateParsed_seq_value standard front values here returned h
      rw [evaluateParsed_unique run run']
      exact ⟨⟨w, rfl, htext, hview⟩, rfl⟩

/-- A call that leaves a frame and a form that makes a box, alone and with a form in
between that fails. -/
theorem forms_independent_box :
    (∃ fuel answer w, ({} : Session).evaluateForms fuel
      [.list [.symbol "#%app",
          .list [.symbol "#%lambda", .list [.symbol "x"], .list [.symbol "#%datum", .integer 2]],
          .list [.symbol "#%datum", .integer 7]],
        .list [.symbol "#%primapp", .symbol "box", .list [.symbol "#%datum", .integer 1]]] {} =
        some answer ∧ answer.result = .ok w ∧ w.text = "#<box>" ∧
          answer.session.lastRun = ⟨12, 3⟩) ∧
    (∃ fuel answer, ({} : Session).evaluateForms fuel
      [.list [.symbol "#%app",
          .list [.symbol "#%lambda", .list [.symbol "x"], .list [.symbol "#%datum", .integer 2]],
          .list [.symbol "#%datum", .integer 7]],
        .list [.symbol "#%primapp", .symbol "f"],
        .list [.symbol "#%primapp", .symbol "box", .list [.symbol "#%datum", .integer 1]]] {} =
        some answer ∧ answer.result = .error (.running (.unknownPrimitive "f"))) := by
  let call : Form := .list [.symbol "#%app",
    .list [.symbol "#%lambda", .list [.symbol "x"], .list [.symbol "#%datum", .integer 2]],
    .list [.symbol "#%datum", .integer 7]]
  let box : Form := .list [.symbol "#%primapp", .symbol "box",
    .list [.symbol "#%datum", .integer 1]]
  let unknown : Form := .list [.symbol "#%primapp", .symbol "f"]
  let called : Answer Error := ⟨.ok (.integer 2), { lastRun := ⟨7, 2⟩ },
    ⟨#[⟨[], none⟩, ⟨[("x", .integer 7)], some 0⟩], #[], 1⟩⟩
  let boxed : Answer Error := ⟨.ok (.box 0), { lastRun := ⟨4, 2⟩ },
    ⟨#[⟨[], none⟩], #[.integer 1], 0⟩⟩
  let failed : Answer Error := ⟨.error (.running (.unknownPrimitive "f")), { lastRun := ⟨1, 1⟩ },
    ⟨#[⟨[], none⟩], #[], 0⟩⟩
  have values : ∀ a ∈ [called], ∃ v, a.result = .ok v := List.forall_mem_singleton.mpr ⟨_, rfl⟩
  constructor
  · obtain ⟨⟨fuel, answer, run⟩, ends⟩ := forms_independent {} rfl {} [call, box] (by decide)
      [called, boxed] (.cons ⟨⟨_, rfl⟩, 7, rfl⟩ (.cons ⟨⟨_, rfl⟩, 4, rfl⟩ .nil))
    obtain ⟨⟨w, returned, htext, -⟩, hstats⟩ :=
      (ends fuel answer run).2 [called] boxed (.box 0) rfl values rfl
    exact ⟨fuel, answer, w, run, returned, htext, hstats⟩
  · obtain ⟨⟨fuel, answer, run⟩, ends⟩ := forms_independent {} rfl {} [call, unknown, box]
      (by decide) [called, failed, boxed]
      (.cons ⟨⟨_, rfl⟩, 7, rfl⟩ (.cons ⟨⟨_, rfl⟩, 1, rfl⟩ (.cons ⟨⟨_, rfl⟩, 4, rfl⟩ .nil)))
    exact ⟨fuel, answer, run, (ends fuel answer run).1 [called] failed [boxed] _ rfl values rfl⟩

end Session

end CoreLisp
