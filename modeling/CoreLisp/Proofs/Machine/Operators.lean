import CoreLisp.Machine.Log
import CoreLisp.Proofs.Expr.Operators
import CoreLisp.Proofs.Machine.Own
import CoreLisp.Proofs.Machine.Renaming
import CoreLisp.Proofs.Primitive.Registry

/-!
# Primitives that a program does not call

Tables that have the same primitives under the operators of a program run it in the same
way: a call of a primitive is the only step that looks into the table, and all code that
a run comes to is from the program, also that of procedures which were kept in boxes or
in variables. So it does not matter to a program what is registered under other names,
nor which of those are names of its variables.
-/
namespace CoreLisp

namespace Table

/-- Both tables have the same primitives under these names. -/
def AgreeOn (names : List Name) (t t' : Table) : Prop := ∀ name ∈ names, t.get? name = t'.get? name

variable {names : List Name} {name : Name} {t t' : Table} {args : List Value}

theorem AgreeOn.apply (agree : AgreeOn names t t') (mem : name ∈ names) :
    t.apply name args = t'.apply name args := by
  unfold Table.apply
  rw [agree name mem]

theorem agreeOn_registerAll {added : List (Name × Primitive)}
    (unrelated : ∀ entry ∈ added, entry.1 ∉ names) : AgreeOn names t (t.registerAll added) := by
  intro name mem
  have never : latest added name = none := by
    refine latest_eq_none_iff.mpr ?_
    rintro entry hentry rfl
    exact unrelated entry hentry mem
  rw [get?_registerAll, never, Option.none_or]

end Table

namespace Machine

variable {names : List Name} {t t' : Table} {m : Mark} {s : State} {h : Heap} {e : Expr} {k : Kont}
variable {v : Value} {env : Env} {stack : Stack} {fuel : Nat}

theorem applyPrimitive_eq {name : Name} {args : List Value} (agree : t.AgreeOn names t')
    (mem : name ∈ names) :
    applyPrimitive t name args env stack = applyPrimitive t' name args env stack := by
  unfold applyPrimitive
  rw [agree.apply mem]

/-- Only the call of a primitive without arguments looks into the table. -/
theorem visit_eq (agree : Table.AgreeOn names t t') (he : e.CallsAmong names) :
    visit t e env stack = visit t' e env stack := by
  cases e with
  | primApp name rands =>
      cases rands with
      | nil => exact applyPrimitive_eq agree (he name rfl)
      | cons => rfl
  | seq body => rcases body with _ | ⟨first, _ | ⟨next, rest⟩⟩ <;> rfl
  | _ => rfl

theorem resume_eq (agree : Table.AgreeOn names t t') (hk : ∀ e ∈ k.code, e.CallsAmong names) :
    resume t k v stack = resume t' k v stack := by
  cases k with
  | primApp env name rands values =>
      have mem : name ∈ names := hk _ List.mem_cons_self name rfl
      simp only [resume, applyPrimitive_eq agree mem]
  | _ => rfl

theorem step_eq (agree : Table.AgreeOn names t t') (own : s.Own (Expr.CallsAmong names) m) :
    step t s = step t' s := by
  obtain ⟨control, env, stack⟩ := s
  cases control with
  | evaluating e => exact visit_eq agree own.control.self
  | returning v =>
      rcases stack.empty_or_push with rfl | ⟨k, below, rfl⟩
      · rfl
      · simp only [step, Stack.pop?_push]
        exact resume_eq agree fun e he => (own.below.1.code e he).self
  | halted v => rfl

/-- Induction on the fuel. What the run holds stays its own, so the tables agree on all
that it calls. -/
theorem runWith_eq {σ : Type} {observe : State → Heap → σ → σ} {seen : σ}
    (agree : Table.AgreeOn names t t') (keeps : t.Keeps (Expr.CallsAmong names) m)
    (own : s.Own (Expr.CallsAmong names) m) (hh : h.Own (Expr.CallsAmong names) m) :
    runWith t observe fuel seen s h = runWith t' observe fuel seen s h := by
  induction fuel generalizing seen s h with
  | zero =>
      rcases s.halted_or_running with ⟨v, hv⟩ | running
      · rw [runWith_halted hv, runWith_halted hv]
      · rw [runWith_no_fuel running, runWith_no_fuel running]
  | succ fuel ih =>
      rcases s.halted_or_running with ⟨v, hv⟩ | running
      · rw [runWith_halted hv, runWith_halted hv]
      · rw [runWith_running running, runWith_running running, ← step_eq agree own]
        cases hs : step t s h with
        | ok s' h' =>
            obtain ⟨own', hh'⟩ := (step_eq_ok_iff.mp hs).own keeps own hh
            exact ih own' hh'
        | error e h' => rfl

theorem evaluateWith_eq {σ : Type} {observe : State → Heap → σ → σ} {seen : σ}
    (agree : Table.AgreeOn e.operators t t')
    (keeps : t.Keeps (Expr.CallsAmong e.operators) h.mark) :
    evaluateWith t observe fuel seen e h = evaluateWith t' observe fuel seen e h := by
  have start := Reachable.own keeps (Expr.everywhere_callsAmong (List.Subset.refl _))
    ⟨0, .done _ _⟩
  exact runWith_eq agree keeps start.1 start.2

/-- The variables of a program may have any names, also those of primitives. -/
theorem evaluate_renamed {e' : Expr} (same : e.AlphaEquiv e')
    (agree : Table.AgreeOn e.operators .standard t) :
    Option.Rel (fun run run' => run.1 = run'.1 ∧ Alike run.2 run'.2)
      (evaluate .standard fuel e h) (evaluate t fuel e' h) := by
  have agree' : Table.AgreeOn e'.operators .standard t := same.operators_eq ▸ agree
  have known : evaluate .standard fuel e' h = evaluate t fuel e' h :=
    evaluateWith_eq agree' (Table.standard_keeps _ _)
  rw [← known, evaluate_relocate e h, evaluate_relocate e' h]
  have alone : Option.Rel _ (evaluate .standard fuel e {}) (evaluate .standard fuel e' {}) :=
    runWith_matches (matches_initial same) (Sides.start_agree _)
  generalize evaluate .standard fuel e {} = left at alone ⊢
  generalize evaluate .standard fuel e' {} = right at alone ⊢
  cases alone with
  | none => exact .none
  | some both => exact .some ⟨both.1, both.2.moved⟩

/-- Registering primitives under names that are no operators of a program changes nothing
for it: not the result, the statistics or what is left on the heap, not the log, and
nothing else that can be observed of the states on the way. Some of these names may be
those of its variables; and when its variables are called after primitives, even after
those that it calls, the run differs in nothing but what shows their names. -/
theorem unrelated_primitives_ignored (e : Expr) (added : List (Name × Primitive))
    (unrelated : ∀ entry ∈ added, entry.1 ∉ e.operators) (h : Heap) (fuel : Nat) :
    evaluate (Table.standard.registerAll added) fuel e h = evaluate .standard fuel e h ∧
    trace (Table.standard.registerAll added) fuel e h = trace .standard fuel e h ∧
    (∀ (σ : Type) (observe : State → Heap → σ → σ) (seen : σ),
      evaluateWith (Table.standard.registerAll added) observe fuel seen e h =
        evaluateWith .standard observe fuel seen e h) ∧
    ∀ e', e.AlphaEquiv e' → Option.Rel (fun run run' => run.1 = run'.1 ∧ Alike run.2 run'.2)
      (evaluate .standard fuel e h) (evaluate (Table.standard.registerAll added) fuel e' h) := by
  have agree : Table.AgreeOn e.operators .standard (Table.standard.registerAll added) :=
    Table.agreeOn_registerAll unrelated
  have observed : ∀ (σ : Type) (observe : State → Heap → σ → σ) (seen : σ),
      evaluateWith (Table.standard.registerAll added) observe fuel seen e h =
        evaluateWith .standard observe fuel seen e h :=
    fun σ observe seen => (evaluateWith_eq agree (Table.standard_keeps _ _)).symm
  refine ⟨observed Stats _ _, ?_, observed, fun e' same => evaluate_renamed same agree⟩
  unfold trace
  rw [observed Trace Trace.observe {}]

/-- A variable that is added to a number by a primitive. -/
def increased (x : Name) : Expr :=
  .letIn [x] [.datum (.integer 3)] (.primApp "plus" [.ref x, .datum (.integer 4)])

/-- Primitives with the name of the variable and of a standard primitive that is not
called, and then a variable with the name of the one that is. -/
theorem unrelated_primitives_ignored_increased :
    let added : List (Name × Primitive) :=
      [("x", ⟨0, fun _ => pure .unit⟩), ("minus", ⟨2, fun _ => throw .undefinedAccess⟩)]
    (∀ entry ∈ added, entry.1 ∉ (increased "x").operators) ∧
      (increased "x").AlphaEquiv (increased "plus") ∧
      (trace .standard 9 (increased "x") {}).isSome ∧
      trace (Table.standard.registerAll added) 9 (increased "x") {} =
        trace .standard 9 (increased "x") {} ∧
      Option.Rel (fun run run' => run.1 = run'.1 ∧ Alike run.2 run'.2)
        (evaluate .standard 9 (increased "x") {})
        (evaluate (Table.standard.registerAll added) 9 (increased "plus") {}) := by
  intro added
  have unrelated : ∀ entry ∈ added, entry.1 ∉ (increased "x").operators := by
    simp [added, increased, Expr.operators, Expr.operatorsAll]
  have same : (increased "x").AlphaEquiv (increased "plus") := by
    refine .letIn rfl (List.cons_ne_nil _ _) ⟨rfl, List.nodup_singleton _, List.nodup_singleton _⟩
      rfl (fun mem => ?_) (.primApp rfl fun mem => ?_)
    · cases List.mem_singleton.mp mem
      exact .datum _
    · rcases List.mem_cons.mp mem with heq | mem
      · cases heq
        exact .ref (.here List.mem_cons_self)
      · cases List.mem_singleton.mp mem
        exact .datum _
  obtain ⟨-, log, -, renamed⟩ := unrelated_primitives_ignored _ added unrelated {} 9
  exact ⟨unrelated, same, by decide +kernel, log, renamed _ same⟩

end Machine

end CoreLisp
