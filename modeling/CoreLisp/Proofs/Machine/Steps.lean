import CoreLisp.Machine.Run

/-!
# Runs as sequences of steps

`Machine.runWith` is a loop with fuel and an observer. Here its steps and its
endings are relations, with the number of steps as an index: `Steps` leads from
one state to a later one of the same run, and `Ends` says how a run ends. A run
makes a step only from a state that has not halted; a failing step counts.

The machine is a function, so a run ends in one way at most, and the loop gives
an answer exactly when the fuel covers the steps of that ending. What holds of
the first state and is kept by every step holds of all states of a run.
-/
namespace CoreLisp

/-- The run is not over yet. -/
def State.Running (s : State) : Prop := ∀ v, s.control ≠ .halted v

theorem State.running_evaluating {e : Expr} {env : Env} {stack : Stack} :
    State.Running ⟨.evaluating e, env, stack⟩ := by
  intro v h
  cases h

theorem State.running_returning {v : Value} {env : Env} {stack : Stack} :
    State.Running ⟨.returning v, env, stack⟩ := by
  intro w h
  cases h

theorem State.halted_or_running (s : State) : (∃ v, s.control = .halted v) ∨ s.Running := by
  cases h : s.control with
  | halted v => exact .inl ⟨v, rfl⟩
  | evaluating | returning =>
      refine .inr fun v hv => ?_
      rw [h] at hv
      cases hv

namespace Machine

variable {table : Table} {n m : Nat} {s s₁ s' : State} {h h₁ h' : Heap} {a b : Ending}

/-- The first `n` steps of the run from `s` lead to `s'`. -/
inductive Steps (table : Table) : Nat → State → Heap → State → Heap → Prop
  | done (s : State) (h : Heap) : Steps table 0 s h s h
  | step {n : Nat} {s s₁ s' : State} {h h₁ h' : Heap} : s.Running →
      step table s h = .ok s₁ h₁ → Steps table n s₁ h₁ s' h' → Steps table (n + 1) s h s' h'

/-- The run from `s` ends after `n` steps. -/
inductive Ends (table : Table) : Nat → State → Heap → Ending → Prop
  | halted {s : State} {v : Value} (h : Heap) : s.control = .halted v → Ends table 0 s h (.ok v h)
  | failed {s : State} {h h' : Heap} {e : EvalError} : s.Running →
      step table s h = .error e h' → Ends table 1 s h (.error e h')
  | step {n : Nat} {s s₁ : State} {h h₁ : Heap} {a : Ending} : s.Running →
      step table s h = .ok s₁ h₁ → Ends table n s₁ h₁ a → Ends table (n + 1) s h a

/-- The states that a program can come to from its first state. -/
def Reachable (table : Table) (e : Expr) (h : Heap) (s : State) (h' : Heap) : Prop :=
  ∃ n, Steps table n (.initial e h.newRoot.1) h.newRoot.2 s h'

theorem Steps.one (running : s.Running) (hs : Machine.step table s h = .ok s' h') :
    Steps table 1 s h s' h' :=
  .step running hs (.done s' h')

theorem Steps.trans {s₂ : State} {h₂ : Heap} (first : Steps table n s h s₁ h₁)
    (rest : Steps table m s₁ h₁ s₂ h₂) : Steps table (n + m) s h s₂ h₂ := by
  induction first with
  | done => simpa using rest
  | step running hs _ ih =>
      rw [Nat.add_right_comm]
      exact .step running hs (ih rest)

theorem Steps.ends (first : Steps table n s h s₁ h₁) (rest : Ends table m s₁ h₁ a) :
    Ends table (n + m) s h a := by
  induction first with
  | done => simpa using rest
  | step running hs _ ih =>
      rw [Nat.add_right_comm]
      exact .step running hs (ih rest)

/-- A property that every step keeps is kept by a whole run. -/
theorem Steps.invariant {P : State → Heap → Prop}
    (keep : ∀ {s s' : State} {h h' : Heap}, Machine.step table s h = .ok s' h' → P s h → P s' h')
    (run : Steps table n s h s' h') (start : P s h) : P s' h' := by
  induction run with
  | done => exact start
  | step _ hs _ ih => exact ih (keep hs start)

/-- A halted state stays as it is, so steps from any state lead to reachable
states again. -/
theorem Reachable.step {e : Expr} {h₂ : Heap} (reached : Reachable table e h s h₁)
    (hs : Machine.step table s h₁ = .ok s' h₂) : Reachable table e h s' h₂ := by
  obtain ⟨n, run⟩ := reached
  obtain ⟨control, env, stack⟩ := s
  cases control with
  | evaluating e => exact ⟨n + 1, run.trans (.one State.running_evaluating hs)⟩
  | returning v => exact ⟨n + 1, run.trans (.one State.running_returning hs)⟩
  | halted v =>
      cases hs
      exact ⟨n, run⟩

/-- What holds of the first state and is kept by every step from a reachable state
holds of all reachable states. -/
theorem Reachable.induction {P : State → Heap → Prop} {e : Expr}
    (start : P (.initial e h.newRoot.1) h.newRoot.2)
    (keep : ∀ {s s' : State} {h₁ h₂ : Heap}, Reachable table e h s h₁ →
      Machine.step table s h₁ = .ok s' h₂ → P s h₁ → P s' h₂)
    (reached : Reachable table e h s h') : P s h' := by
  obtain ⟨n, run⟩ := reached
  have both : Reachable table e h s h' ∧ P s h' := by
    refine run.invariant (P := fun s h₁ => Reachable table e h s h₁ ∧ P s h₁) ?_ ?_
    · intro s s' h₁ h₂ hs here
      exact ⟨here.1.step hs, keep here.1 hs here.2⟩
    · exact ⟨⟨0, .done _ _⟩, start⟩
  exact both.2

/-- A run has one ending at most, and the steps before it are of one number. -/
theorem Ends.unique (first : Ends table n s h a) (second : Ends table m s h b) :
    n = m ∧ a = b := by
  induction first generalizing m with
  | halted h hv =>
      cases second with
      | halted _ hw =>
          rw [hv] at hw
          cases hw
          exact ⟨rfl, rfl⟩
      | failed running _ => exact absurd hv (running _)
      | step running _ _ => exact absurd hv (running _)
  | failed running hs =>
      cases second with
      | halted _ hw => exact absurd hw (running _)
      | failed _ hs' =>
          rw [hs] at hs'
          cases hs'
          exact ⟨rfl, rfl⟩
      | step _ hs' _ =>
          rw [hs] at hs'
          cases hs'
  | step running hs _ ih =>
      cases second with
      | halted _ hw => exact absurd hw (running _)
      | failed _ hs' =>
          rw [hs] at hs'
          cases hs'
      | step _ hs' rest =>
          rw [hs] at hs'
          cases hs'
          obtain ⟨hn, ha⟩ := ih rest
          exact ⟨by rw [hn], ha⟩

/-- The steps of a run do not go beyond its ending. -/
theorem Steps.le_of_ends (run : Steps table n s h s' h') (ending : Ends table m s h a) :
    n ≤ m := by
  induction run generalizing m with
  | done => exact Nat.zero_le m
  | step running hs _ ih =>
      cases ending with
      | halted _ hw => exact absurd hw (running _)
      | failed _ hs' =>
          rw [hs] at hs'
          cases hs'
      | step _ hs' rest =>
          rw [hs] at hs'
          cases hs'
          exact Nat.succ_le_succ (ih rest)

/-- A run that fails does so by a step from one of its states. -/
theorem Ends.failing_step {e : EvalError} (ending : Ends table n s h (.error e h')) :
    ∃ k s₁ h₁, Steps table k s h s₁ h₁ ∧ Machine.step table s₁ h₁ = .error e h' := by
  generalize ha : (EStateM.Result.error e h' : Ending) = a at ending
  induction ending with
  | halted => cases ha
  | failed _ hs =>
      cases ha
      exact ⟨0, _, _, .done _ _, hs⟩
  | step running hs _ ih =>
      obtain ⟨k, s₂, h₂, run, fail⟩ := ih ha
      exact ⟨k + 1, s₂, h₂, .step running hs run, fail⟩

/-- A run that gives a value has halted with it. -/
theorem Ends.halting_state {v : Value} (ending : Ends table n s h (.ok v h')) :
    ∃ s', Steps table n s h s' h' ∧ s'.control = .halted v := by
  generalize ha : (EStateM.Result.ok v h' : Ending) = a at ending
  induction ending with
  | halted h hv =>
      cases ha
      exact ⟨_, .done _ _, hv⟩
  | failed => cases ha
  | step running hs _ ih =>
      obtain ⟨s', run, hv⟩ := ih ha
      exact ⟨s', .step running hs run, hv⟩

section Loop
variable {σ τ : Type} {observe : State → Heap → σ → σ} {seen seen' : σ} {fuel : Nat}

theorem runWith_halted {v : Value} (hv : s.control = .halted v) :
    runWith table observe fuel seen s h = some (seen, .ok v h) := by
  unfold runWith
  simp only [hv]

theorem runWith_running (running : s.Running) :
    runWith table observe (fuel + 1) seen s h =
      match step table s h with
      | .ok s' h' => runWith table observe fuel (observe s h seen) s' h'
      | .error e h' => some (observe s h seen, .error e h') := by
  rw [runWith]
  split
  · exact absurd ‹_› (running _)
  · rfl

theorem runWith_no_fuel (running : s.Running) : runWith table observe 0 seen s h = none := by
  unfold runWith
  split
  · exact absurd ‹_› (running _)
  · rfl

theorem ends_of_runWith (run : runWith table observe fuel seen s h = some (seen', a)) :
    ∃ n ≤ fuel, Ends table n s h a := by
  induction fuel generalizing seen s h with
  | zero =>
      rcases s.halted_or_running with ⟨v, hv⟩ | running
      · rw [runWith_halted hv] at run
        cases run
        exact ⟨0, Nat.le_refl 0, .halted h hv⟩
      · rw [runWith_no_fuel running] at run
        cases run
  | succ fuel ih =>
      rcases s.halted_or_running with ⟨v, hv⟩ | running
      · rw [runWith_halted hv] at run
        cases run
        exact ⟨0, Nat.zero_le _, .halted h hv⟩
      · rw [runWith_running running] at run
        cases hs : step table s h with
        | ok s₁ h₁ =>
            rw [hs] at run
            obtain ⟨n, hn, ending⟩ := ih run
            exact ⟨n + 1, Nat.succ_le_succ hn, .step running hs ending⟩
        | error e h₁ =>
            rw [hs] at run
            cases run
            exact ⟨1, Nat.succ_le_succ (Nat.zero_le fuel), .failed running hs⟩

/-- What the observer has gathered has a property that it keeps at every state of the
run. -/
theorem runWith_seen {P : σ → Prop} (keep : ∀ {n : Nat} {s₁ : State} {h₁ : Heap} {seen : σ},
      Steps table n s h s₁ h₁ → P seen → P (observe s₁ h₁ seen))
    (run : runWith table observe fuel seen s h = some (seen', a)) (start : P seen) : P seen' := by
  induction fuel generalizing seen s h with
  | zero =>
      rcases s.halted_or_running with ⟨v, hv⟩ | running
      · rw [runWith_halted hv] at run
        cases run
        exact start
      · rw [runWith_no_fuel running] at run
        cases run
  | succ fuel ih =>
      rcases s.halted_or_running with ⟨v, hv⟩ | running
      · rw [runWith_halted hv] at run
        cases run
        exact start
      · have here := keep (.done s h) start
        rw [runWith_running running] at run
        cases hs : step table s h with
        | ok s₁ h₁ =>
            rw [hs] at run
            exact ih (fun rest => keep (.step running hs rest)) run here
        | error e h₁ =>
            rw [hs] at run
            cases run
            exact here

/-- An observer that gathers less sees the same run. -/
theorem runWith_map {observe' : State → Heap → τ → τ} {f : σ → τ}
    (less : ∀ s h seen, f (observe s h seen) = observe' s h (f seen)) :
    runWith table observe' fuel (f seen) s h =
      (runWith table observe fuel seen s h).map fun run => (f run.1, run.2) := by
  induction fuel generalizing seen s h with
  | zero =>
      rcases s.halted_or_running with ⟨v, hv⟩ | running
      · rw [runWith_halted hv, runWith_halted hv, Option.map_some]
      · rw [runWith_no_fuel running, runWith_no_fuel running, Option.map_none]
  | succ fuel ih =>
      rcases s.halted_or_running with ⟨v, hv⟩ | running
      · rw [runWith_halted hv, runWith_halted hv, Option.map_some]
      · rw [runWith_running running, runWith_running running, ← less]
        cases step table s h with
        | ok s' h' => exact ih
        | error e h' => rfl

/-- More fuel does not change a run that has ended. -/
theorem runWith_mono {more : Nat} {run : σ × Ending} (le : fuel ≤ more)
    (ended : runWith table observe fuel seen s h = some run) :
    runWith table observe more seen s h = some run := by
  induction fuel generalizing seen s h more with
  | zero =>
      rcases s.halted_or_running with ⟨v, hv⟩ | running
      · rwa [runWith_halted hv] at ended ⊢
      · rw [runWith_no_fuel running] at ended
        cases ended
  | succ fuel ih =>
      rcases s.halted_or_running with ⟨v, hv⟩ | running
      · rwa [runWith_halted hv] at ended ⊢
      · obtain ⟨more, rfl⟩ := Nat.exists_eq_add_of_le' (Nat.le_of_add_left_le le)
        rw [runWith_running running] at ended ⊢
        cases hs : step table s h with
        | ok s₁ h₁ =>
            rw [hs] at ended
            exact ih (Nat.le_of_succ_le_succ le) ended
        | error e h₁ =>
            rw [hs] at ended
            exact ended

theorem Ends.runWith (ending : Ends table n s h a) (enough : n ≤ fuel) (seen : σ) :
    ∃ seen', Machine.runWith table observe fuel seen s h = some (seen', a) := by
  induction ending generalizing fuel seen with
  | halted h hv => exact ⟨seen, runWith_halted hv⟩
  | failed running hs =>
      obtain ⟨fuel, rfl⟩ := Nat.exists_eq_add_of_le' enough
      rw [runWith_running running, hs]
      exact ⟨_, rfl⟩
  | step running hs _ ih =>
      obtain ⟨fuel, rfl⟩ := Nat.exists_eq_add_of_le' (Nat.le_of_add_left_le enough)
      rw [runWith_running running, hs]
      exact ih (by omega) _

end Loop

/-- The loop answers when the fuel covers the steps of the ending. -/
theorem evaluate_eq_some_iff {fuel : Nat} {e : Expr} :
    (∃ stats, evaluate table fuel e h = some (stats, a)) ↔
      ∃ n ≤ fuel, Ends table n (.initial e h.newRoot.1) h.newRoot.2 a := by
  constructor
  · rintro ⟨stats, run⟩
    exact ends_of_runWith run
  · rintro ⟨n, enough, ending⟩
    exact ending.runWith enough _

end Machine

end CoreLisp
