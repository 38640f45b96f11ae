import Mathlib.Data.List.Chain
import CoreLisp.Proofs.Machine.Steps

/-!
# The states of a run

A run is told here by the states from which it makes its steps, each with its heap
and in order; the state in which it has halted is not among them. `Passes` leads
from one state of a run to a later one, and `Visits` to the end.

An observer is shown these states and no others, so what it gathers is a fold over
them. For the statistics this is their number and the greatest depth among them.
-/
namespace CoreLisp.Machine

/-- The run from `s` comes to `s'` by steps from the states in the list. -/
inductive Passes (table : Table) : List (State × Heap) → State → Heap → State → Heap → Prop
  | done (s : State) (h : Heap) : Passes table [] s h s h
  | step {passed : List (State × Heap)} {s s₁ s' : State} {h h₁ h' : Heap} : s.Running →
      step table s h = .ok s₁ h₁ → Passes table passed s₁ h₁ s' h' →
      Passes table ((s, h) :: passed) s h s' h'

/-- The run from `s` ends after steps from the states in the list, of which the last
one may fail. -/
inductive Visits (table : Table) : List (State × Heap) → State → Heap → Ending → Prop
  | halted {s : State} {v : Value} (h : Heap) : s.control = .halted v →
      Visits table [] s h (.ok v h)
  | failed {s : State} {h h' : Heap} {e : EvalError} : s.Running →
      step table s h = .error e h' → Visits table [(s, h)] s h (.error e h')
  | step {visited : List (State × Heap)} {s s₁ : State} {h h₁ : Heap} {a : Ending} : s.Running →
      step table s h = .ok s₁ h₁ → Visits table visited s₁ h₁ a →
      Visits table ((s, h) :: visited) s h a

/-- The depths of the stack in these states. -/
def depths (visited : List (State × Heap)) : List Nat := visited.map (·.1.stack.depth)

/-- The greatest of these depths. -/
def peak (visited : List (State × Heap)) : Nat := (depths visited).foldr max 0

@[simp] theorem depths_nil : depths [] = [] := rfl

@[simp] theorem depths_cons (s : State) (h : Heap) (visited : List (State × Heap)) :
    depths ((s, h) :: visited) = s.stack.depth :: depths visited := rfl

@[simp] theorem peak_nil : peak [] = 0 := rfl

@[simp] theorem peak_cons (s : State) (h : Heap) (visited : List (State × Heap)) :
    peak ((s, h) :: visited) = max s.stack.depth (peak visited) := rfl

variable {table : Table} {n fuel : Nat} {s s' : State} {h h' : Heap} {a b : Ending}
variable {passed visited : List (State × Heap)}

theorem Passes.steps (passes : Passes table passed s h s' h') :
    Steps table passed.length s h s' h' := by
  induction passes with
  | done => exact .done _ _
  | step running hs _ ih => exact .step running hs ih

/-- The states on the way and then those up to the end. -/
theorem Passes.visits {s₁ : State} {h₁ : Heap} (passes : Passes table passed s h s₁ h₁)
    (rest : Visits table visited s₁ h₁ a) : Visits table (passed ++ visited) s h a := by
  induction passes with
  | done => exact rest
  | step running hs _ ih => exact .step running hs (ih rest)

theorem peak_append (passed visited : List (State × Heap)) :
    peak (passed ++ visited) = max (peak passed) (peak visited) := by
  induction passed with
  | nil => exact (Nat.zero_max _).symm
  | cons p passed ih => rw [List.cons_append, peak_cons, peak_cons, ih, Nat.max_assoc]

theorem Visits.ends (visits : Visits table visited s h a) : Ends table visited.length s h a := by
  induction visits with
  | halted h hv => exact .halted h hv
  | failed running hs => exact .failed running hs
  | step running hs _ ih => exact .step running hs ih

theorem Ends.visits (ending : Ends table n s h a) :
    ∃ visited, Visits table visited s h a ∧ visited.length = n := by
  induction ending with
  | halted h hv => exact ⟨[], .halted h hv, rfl⟩
  | failed running hs => exact ⟨_, .failed running hs, rfl⟩
  | step running hs _ ih =>
      obtain ⟨visited, visits, hlen⟩ := ih
      exact ⟨_, .step running hs visits, by rw [List.length_cons, hlen]⟩

/-- A run goes through one row of states. -/
theorem Visits.unique {other : List (State × Heap)} (first : Visits table visited s h a)
    (second : Visits table other s h b) : visited = other ∧ a = b := by
  refine ⟨?_, (first.ends.unique second.ends).2⟩
  induction first generalizing other with
  | halted h hv =>
      cases second with
      | halted => rfl
      | failed running | step running => exact absurd hv (running _)
  | failed running hs =>
      cases second with
      | halted _ hw => exact absurd hw (running _)
      | failed => rfl
      | step _ hs' =>
          rw [hs] at hs'
          cases hs'
  | step running hs _ ih =>
      cases second with
      | halted _ hw => exact absurd hw (running _)
      | failed _ hs' =>
          rw [hs] at hs'
          cases hs'
      | step _ hs' rest =>
          rw [hs] at hs'
          cases hs'
          rw [ih rest]

theorem le_peak {d : Nat} (mem : d ∈ depths visited) : d ≤ peak visited := by
  induction visited with
  | nil => cases mem
  | cons p visited ih =>
      rw [peak_cons]
      rcases List.mem_cons.mp mem with rfl | mem
      · exact Nat.le_max_left _ _
      · exact Nat.le_trans (ih mem) (Nat.le_max_right _ _)

theorem peak_mem_depths (hne : visited ≠ []) : peak visited ∈ depths visited := by
  induction visited with
  | nil => exact absurd rfl hne
  | cons p visited ih =>
      rw [depths_cons, peak_cons]
      cases visited with
      | nil => simp
      | cons q visited =>
          rcases Nat.le_total (peak (q :: visited)) p.1.stack.depth with le | le
          · rw [Nat.max_eq_left le]
            exact List.mem_cons_self
          · rw [Nat.max_eq_right le]
            exact List.mem_cons_of_mem _ (ih (List.cons_ne_nil _ _))

theorem Visits.head (visits : Visits table visited s h a) : ∀ p ∈ visited.head?, p = (s, h) := by
  cases visits with
  | halted => exact nofun
  | failed | step => simp

/-- Each of these states comes from the one before it by a step. -/
theorem Visits.chain (visits : Visits table visited s h a) :
    visited.IsChain fun p q => Machine.step table p.1 p.2 = .ok q.1 q.2 := by
  induction visits with
  | halted => exact .nil
  | failed => exact .singleton _
  | step _ hs visits ih =>
      refine ih.cons fun q mem => ?_
      rw [visits.head q mem]
      exact hs

/-- All these states are in the midst of the run and have what the first one has and
every step keeps. -/
theorem Visits.all {P : State → Prop} (visits : Visits table visited s h a) (start : P s)
    (keep : ∀ {s s' : State} {h h' : Heap}, Machine.step table s h = .ok s' h' → P s → P s') :
    ∀ p ∈ visited, p.1.Running ∧ P p.1 := by
  induction visits with
  | halted => exact List.forall_mem_nil _
  | failed running _ => exact List.forall_mem_singleton.mpr ⟨running, start⟩
  | step running hs _ ih => exact List.forall_mem_cons.mpr ⟨⟨running, start⟩, ih (keep hs start)⟩

/-- The first state of a run that has not halted is one that it makes a step from. -/
theorem Visits.depth_le_peak (visits : Visits table visited s h a) (running : s.Running) :
    s.stack.depth ≤ peak visited := by
  cases visits with
  | halted _ hv => exact absurd hv (running _)
  | failed | step => exact Nat.le_max_left _ _

/-- A run goes on or has ended. -/
theorem steps_or_ends (table : Table) (n : Nat) (s : State) (h : Heap) :
    (∃ s' h', Steps table n s h s' h') ∨ ∃ m a, Ends table m s h a := by
  induction n generalizing s h with
  | zero => exact .inl ⟨s, h, .done s h⟩
  | succ n ih =>
      rcases s.halted_or_running with ⟨v, hv⟩ | running
      · exact .inr ⟨0, _, .halted h hv⟩
      · cases hs : step table s h with
        | error e h' => exact .inr ⟨1, _, .failed running hs⟩
        | ok s₁ h₁ =>
            rcases ih s₁ h₁ with ⟨s', h', run⟩ | ⟨m, a, ending⟩
            · exact .inl ⟨s', h', .step running hs run⟩
            · exact .inr ⟨m + 1, a, .step running hs ending⟩

section Loop
variable {σ : Type} {observe : State → Heap → σ → σ} {seen seen' : σ}

/-- What an observer gathers from these states. -/
def gather (observe : State → Heap → σ → σ) (seen : σ) (visited : List (State × Heap)) : σ :=
  visited.foldl (fun seen p => observe p.1 p.2 seen) seen

theorem Visits.runWith (visits : Visits table visited s h a) (enough : visited.length ≤ fuel)
    (seen : σ) : Machine.runWith table observe fuel seen s h =
      some (gather observe seen visited, a) := by
  induction visits generalizing fuel seen with
  | halted h hv => exact runWith_halted hv
  | failed running hs =>
      obtain ⟨fuel, rfl⟩ := Nat.exists_eq_add_of_le' enough
      rw [List.length_singleton, runWith_running running, hs]
      rfl
  | step running hs _ ih =>
      obtain ⟨fuel, rfl⟩ := Nat.exists_eq_add_of_le' (Nat.le_of_add_left_le enough)
      rw [runWith_running running, hs]
      exact ih (by simpa using enough) _

/-- The loop answers with what the observer gathers from the states of the run. -/
theorem runWith_eq_some_iff : runWith table observe fuel seen s h = some (seen', a) ↔
    ∃ visited, Visits table visited s h a ∧ visited.length ≤ fuel ∧
      gather observe seen visited = seen' := by
  constructor
  · intro run
    obtain ⟨n, enough, ending⟩ := ends_of_runWith run
    obtain ⟨visited, visits, rfl⟩ := ending.visits
    have same : Machine.runWith table observe fuel seen s h = some (_, a) :=
      visits.runWith enough seen
    rw [run] at same
    cases same
    exact ⟨visited, visits, enough, rfl⟩
  · rintro ⟨visited, visits, enough, rfl⟩
    exact visits.runWith enough seen

end Loop

theorem gather_count (seen : Stats) :
    gather (fun s _ => Stats.count s.stack.depth) seen visited =
      ⟨seen.steps + visited.length, max seen.peakDepth (peak visited)⟩ := by
  induction visited generalizing seen with
  | nil => simp [gather]
  | cons p visited ih =>
      obtain ⟨s, h⟩ := p
      have rest := ih (seen.count s.stack.depth)
      simp only [gather, List.foldl_cons] at rest ⊢
      rw [rest, Stats.count, peak_cons, Nat.max_assoc, List.length_cons, Nat.add_assoc,
        Nat.add_comm 1]

/-- The statistics of a program are the number of the states that it goes through and
their greatest depth. -/
theorem evaluate_eq_some_iff_visits {e : Expr} {stats : Stats} :
    evaluate table fuel e h = some (stats, a) ↔
      ∃ visited, Visits table visited (.initial e h.newRoot.1) h.newRoot.2 a ∧
        visited.length ≤ fuel ∧ stats = ⟨visited.length, peak visited⟩ := by
  refine runWith_eq_some_iff.trans (exists_congr fun visited => ?_)
  rw [gather_count, Nat.zero_add, Nat.zero_max, eq_comm]
  rfl

end CoreLisp.Machine
