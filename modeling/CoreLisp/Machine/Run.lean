import CoreLisp.Machine.Step

/-!
# Runs of the machine

A run steps until the machine has halted or a step fails. Since a program need
not end, a run is given the number of steps it may take, and gives no answer if
they do not suffice; with more steps a finished run stays the same.

An observer is shown every state that is about to make a step. The statistics
of a run are such an observer: they count the steps and remember the greatest
depth of the stack. No step that pushes a frame fails or halts, so every depth
that occurs is seen.
-/
namespace CoreLisp

/-- The counters of a run. -/
structure Stats where
  steps : Nat := 0
  peakDepth : Nat := 0
deriving DecidableEq, Repr

/-- Counts one step from a stack of the given depth. -/
def Stats.count (depth : Nat) (s : Stats) : Stats := ⟨s.steps + 1, max s.peakDepth depth⟩

namespace Machine

/-- How a run ended, with the heap it left behind. -/
abbrev Ending := EStateM.Result EvalError Heap Value

/-- Runs for at most `fuel` steps, folding `observe` over the states stepped from. -/
@[specialize] def runWith (table : Table) (observe : State → Heap → σ → σ) (fuel : Nat)
    (seen : σ) (s : State) (h : Heap) : Option (σ × Ending) :=
  match s.control with
  | .halted v => some (seen, .ok v h)
  | _ =>
    match fuel with
    | 0 => none
    | fuel + 1 =>
      let seen := observe s h seen
      match step table s h with
      | .ok s' h' => runWith table observe fuel seen s' h'
      | .error e h' => some (seen, .error e h')

/-- Runs a program from the empty environment, observing it. -/
@[specialize] def evaluateWith (table : Table) (observe : State → Heap → σ → σ) (fuel : Nat)
    (seen : σ) (e : Expr) (h : Heap) : Option (σ × Ending) :=
  let (root, h) := h.newRoot
  runWith table observe fuel seen (.initial e root) h

/-- Runs a program from the empty environment and counts. -/
def evaluate (table : Table) (fuel : Nat) (e : Expr) (h : Heap) : Option (Stats × Ending) :=
  evaluateWith table (fun s _ => Stats.count s.stack.depth) fuel {} e h

end Machine

end CoreLisp
