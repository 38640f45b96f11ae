import CoreLisp.Proofs.Machine.Move
import CoreLisp.Proofs.Machine.Visits
import CoreLisp.Session

/-!
# Programs without calls

Only a call leads back to a part of the text that has been evaluated before. In a
program without calls every part is visited once at most and gives one value at most,
so two steps for each part are enough, whatever the table and the heap are. The work
that is left in a state counts them: two for each part that has not been visited, one
for a value on its way to a frame. Every step makes it less.

The lists of a construct may be as they like. A tree that is malformed fails sooner.
-/
namespace CoreLisp

variable {table : Table} {e part : Expr} {es : List Expr} {i n : Nat}

namespace Expr

def NotCall : Expr → Prop
  | app .. => False
  | _ => True

/-- There is no call in the expression, in the bodies of its procedures either. -/
abbrev CallFree (e : Expr) : Prop := e.Everywhere NotCall

mutual

/-- How many nodes an expression has, with those in the bodies of its procedures. -/
def size : Expr → Nat
  | datum _ | ref _ => 1
  | lambda _ body => 1 + size body
  | assign _ rhs => 1 + size rhs
  | cond test conseq alt => 1 + size test + (size conseq + size alt)
  | letIn _ inits body | letRec _ inits body => 1 + sizeAll inits + size body
  | seq es | primApp _ es => 1 + sizeAll es
  | app rator rands => 1 + size rator + sizeAll rands

def sizeAll : List Expr → Nat
  | [] => 0
  | e :: es => size e + sizeAll es

end

theorem one_le_size (e : Expr) : 1 ≤ e.size := by
  cases e <;> rw [size] <;> omega

/-- The nodes of the parts that are left, when one of them is taken. -/
theorem sizeAll_drop (he : es[i]? = some e) :
    sizeAll (es.drop i) = e.size + sizeAll (es.drop (i + 1)) := by
  obtain ⟨hi, rfl⟩ := List.getElem?_eq_some_iff.mp he
  rw [List.drop_eq_getElem_cons hi, sizeAll]

end Expr

open CoreLisp.Expr (sizeAll)

/-- Two for each node that the frame still has to visit, and one more where a value can
go on to the next frame. -/
def Kont.work : Kont → Nat
  | .halt _ | .operator .. | .operand .. => 0
  | .cond _ conseq alt => 2 * (conseq.size + alt.size)
  | .assign .. => 1
  | .letIn _ _ inits body values | .letRec _ _ inits body values =>
      2 * sizeAll (inits.drop (values.length + 1)) + 2 * body.size
  | .seq _ body index => 1 + 2 * sizeAll (body.drop index)
  | .primApp _ _ rands values => 1 + 2 * sizeAll (rands.drop (values.length + 1))

def Kont.workAll : List Kont → Nat
  | [] => 0
  | k :: below => k.work + workAll below

def Control.work : Control → Nat
  | .evaluating e => 2 * e.size
  | .returning _ => 1
  | .halted _ => 0

def State.work (s : State) : Nat := s.control.work + Kont.workAll s.stack.frames

/-- No call is evaluated or waits. -/
structure State.CallFree (s : State) : Prop where
  control : ∀ e, s.control = .evaluating e → e.CallFree
  frames : ∀ k ∈ s.stack.frames, k.isHalt = false → ∃ e, k.WaitsIn e ∧ e.CallFree

theorem State.one_le_work {s : State} (running : s.Running) : 1 ≤ s.work := by
  obtain ⟨control, env, stack⟩ := s
  cases control with
  | evaluating e =>
      have := e.one_le_size
      simp only [State.work, Control.work]
      omega
  | returning => exact Nat.le_add_right 1 _
  | halted v => exact absurd rfl (running v)

namespace Machine

variable {s s' : State} {h h' : Heap}

theorem Move.callFree (move : Move h h' s s') (free : s.CallFree) : s'.CallFree := by
  obtain ⟨hcontrol, hframes⟩ := free
  cases move with
  | give => exact ⟨nofun, hframes⟩
  | @enter e part k env stack waits mem _ =>
      have he := hcontrol e rfl
      refine ⟨?_, List.forall_mem_cons.mpr ⟨fun _ => ⟨e, waits, he⟩, hframes⟩⟩
      rintro _ ⟨⟩
      exact he.part (Expr.mem_parts_iff.mpr (.inl mem))
  | @replace e part env stack mem _ =>
      refine ⟨?_, hframes⟩
      rintro _ ⟨⟩
      exact (hcontrol e rfl).part (Expr.mem_parts_iff.mpr (.inr (.inl mem)))
  | next inner parts _ =>
      obtain ⟨here, below⟩ := List.forall_mem_cons.mp hframes
      obtain ⟨e, waits, he⟩ := here inner
      obtain ⟨waits', mem⟩ := parts e waits
      refine ⟨?_, List.forall_mem_cons.mpr ⟨fun _ => ⟨e, waits', he⟩, below⟩⟩
      rintro _ ⟨⟩
      exact he.part (Expr.mem_parts_iff.mpr (.inl mem))
  | last inner parts _ =>
      obtain ⟨here, below⟩ := List.forall_mem_cons.mp hframes
      obtain ⟨e, waits, he⟩ := here inner
      refine ⟨?_, below⟩
      rintro _ ⟨⟩
      exact he.part (Expr.mem_parts_iff.mpr (.inr (.inl (parts e waits))))
  | pass => exact ⟨nofun, (List.forall_mem_cons.mp hframes).2⟩
  | call inner calls _ _ =>
      obtain ⟨e, waits, he⟩ := (List.forall_mem_cons.mp hframes).1 inner
      obtain ⟨rator, rands, rfl⟩ := calls e waits
      exact he.self.elim
  | halt => exact ⟨nofun, (List.forall_mem_cons.mp hframes).2⟩
  | halted => exact ⟨nofun, hframes⟩

/-- A step leaves less work than it found. -/
theorem Transition.work_lt (t : Transition table s h s' h') (free : s.CallFree)
    (running : s.Running) : s'.work < s.work := by
  cases t with
  | halted => exact absurd rfl (running _)
  | app => exact (free.control _ rfl).self.elim
  | callNone | operandFirst | operandNext | call =>
      obtain ⟨e, waits, he⟩ := (List.forall_mem_cons.mp free.frames).1 rfl
      cases waits
      exact he.self.elim
  | datum | ref | lambda =>
      simp only [State.work, Control.work, Expr.size]
      omega
  | cond | assign =>
      simp only [State.work, Control.work, Kont.work, Kont.workAll, Stack.frames_push,
        Expr.size]
      omega
  | seqOne | letNone | primNone =>
      simp only [State.work, Control.work, Expr.size, sizeAll]
      omega
  | seqFirst | letFirst | letRecFirst | primFirst =>
      simp only [State.work, Control.work, Kont.work, Kont.workAll, Stack.frames_push,
        Expr.size, sizeAll, List.length_nil, List.drop_succ_cons, List.drop_zero]
      omega
  | halt | assigned | seqPast | letDone | letRecDone | primDone =>
      simp only [State.work, Control.work, Kont.work, Kont.workAll, Stack.frames_push]
      omega
  | @chosen v _ outer conseq alt =>
      have branch : (if v.isTruthy then conseq else alt).size ≤ conseq.size + alt.size := by
        split <;> omega
      simp only [State.work, Control.work, Kont.work, Kont.workAll, Stack.frames_push]
      omega
  | seqNext hnext | seqLast hnext =>
      have parts := Expr.sizeAll_drop hnext
      simp only [State.work, Control.work, Kont.work, Kont.workAll, Stack.frames_push]
      omega
  | letNext hnext | letRecNext hnext | primNext hnext =>
      have parts := Expr.sizeAll_drop hnext
      simp only [State.work, Control.work, Kont.work, Kont.workAll, Stack.frames_push,
        List.length_append, List.length_singleton]
      omega

/-- A run of a state without calls ends, and its steps are paid for by the work. -/
theorem ends_of_work_le (h : Heap) (free : s.CallFree) (le : s.work ≤ n) :
    ∃ m ≤ n, ∃ a, Ends table m s h a := by
  induction n generalizing s h with
  | zero =>
      rcases s.halted_or_running with ⟨v, hv⟩ | running
      · exact ⟨0, Nat.le_refl 0, _, .halted h hv⟩
      · exact absurd (Nat.le_trans (State.one_le_work running) le) (Nat.not_succ_le_zero 0)
  | succ n ih =>
      rcases s.halted_or_running with ⟨v, hv⟩ | running
      · exact ⟨0, Nat.zero_le _, _, .halted h hv⟩
      · cases hs : step table s h with
        | error e h' => exact ⟨1, Nat.le_add_left 1 n, _, .failed running hs⟩
        | ok s' h' =>
            have t := step_eq_ok_iff.mp hs
            have less := t.work_lt free running
            obtain ⟨m, hm, a, ending⟩ := ih h' (t.move.callFree free) (by omega)
            exact ⟨m + 1, Nat.succ_le_succ hm, a, .step running hs ending⟩

/-- Whatever the table and the heap are, a program without calls ends with a value or an
error after two steps for each of its nodes at most. With fuel for these steps, or
more, a session gives one and the same answer. -/
theorem call_free_ends (table : Table) (lastRun : Stats) (e : Expr) (free : e.CallFree)
    (h : Heap) :
    ∃ answer : Answer EvalError, answer.session.lastRun.steps ≤ 2 * e.size ∧
      ∀ fuel, 2 * e.size ≤ fuel →
        Session.evaluate ⟨table, lastRun⟩ fuel e h = some answer := by
  have start : (State.initial e h.newRoot.1).CallFree := by
    refine ⟨?_, List.forall_mem_singleton.mpr nofun⟩
    rintro _ ⟨⟩
    exact free
  obtain ⟨m, hm, a, ending⟩ : ∃ m ≤ _, ∃ a, Ends table m (.initial e h.newRoot.1) h.newRoot.2 a :=
    ends_of_work_le h.newRoot.2 start (Nat.le_refl _)
  obtain ⟨visited, visits, rfl⟩ := ending.visits
  have hm : visited.length ≤ 2 * e.size := hm
  refine ⟨Session.answer ⟨table, lastRun⟩ ⟨visited.length, peak visited⟩ a, ?_, ?_⟩
  · cases a <;> exact hm
  · intro fuel enough
    have run := evaluate_eq_some_iff_visits.mpr ⟨visited, visits, Nat.le_trans hm enough, rfl⟩
    exact Option.bind_eq_some_iff.mpr ⟨_, run, rfl⟩

/-- A procedure and a number for one name. -/
def overfull : Expr :=
  .letRec ["f"] [.lambda ["x"] (.primApp "add1" [.ref "x"]), .datum (.integer 1)] (.ref "f")

/-- A tree that is malformed has no calls either. -/
theorem call_free_ends_overfull : overfull.CallFree ∧ overfull.size = 6 ∧
    ∃ answer : Answer EvalError, answer.session.lastRun.steps ≤ 12 ∧
      ∀ fuel, 12 ≤ fuel → Session.evaluate {} fuel overfull {} = some answer := by
  have x : Expr.CallFree (.ref "x") := .node trivial (List.forall_mem_nil _)
  have sum : Expr.CallFree (.primApp "add1" [.ref "x"]) :=
    .node trivial (List.forall_mem_singleton.mpr x)
  have procedure : Expr.CallFree (.lambda ["x"] (.primApp "add1" [.ref "x"])) :=
    .node trivial (List.forall_mem_singleton.mpr sum)
  have number : Expr.CallFree (.datum (.integer 1)) := .node trivial (List.forall_mem_nil _)
  have f : Expr.CallFree (.ref "f") := .node trivial (List.forall_mem_nil _)
  have free : overfull.CallFree :=
    .node trivial (by simp [overfull, Expr.parts, procedure, number, f])
  exact ⟨free, rfl, call_free_ends .standard {} overfull free {}⟩

end Machine

end CoreLisp
