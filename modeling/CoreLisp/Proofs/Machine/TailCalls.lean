import CoreLisp.Proofs.Machine.Move
import CoreLisp.Session

/-!
# The depth of the stack

If all calls of a program are in tail position then a call finds nothing on the
stack but the end of the program: the frames around it have gone when it is
made. So every procedure body starts on the same stack, and what can wait above
it is known from its height. However many calls a run makes and whether or not
it ends, the stack does not become deeper than the program text says.
-/
namespace CoreLisp

variable {bound depth : Nat} {m : Mark} {e part : Expr}

/-- On a stack of so many frames the expression keeps to the bound, and it has calls
in tail position only if there is nothing but the end of the program. -/
structure Expr.Fits (bound depth : Nat) (e : Expr) : Prop where
  pos : 1 ≤ depth
  calls : e.TailCalls (depth == 1)
  height : depth + e.height ≤ bound

/-- The body of a procedure fits on the end of the program. -/
def Expr.Enterable (bound : Nat) : Expr → Prop
  | .lambda _ body => body.Fits bound 1
  | _ => True

/-- Each frame waits in an expression that fits on the frames below it. -/
def Stack.Fits (bound : Nat) : List Kont → Prop
  | [] => True
  | k :: below =>
      (k.isHalt = false → ∃ e, k.WaitsIn e ∧ e.Fits bound below.length) ∧ Fits bound below

structure State.Fits (bound : Nat) (s : State) : Prop where
  depth : s.stack.depth ≤ bound
  control : ∀ e, s.control = .evaluating e → e.Fits bound s.stack.depth
  stack : Stack.Fits bound s.stack.frames

namespace Expr.Fits

theorem depth_le (fits : e.Fits bound depth) : depth ≤ bound :=
  Nat.le_trans (Nat.le_add_right depth e.height) fits.height

theorem tail (fits : e.Fits bound depth) (mem : part ∈ e.tailParts) : part.Fits bound depth := by
  have hheight := height_tail mem
  have room := fits.height
  cases fits.calls with
  | node _ _ tails _ => exact ⟨fits.pos, tails part mem, by omega⟩

/-- A frame more waits for an inner part, so the calls in it may not be in tail
position. -/
theorem inner (fits : e.Fits bound depth) (mem : part ∈ e.innerParts) :
    part.Fits bound (depth + 1) := by
  have hheight := height_inner mem
  have room := fits.height
  have above : (depth + 1 == 1) = false := by
    have := fits.pos
    simp only [beq_eq_false_iff_ne]
    omega
  cases fits.calls with
  | node _ inners _ _ => exact ⟨by omega, above ▸ inners part mem, by omega⟩

/-- A call is made on the end of the program. -/
theorem depth_eq_one {rator : Expr} {rands : List Expr}
    (fits : (Expr.app rator rands).Fits bound depth) : depth = 1 := by
  cases fits.calls with
  | node call _ _ _ => exact eq_of_beq (call rator rands rfl)

end Expr.Fits

/-- The calls of a program are in tail position in every procedure body in it, and
these are no higher than the program says. -/
theorem Expr.TailCalls.enterable {tail : Bool} (calls : e.TailCalls tail)
    (low : ∀ body ∈ e.bodies, body.height ≤ bound) : e.Everywhere (Enterable (1 + bound)) := by
  induction calls with
  | @node tail e _ _ _ procedure inner tails procedures =>
      have parts : ∀ part ∈ e.parts, part.Everywhere (Enterable (1 + bound)) := by
        intro part mem
        have low' : ∀ body ∈ part.bodies, body.height ≤ bound :=
          fun body hbody => low body (bodies_part mem hbody)
        rcases mem_parts_iff.mp mem with hinner | htail | ⟨params, rfl⟩
        · exact inner part hinner low'
        · exact tails part htail low'
        · exact procedures params part rfl low'
      refine .node ?_ parts
      cases e with
      | lambda params body =>
          have hheight := low body List.mem_cons_self
          exact ⟨Nat.le_refl 1, procedure params body rfl, by omega⟩
      | _ => trivial

namespace Machine

variable {s s' : State} {h h' : Heap}

theorem Move.fits (move : Move h h' s s') (own : s.Own (Expr.Enterable bound) m)
    (fits : s.Fits bound) : s'.Fits bound := by
  obtain ⟨hdepth, hcontrol, hstack⟩ := fits
  cases move with
  | give => exact ⟨hdepth, nofun, hstack⟩
  | @enter e part k env stack waits mem _ =>
      have hpart := (hcontrol e rfl).inner mem
      have hbelow : Stack.Fits bound (k :: stack.frames) :=
        ⟨fun _ => ⟨e, waits, stack.depth_eq ▸ hcontrol e rfl⟩, hstack⟩
      refine ⟨hpart.depth_le, ?_, hbelow⟩
      intro e' he'
      cases he'
      exact hpart
  | @replace e part env stack mem _ =>
      refine ⟨hdepth, ?_, hstack⟩
      intro e' he'
      cases he'
      exact (hcontrol e rfl).tail mem
  | @next part k k' v env stack inner parts _ =>
      obtain ⟨origin, hbelow⟩ := hstack
      obtain ⟨e, waits, hfits⟩ := origin inner
      obtain ⟨waits', mem⟩ := parts e waits
      have hpart := hfits.inner mem
      rw [← stack.depth_eq] at hpart
      refine ⟨hpart.depth_le, ?_, fun _ => ⟨e, waits', hfits⟩, hbelow⟩
      intro e' he'
      cases he'
      exact hpart
  | @last part k v env inner stack notHalt parts _ =>
      obtain ⟨origin, hbelow⟩ := hstack
      obtain ⟨e, waits, hfits⟩ := origin notHalt
      have hpart := hfits.tail (parts e waits)
      rw [← stack.depth_eq] at hpart
      refine ⟨hpart.depth_le, ?_, hbelow⟩
      intro e' he'
      cases he'
      exact hpart
  | @pass k v w env stack _ => exact ⟨Nat.le_of_succ_le hdepth, nofun, hstack.2⟩
  | @call f k v env inner stack notHalt calls mem _ =>
      obtain ⟨origin, hbelow⟩ := hstack
      obtain ⟨e, waits, hfits⟩ := origin notHalt
      obtain ⟨rator, rands, rfl⟩ := calls e waits
      -- the procedure is the value at hand or one that the frame has gathered
      have hown : (Value.procedure f).Own (Expr.Enterable bound) m := by
        rcases List.mem_cons.mp mem with rfl | mem
        · exact own.control
        · exact own.below.1.values _ mem
      have hbody : f.body.Fits bound stack.depth := by
        rw [stack.depth_eq, hfits.depth_eq_one]
        exact hown.2.self
      refine ⟨hbody.depth_le, ?_, hbelow⟩
      intro e' he'
      cases he'
      exact hbody
  | halt => exact ⟨Nat.le_of_succ_le hdepth, nofun, hstack.2⟩
  | halted => exact ⟨hdepth, nofun, hstack⟩

theorem Reachable.fits {table : Table} (keeps : table.Keeps (Expr.Enterable bound) h.mark)
    (enterable : e.Everywhere (Expr.Enterable bound)) (start : e.Fits bound 1)
    (reached : Reachable table e h s h') : s.Fits bound := by
  refine reached.induction (P := fun s _ => s.Fits bound) ?_ ?_
  · refine ⟨start.depth_le, ?_, nofun, trivial⟩
    intro e' he'
    cases he'
    exact start
  · intro s s' h₁ h₂ reached hs fits
    exact (step_eq_ok_iff.mp hs).move.fits (reached.own keeps enterable).1 fits

/-- A program whose calls are in tail position fits on the end of the program, and so
do the bodies of its procedures. -/
theorem Reachable.depth_le (calls : e.TailCalls true) (reached : Reachable .standard e h s h') :
    s.stack.depth ≤ 1 + e.stackHeight := by
  have enterable : e.Everywhere (Expr.Enterable (1 + e.stackHeight)) :=
    calls.enterable fun body mem => Expr.height_body_le_stackHeight mem
  have start : e.Fits (1 + e.stackHeight) 1 :=
    ⟨Nat.le_refl 1, calls, Nat.add_le_add_left e.height_le_stackHeight 1⟩
  exact (reached.fits (Table.standard_keeps _ _) enterable start).depth

/-- If all calls of a program are in tail position then the stack is at all times as
deep as the text of the program says or less, and so is the peak that the
statistics report, whatever the heap and however long the run. -/
theorem tail_calls_bound_stack (e : Expr) (calls : e.TailCalls true) (h : Heap) :
    (∀ s h', Reachable .standard e h s h' → s.stack.depth ≤ 1 + e.stackHeight) ∧
    ∀ lastRun fuel answer, Session.evaluate ⟨.standard, lastRun⟩ fuel e h = some answer →
      answer.session.lastRun.peakDepth ≤ 1 + e.stackHeight := by
  refine ⟨fun s h' reached => reached.depth_le calls, ?_⟩
  intro lastRun fuel answer run
  obtain ⟨⟨stats, ending⟩, run, hanswer⟩ := Option.bind_eq_some_iff.mp run
  have peak : stats.peakDepth ≤ 1 + e.stackHeight := by
    refine runWith_seen (P := fun stats => stats.peakDepth ≤ 1 + e.stackHeight) ?_ run ?_
    · intro n s₁ h₁ seen steps low
      exact Nat.max_le.mpr ⟨low, Reachable.depth_le calls ⟨n, steps⟩⟩
    · exact Nat.zero_le _
  cases ending <;> cases hanswer <;> exact peak

/-- A procedure that counts up for ever. -/
def counting : Expr :=
  .letRec ["count"] [.lambda ["n"] (.app (.ref "count") [.primApp "add1" [.ref "n"]])]
    (.app (.ref "count") [.datum (.integer 0)])

/-- The counting loop never has more than three frames on the stack. -/
theorem tail_calls_bound_stack_counting : counting.TailCalls true ∧ counting.stackHeight = 2 ∧
    ∀ s h', Reachable .standard counting {} s h' → s.stack.depth ≤ 3 := by
  have count : (Expr.ref "count").TailCalls false := .node nofun nofun nofun nofun
  have zero : (Expr.datum (.integer 0)).TailCalls false := .node nofun nofun nofun nofun
  have n : (Expr.ref "n").TailCalls false := .node nofun nofun nofun nofun
  have next : (Expr.primApp "add1" [.ref "n"]).TailCalls false :=
    .node nofun (List.forall_mem_singleton.mpr n) nofun nofun
  have again : (Expr.app (.ref "count") [.primApp "add1" [.ref "n"]]).TailCalls true :=
    .node (fun _ _ _ => rfl)
      (List.forall_mem_cons.mpr ⟨count, List.forall_mem_singleton.mpr next⟩) nofun nofun
  have start : (Expr.app (.ref "count") [.datum (.integer 0)]).TailCalls true :=
    .node (fun _ _ _ => rfl)
      (List.forall_mem_cons.mpr ⟨count, List.forall_mem_singleton.mpr zero⟩) nofun nofun
  have procedure :
      (Expr.lambda ["n"] (.app (.ref "count") [.primApp "add1" [.ref "n"]])).TailCalls false := by
    refine .node nofun nofun nofun ?_
    intro params body h
    cases h
    exact again
  have calls : counting.TailCalls true :=
    .node nofun (List.forall_mem_singleton.mpr procedure) (List.forall_mem_singleton.mpr start) nofun
  exact ⟨calls, rfl, (tail_calls_bound_stack counting calls {}).1⟩

end Machine

end CoreLisp
