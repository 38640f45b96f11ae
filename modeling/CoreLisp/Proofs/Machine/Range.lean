import CoreLisp.Proofs.Expr.Render
import CoreLisp.Proofs.Machine.Relocate
import CoreLisp.Proofs.Machine.Scope
import CoreLisp.Proofs.Primitive.Arithmetic

/-!
# Integers stay in range

The integers of a program come from its data and from the primitives that calculate. The
data are in range by assumption, as they are in every program from source text, and the
results by the check that the primitives make. A step does nothing else to an integer
than move it. So all integers of a run are in range, those in expressions that are still
to be evaluated included.
-/
namespace CoreLisp

variable {m : Mark} {e : Expr} {s s' : State} {h h' : Heap} {q : Value → Prop}

/-- If the expression is an integer then it is in range. -/
def Expr.InRange : Expr → Prop
  | .datum (.integer n) => Fixnum.InRange n
  | _ => True

/-- If the value is an integer then it is in range, and if it is a procedure then the
data in its text are. -/
def Value.InRange : Value → Prop
  | .integer n => Fixnum.InRange n
  | .procedure f => (Expr.lambda f.params f.body).Everywhere Expr.InRange
  | _ => True

/-- The integers that the state holds are in range, in values and in what it has still to
evaluate, and so are those in all frames and boxes behind the mark. -/
structure State.InRange (m : Mark) (s : State) (h : Heap) : Prop where
  control : ∀ e, s.control = .evaluating e → e.Everywhere Expr.InRange
  code : ∀ k ∈ s.stack.frames, ∀ e ∈ k.code, e.Everywhere Expr.InRange
  values : ∀ v ∈ s.values, v.InRange
  heap : h.All Value.InRange m

/-- What has been kept has the property as before, and the rest stands behind the end of
the earlier heap. -/
theorem Heap.All.of_kept (all : h.All q m) (kept : h.Kept h') (behind : h'.All q h.mark) :
    h'.All q m := by
  refine ⟨?_, ?_⟩
  · intro i f hi hf
    by_cases old : i < h.frames.size
    · rw [kept.frames i old] at hf
      exact all.frames i f hi hf
    · exact behind.frames i f (Nat.le_of_not_lt old) hf
  · intro i v hi hv
    by_cases old : i < h.boxes.size
    · rw [kept.boxes i old] at hv
      exact all.boxes i v hi hv
    · exact behind.boxes i v (Nat.le_of_not_lt old) hv

/-- The integers that source text can denote are in range. -/
theorem Expr.inRange_of_parse {source : String} (parsed : Expr.parse source = .ok e) :
    e.Everywhere Expr.InRange := by
  refine (within_of_parse parsed).1.imp fun e spelled => ?_
  cases e with
  | datum d =>
      cases d with
      | integer n =>
          cases spelled with
          | integer least greatest =>
              exact ⟨Int.le_trans (by decide) least, greatest⟩
      | _ => trivial
  | _ => trivial

namespace Machine

/-- A program changes nothing that it finds on the heap. -/
theorem Reachable.kept (reached : Reachable .standard e h s h') : h.Kept h' := by
  obtain ⟨_, alone, -, -, rfl⟩ := reached.behind
  exact .behind_site h alone

/-- A step makes integers only from a datum of the program and by a calculation. -/
theorem supplies_inRange (own : s.Own Expr.InRange m) : Supplies Value.InRange s h h' where
  datum d hd := by
    have code := own.control
    rw [hd] at code
    cases d with
    | integer n => exact code.self
    | _ => trivial
  unit := trivial
  placeholder _ _ _ _ := trivial
  primitive b args v hb applied _ := by
    cases applied with
    | unbox => exact absurd rfl hb
    | plus inRange | minus inRange | mult inRange | add1 inRange | sub1 inRange => exact inRange
    | _ => trivial
  box _ _ := trivial
  procedure params body hlambda := by
    have code := own.control
    rw [hlambda] at code
    exact code

theorem Reachable.values_inRange (data : e.Everywhere Expr.InRange)
    (reached : Reachable .standard e h s h') :
    (∀ v ∈ s.values, v.InRange) ∧ h'.All Value.InRange h.mark := by
  refine reached.induction
    (P := fun s h' => (∀ v ∈ s.values, v.InRange) ∧ h'.All Value.InRange h.mark)
    ⟨List.forall_mem_nil _, ?_⟩ ?_
  · exact (Heap.Each.at_mark _ _ h).addFrame (List.forall_mem_nil _)
  · intro s s' h₁ h₂ reached hs here
    obtain ⟨own, hown⟩ := reached.own (Table.standard_keeps _ _) data
    have t := step_eq_ok_iff.mp hs
    exact t.values_of_supplies (supplies_inRange own) own hown here.1 here.2

theorem Reachable.inRange (data : e.Everywhere Expr.InRange) (found : h.All Value.InRange m)
    (reached : Reachable .standard e h s h') : s.InRange m h' := by
  obtain ⟨own, -⟩ := reached.own (Table.standard_keeps _ _) data
  obtain ⟨values, behind⟩ := reached.values_inRange data
  refine ⟨?_, fun k hk => (own.stack k hk).code, values, found.of_kept reached.kept behind⟩
  intro e hcontrol
  have code := own.control
  rw [hcontrol] at code
  exact code

/-- All integers that a run gives are in range, and all that it leaves behind the mark. -/
def Ending.InRange (m : Mark) : Ending → Prop
  | .ok v h => v.InRange ∧ h.All Value.InRange m
  | .error _ h => h.All Value.InRange m

/-- The value that a run gives is one of its last state, and a failing step leaves the
heap of the state that it was made from. -/
theorem Ends.inRange {n : Nat} {ending : Ending} (data : e.Everywhere Expr.InRange)
    (found : h.All Value.InRange m)
    (ends : Ends .standard n (.initial e h.newRoot.1) h.newRoot.2 ending) :
    Ending.InRange m ending := by
  cases ending with
  | ok v h' =>
      obtain ⟨s, steps, hv⟩ := ends.halting_state
      have inRange := Reachable.inRange data found ⟨n, steps⟩
      have held : v ∈ s.values := by
        rw [State.values, hv]
        exact List.mem_cons_self
      exact ⟨inRange.values v held, inRange.heap⟩
  | error err h' =>
      obtain ⟨s, reached, -⟩ := ends.failing_state
      exact (reached.inRange data found).heap

/-- The primitives that calculate give the exact result if it is a signed 64-bit integer,
and otherwise refuse with both operands in the reason where there are two; the first
argument that is no integer is reported. So if the data of a program are in range, as
they are if it comes from source text, then all integers are in range in every state of
its run and in what the run gives, and on the heap behind any mark behind which they are
to begin with. -/
theorem integers_stay_in_range :
    (∀ (b : Builtin) (ns : List Int) (r : Int), b.exactResult ns = some r → ∀ h : Heap,
      Table.standard.apply b.name (ns.map .integer) h =
        if -0x8000000000000000 ≤ r ∧ r ≤ 0x7fffffffffffffff then .ok (.integer r) h
        else .error (.primitive b.name (Builtin.overflow ns)) h) ∧
    (∀ (b : Builtin) (args : List Value) (v : Value), b.Calculates → args.length = b.arity →
      args.find? (!·.isInteger) = some v → ∀ h : Heap,
        Table.standard.apply b.name args h =
          .error (.primitive b.name (Builtin.notInteger v)) h) ∧
    (∀ source e, Expr.parse source = .ok e → e.Everywhere Expr.InRange) ∧
    ∀ (e : Expr) (h : Heap) (m : Mark), e.Everywhere Expr.InRange → h.All Value.InRange m →
      (∀ s h', Reachable .standard e h s h' → s.InRange m h') ∧
      ∀ fuel stats ending, evaluate .standard fuel e h = some (stats, ending) →
        Ending.InRange m ending := by
  refine ⟨?_, ?_, fun source e parsed => Expr.inRange_of_parse parsed, ?_⟩
  · intro b ns r hr h
    have hlen : (ns.map Value.integer).length = b.arity := by
      rw [List.length_map]
      exact Builtin.length_of_exactResult hr
    rw [Table.apply_standard_of_length hlen]
    exact Builtin.run_integers hr
  · intro b args v calculates hlen found h
    rw [Table.apply_standard_of_length hlen]
    exact Builtin.run_of_find? calculates hlen found
  · intro e h m data found
    refine ⟨fun s h' reached => reached.inRange data found, ?_⟩
    intro fuel stats ending run
    obtain ⟨n, -, ends⟩ := evaluate_eq_some_iff.mp ⟨stats, run⟩
    exact ends.inRange data found

/-- The least integer times `-1` is out of range. The program comes to the calculation
with an operand in range, and fails there. -/
theorem integers_stay_in_range_least :
    Builtin.mult.exactResult [-0x8000000000000000, -1] = some 0x8000000000000000 ∧
    (∀ h, Table.standard.apply "mult" [.integer (-0x8000000000000000), .integer (-1)] h =
      .error (.primitive "mult"
        "integer overflow on -9223372036854775808 and -1") h) ∧
    (∀ h, Table.standard.apply "plus" [.integer 1, .unit] h =
      .error (.primitive "plus" "expected an integer, got unit #<void>") h) ∧
    (∃ s h, Reachable .standard
        (.primApp "mult" [.datum (.integer (-0x8000000000000000)), .datum (.integer (-1))]) {} s h ∧
      .integer (-0x8000000000000000) ∈ s.values ∧ s.InRange ⟨0, 0⟩ h) ∧
    ∃ stats err h, evaluate .standard 5
        (.primApp "mult" [.datum (.integer (-0x8000000000000000)), .datum (.integer (-1))]) {} =
          some (stats, .error err h) ∧ Ending.InRange ⟨0, 0⟩ (.error err h) := by
  have data : (Expr.primApp "mult" [.datum (.integer (-0x8000000000000000)),
      .datum (.integer (-1))]).Everywhere Expr.InRange := by
    have least : (Expr.datum (.integer (-0x8000000000000000))).Everywhere Expr.InRange :=
      .node (show Fixnum.InRange _ by decide) nofun
    have other : (Expr.datum (.integer (-1))).Everywhere Expr.InRange :=
      .node (show Fixnum.InRange _ by decide) nofun
    exact .node trivial (List.forall_mem_cons.mpr ⟨least, List.forall_mem_singleton.mpr other⟩)
  have reached : Reachable .standard (.primApp "mult" [.datum (.integer (-0x8000000000000000)),
      .datum (.integer (-1))]) {} _ _ :=
    ⟨3, .step State.running_evaluating rfl (.step State.running_evaluating rfl
      (.one State.running_returning rfl))⟩
  obtain ⟨calculations, others, -, programs⟩ := integers_stay_in_range
  obtain ⟨states, endings⟩ := programs _ {} ⟨0, 0⟩ data (Heap.Each.at_mark _ _ {})
  refine ⟨rfl, calculations .mult [-0x8000000000000000, -1] _ rfl,
    others .plus [.integer 1, .unit] .unit (by decide) rfl rfl,
    ⟨_, _, reached, List.mem_cons_self, states _ _ reached⟩, _, _, _, rfl, ?_⟩
  exact endings 5 _ _ rfl

end Machine

end CoreLisp
