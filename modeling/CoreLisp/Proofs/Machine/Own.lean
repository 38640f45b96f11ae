import CoreLisp.Proofs.Heap.Own
import CoreLisp.Proofs.Machine.Shape

/-!
# Running on one's own part of the heap

A state is the program's own if its environments, its values and those of the
waiting frames are, and if all expressions in it have the property that follows
the program. A step keeps this, together with the heap: the environments it goes
to are old ones of the same state or of a procedure in it, or new ones.
-/
namespace CoreLisp

variable {p : Expr → Prop} {m : Mark}

/-- The expressions from which a frame takes what it still has to evaluate. -/
def Kont.code : Kont → List Expr
  | .halt _ | .assign .. => []
  | .cond _ conseq alt => [conseq, alt]
  | .letIn _ names inits body _ => [.letIn names inits body]
  | .letRec _ names inits body _ => [.letRec names inits body]
  | .seq _ body _ => [.seq body]
  | .primApp _ name rands _ => [.primApp name rands]
  | .operator _ rands | .operand _ rands _ _ => rands

/-- The values that a frame has gathered. -/
def Kont.values : Kont → List Value
  | .letIn _ _ _ _ values | .letRec _ _ _ _ values | .primApp _ _ _ values => values
  | .operand _ _ rator values => rator :: values
  | .halt _ | .assign .. | .cond .. | .seq .. | .operator .. => []

structure Kont.Own (p : Expr → Prop) (m : Mark) (k : Kont) : Prop where
  env : m.frames ≤ k.env
  code : ∀ e ∈ k.code, e.Everywhere p
  values : ∀ v ∈ k.values, v.Own p m

def Control.Own (p : Expr → Prop) (m : Mark) : Control → Prop
  | .evaluating e => e.Everywhere p
  | .returning v | .halted v => v.Own p m

structure State.Own (p : Expr → Prop) (m : Mark) (s : State) : Prop where
  control : s.control.Own p m
  env : m.frames ≤ s.env
  stack : ∀ k ∈ s.stack.frames, k.Own p m

/-- What is below a frame of an own state. -/
theorem State.Own.below {control : Control} {env : Env} {stack : Stack} {k : Kont}
    (own : State.Own p m ⟨control, env, stack.push k⟩) :
    k.Own p m ∧ ∀ k ∈ stack.frames, k.Own p m :=
  List.forall_mem_cons.mp own.stack

theorem State.Own.push {control : Control} {env : Env} {stack : Stack} {k : Kont}
    (hcontrol : control.Own p m) (henv : m.frames ≤ env) (hk : k.Own p m)
    (hstack : ∀ k ∈ stack.frames, k.Own p m) :
    State.Own p m ⟨control, env, stack.push k⟩ :=
  ⟨hcontrol, henv, List.forall_mem_cons.mpr ⟨hk, hstack⟩⟩

theorem forall_mem_snoc {q : Value → Prop} {values : List Value} {v : Value}
    (hvalues : ∀ w ∈ values, q w) (hv : q v) : ∀ w ∈ values ++ [v], q w :=
  List.forall_mem_append.mpr ⟨hvalues, List.forall_mem_singleton.mpr hv⟩

namespace Expr

variable {e part body : Expr} {inits : List Expr} {i : Nat}

/-- The parts of a binding construct are its initializers and then its body. -/
theorem Everywhere.init (he : e.Everywhere p) (hparts : e.parts = inits ++ [body])
    (hi : inits[i]? = some part) : part.Everywhere p := by
  refine he.part ?_
  rw [hparts]
  exact List.mem_append_left [body] (List.mem_of_getElem? hi)

theorem Everywhere.last (he : e.Everywhere p) (hparts : e.parts = inits ++ [body]) :
    body.Everywhere p := by
  refine he.part ?_
  rw [hparts]
  exact List.mem_append_right inits List.mem_cons_self

end Expr

namespace Machine

variable {table : Table} {e : Expr} {s s' : State} {h h' : Heap}

theorem Transition.own (keeps : table.Keeps p m) (t : Transition table s h s' h')
    (hs : s.Own p m) (hh : h.Own p m) : s'.Own p m ∧ h'.Own p m := by
  -- what the control holds is an expression or a value, by the kind of transition
  have code := hs.control
  cases t with
  | @datum d => exact ⟨⟨d.own_value, hs.env, hs.stack⟩, hh⟩
  | ref hx =>
      obtain ⟨hv, hh⟩ := Env.own_of_lookup hx hs.env hh
      exact ⟨⟨hv, hs.env, hs.stack⟩, hh⟩
  | lambda hf =>
      cases hf
      -- only the number of procedures made so far has changed
      have same : Heap.Own p m { h with procedures := h.procedures + 1 } :=
        ⟨hh.frames_le, hh.boxes_le, hh.frames, hh.boxes⟩
      exact ⟨⟨⟨hs.env, code⟩, hs.env, hs.stack⟩, same⟩
  | @cond test conseq alt =>
      have htest : test.Everywhere p := code.part (by simp [Expr.parts])
      have hconseq : conseq.Everywhere p := code.part (by simp [Expr.parts])
      have halt : alt.Everywhere p := code.part (by simp [Expr.parts])
      have hk : (Kont.cond _ conseq alt).Own p m := ⟨hs.env, by simp [Kont.code, *], nofun⟩
      exact ⟨.push htest hs.env hk hs.stack, hh⟩
  | assign =>
      have hrhs := code.part List.mem_cons_self
      exact ⟨.push hrhs hs.env ⟨hs.env, nofun, nofun⟩ hs.stack, hh⟩
  | seqOne => exact ⟨⟨code.part List.mem_cons_self, hs.env, hs.stack⟩, hh⟩
  | seqFirst =>
      have hfirst := code.part List.mem_cons_self
      exact ⟨.push hfirst hs.env ⟨hs.env, List.forall_mem_singleton.mpr code, nofun⟩ hs.stack, hh⟩
  | letNone => exact ⟨⟨code.last rfl, hs.env, hs.stack⟩, hh⟩
  | letFirst =>
      have hfirst := code.init (i := 0) rfl rfl
      exact ⟨.push hfirst hs.env ⟨hs.env, List.forall_mem_singleton.mpr code, nofun⟩ hs.stack, hh⟩
  | letRecFirst _ hx =>
      have hfirst := code.init (i := 0) rfl rfl
      obtain ⟨hinner, hh⟩ := Env.own_of_extend hx hs.env (by simp [Value.Own]) hh
      exact ⟨.push hfirst hinner ⟨hinner, List.forall_mem_singleton.mpr code, nofun⟩ hs.stack, hh⟩
  | primNone hv =>
      obtain ⟨hv, hh⟩ := keeps _ _ _ _ _ hv nofun hh
      exact ⟨⟨hv, hs.env, hs.stack⟩, hh⟩
  | primFirst =>
      have hfirst := code.part List.mem_cons_self
      exact ⟨.push hfirst hs.env ⟨hs.env, List.forall_mem_singleton.mpr code, nofun⟩ hs.stack, hh⟩
  | @app _ rands =>
      have hrator := code.part List.mem_cons_self
      have hrands : ∀ e ∈ rands, e.Everywhere p := by
        intro e he
        exact code.part (List.mem_cons_of_mem _ he)
      exact ⟨.push hrator hs.env ⟨hs.env, hrands, nofun⟩ hs.stack, hh⟩
  | halt =>
      obtain ⟨hk, hstack⟩ := hs.below
      exact ⟨⟨code, hk.env, hstack⟩, hh⟩
  | @chosen v =>
      obtain ⟨hk, hstack⟩ := hs.below
      have hbranches := hk.code
      refine ⟨⟨?_, hk.env, hstack⟩, hh⟩
      cases v.isTruthy with
      | true => exact hbranches _ List.mem_cons_self
      | false => exact hbranches _ (List.mem_cons_of_mem _ List.mem_cons_self)
  | assigned hx =>
      obtain ⟨hk, hstack⟩ := hs.below
      exact ⟨⟨trivial, hk.env, hstack⟩, Env.own_of_assign hx code hh⟩
  | seqNext hnext =>
      obtain ⟨hk, hstack⟩ := hs.below
      have hseq := hk.code _ List.mem_cons_self
      have hnext := hseq.part (List.mem_of_getElem? hnext)
      exact ⟨.push hnext hk.env ⟨hk.env, hk.code, nofun⟩ hstack, hh⟩
  | seqLast hnext =>
      obtain ⟨hk, hstack⟩ := hs.below
      have hseq := hk.code _ List.mem_cons_self
      exact ⟨⟨hseq.part (List.mem_of_getElem? hnext), hk.env, hstack⟩, hh⟩
  | seqPast =>
      obtain ⟨hk, hstack⟩ := hs.below
      exact ⟨⟨code, hk.env, hstack⟩, hh⟩
  | letNext hnext =>
      obtain ⟨hk, hstack⟩ := hs.below
      have hnext := (hk.code _ List.mem_cons_self).init rfl hnext
      exact ⟨.push hnext hk.env ⟨hk.env, hk.code, forall_mem_snoc hk.values code⟩ hstack, hh⟩
  | letDone _ hx =>
      obtain ⟨hk, hstack⟩ := hs.below
      have hbody := (hk.code _ List.mem_cons_self).last rfl
      obtain ⟨hinner, hh⟩ := Env.own_of_extend hx hk.env (forall_mem_snoc hk.values code) hh
      exact ⟨⟨hbody, hinner, hstack⟩, hh⟩
  | letRecNext hnext =>
      obtain ⟨hk, hstack⟩ := hs.below
      have hnext := (hk.code _ List.mem_cons_self).init rfl hnext
      exact ⟨.push hnext hk.env ⟨hk.env, hk.code, forall_mem_snoc hk.values code⟩ hstack, hh⟩
  | letRecDone _ hx =>
      obtain ⟨hk, hstack⟩ := hs.below
      have hbody := (hk.code _ List.mem_cons_self).last rfl
      have hh := Env.own_of_assignAll hx (forall_mem_snoc hk.values code) hh
      exact ⟨⟨hbody, hk.env, hstack⟩, hh⟩
  | primNext hnext =>
      obtain ⟨hk, hstack⟩ := hs.below
      have hnext := (hk.code _ List.mem_cons_self).part (List.mem_of_getElem? hnext)
      exact ⟨.push hnext hk.env ⟨hk.env, hk.code, forall_mem_snoc hk.values code⟩ hstack, hh⟩
  | primDone _ hw =>
      obtain ⟨hk, hstack⟩ := hs.below
      obtain ⟨hw, hh⟩ := keeps _ _ _ _ _ hw (forall_mem_snoc hk.values code) hh
      exact ⟨⟨hw, hk.env, hstack⟩, hh⟩
  | callNone _ hx =>
      obtain ⟨-, hstack⟩ := hs.below
      obtain ⟨henv, hlambda⟩ := code
      obtain ⟨hinner, hh⟩ := Env.own_of_extend hx henv nofun hh
      exact ⟨⟨hlambda.part List.mem_cons_self, hinner, hstack⟩, hh⟩
  | operandFirst =>
      obtain ⟨hk, hstack⟩ := hs.below
      have hfirst := hk.code _ List.mem_cons_self
      exact ⟨.push hfirst hk.env ⟨hk.env, hk.code, List.forall_mem_singleton.mpr code⟩ hstack, hh⟩
  | operandNext hnext =>
      obtain ⟨hk, hstack⟩ := hs.below
      obtain ⟨hrator, hvalues⟩ := List.forall_mem_cons.mp hk.values
      have hnext := hk.code _ (List.mem_of_getElem? hnext)
      have hvalues := List.forall_mem_cons.mpr ⟨hrator, forall_mem_snoc hvalues code⟩
      exact ⟨.push hnext hk.env ⟨hk.env, hk.code, hvalues⟩ hstack, hh⟩
  | call _ _ hx =>
      obtain ⟨hk, hstack⟩ := hs.below
      obtain ⟨⟨henv, hlambda⟩, hvalues⟩ := List.forall_mem_cons.mp hk.values
      obtain ⟨hinner, hh⟩ := Env.own_of_extend hx henv (forall_mem_snoc hvalues code) hh
      exact ⟨⟨hlambda.part List.mem_cons_self, hinner, hstack⟩, hh⟩
  | halted => exact ⟨hs, hh⟩

/-- All states of a run are the program's own, whatever was on the heap before. -/
theorem Reachable.own (keeps : table.Keeps p h.mark) (he : e.Everywhere p)
    (reached : Reachable table e h s h') : s.Own p h.mark ∧ h'.Own p h.mark := by
  obtain ⟨n, run⟩ := reached
  refine run.invariant (P := fun s h' => s.Own p h.mark ∧ h'.Own p h.mark) ?_ ⟨?_, ?_⟩
  · intro s s' h₁ h₂ hs own
    exact (step_eq_ok_iff.mp hs).own keeps own.1 own.2
  · have hroot : h.mark.frames ≤ h.newRoot.1 := Nat.le_refl _
    have hend : Kont.Own p h.mark (.halt h.newRoot.1) := ⟨hroot, nofun, nofun⟩
    exact .push he hroot hend nofun
  · exact (Heap.own_mark p h).addFrame ⟨nofun, nofun⟩

end Machine

end CoreLisp
