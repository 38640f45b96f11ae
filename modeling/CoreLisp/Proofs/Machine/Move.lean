import CoreLisp.Proofs.Expr.Scope
import CoreLisp.Proofs.Heap.Scopes
import CoreLisp.Proofs.Machine.Own

/-!
# How a step moves through a program

Seen from afar the machine makes few kinds of steps. It gives a value, enters a
part with a frame or without one, goes on to the next part or to the last, or
calls a procedure. `Move` says which part of which expression comes next, which
frame waits, and in which scope the part is evaluated. The values and what is
written to the heap are left out.
-/
namespace CoreLisp

/-- The frame waits in the midst of the expression. -/
inductive Kont.WaitsIn : Kont → Expr → Prop
  | cond {env : Env} {test conseq alt : Expr} :
      WaitsIn (.cond env conseq alt) (.cond test conseq alt)
  | assign {env : Env} {x : Name} {rhs : Expr} : WaitsIn (.assign env x) (.assign x rhs)
  | letIn {env : Env} {names : List Name} {inits : List Expr} {body : Expr} {values : List Value} :
      inits ≠ [] → WaitsIn (.letIn env names inits body values) (.letIn names inits body)
  | letRec {env : Env} {names : List Name} {inits : List Expr} {body : Expr} {values : List Value} :
      WaitsIn (.letRec env names inits body values) (.letRec names inits body)
  | seq {env : Env} {body : List Expr} {index : Nat} : WaitsIn (.seq env body index) (.seq body)
  | primApp {env : Env} {name : Name} {rands : List Expr} {values : List Value} :
      WaitsIn (.primApp env name rands values) (.primApp name rands)
  | operator {env : Env} {rator : Expr} {rands : List Expr} :
      WaitsIn (.operator env rands) (.app rator rands)
  | operand {env : Env} {rator : Expr} {rands : List Expr} {operator : Value}
      {values : List Value} : WaitsIn (.operand env rands operator values) (.app rator rands)

namespace Machine

/-- A step as a move through the program. The part that comes next stands in the
environment `env` of the expression around it, or in a scope inside it. -/
inductive Move (h h' : Heap) : State → State → Prop
  | give {e : Expr} {v : Value} {env : Env} {stack : Stack} :
      Move h h' ⟨.evaluating e, env, stack⟩ ⟨.returning v, env, stack⟩
  | enter {e part : Expr} {k : Kont} {env : Env} {stack : Stack} : k.WaitsIn e →
      part ∈ e.innerParts → (env < h.frames.size → h'.Enters env e.innerScope k.env) →
      Move h h' ⟨.evaluating e, env, stack⟩ ⟨.evaluating part, k.env, stack.push k⟩
  | replace {e part : Expr} {env : Env} {stack : Stack} : part ∈ e.tailParts →
      e.tailScope = none → Move h h' ⟨.evaluating e, env, stack⟩ ⟨.evaluating part, env, stack⟩
  | next {part : Expr} {k k' : Kont} {v : Value} {env : Env} {stack : Stack} : k.isHalt = false →
      (∀ e, k.WaitsIn e → k'.WaitsIn e ∧ part ∈ e.innerParts) → k'.env = k.env →
      Move h h' ⟨.returning v, env, stack.push k⟩ ⟨.evaluating part, k.env, stack.push k'⟩
  | last {part : Expr} {k : Kont} {v : Value} {env inner : Env} {stack : Stack} :
      k.isHalt = false → (∀ e, k.WaitsIn e → part ∈ e.tailParts) →
      (∀ e outer, k.WaitsIn e → outer < h.frames.size → h.Enters outer e.innerScope k.env →
        h'.Enters outer e.tailScope inner) →
      Move h h' ⟨.returning v, env, stack.push k⟩ ⟨.evaluating part, inner, stack⟩
  | pass {k : Kont} {v w : Value} {env : Env} {stack : Stack} : k.isHalt = false →
      Move h h' ⟨.returning v, env, stack.push k⟩ ⟨.returning w, k.env, stack⟩
  | call {f : Closure} {k : Kont} {v : Value} {env inner : Env} {stack : Stack} :
      k.isHalt = false → (∀ e, k.WaitsIn e → ∃ rator rands, e = .app rator rands) →
      .procedure f ∈ v :: k.values →
      (f.env < h.frames.size → h'.Enters f.env (some f.params) inner) →
      Move h h' ⟨.returning v, env, stack.push k⟩ ⟨.evaluating f.body, inner, stack⟩
  | halt {v : Value} {env root : Env} {stack : Stack} :
      Move h h' ⟨.returning v, env, stack.push (.halt root)⟩ ⟨.halted v, root, stack⟩
  | halted {v : Value} {env : Env} {stack : Stack} :
      Move h h' ⟨.halted v, env, stack⟩ ⟨.halted v, env, stack⟩

variable {table : Table} {s s' : State} {h h' : Heap}

theorem mem_dropLast_of_getElem? {es : List Expr} {e : Expr} {i : Nat} (he : es[i]? = some e)
    (hi : i + 1 < es.length) : e ∈ es.dropLast := by
  refine List.mem_of_getElem? (i := i) ?_
  rw [List.getElem?_dropLast, if_pos (by omega)]
  exact he

theorem getLast?_of_getElem? {es : List Expr} {e : Expr} {i : Nat} (he : es[i]? = some e)
    (hi : ¬ i + 1 < es.length) : es.getLast? = some e := by
  have hlt := (List.getElem?_eq_some_iff.mp he).1
  have hlast : es.length - 1 = i := by omega
  rw [List.getLast?_eq_getElem?, hlast]
  exact he

theorem Transition.grows (grows : table.Grows) (t : Transition table s h s' h') : h.Grows h' := by
  cases t with
  | ref hx =>
      obtain ⟨rfl, -⟩ := Env.lookup_eq_ok_iff.mp hx
      exact .refl _
  | lambda hf =>
      cases hf
      exact ⟨fun hf => ⟨_, hf, rfl, rfl⟩, Nat.le_refl _⟩
  | letRecFirst _ hx | letDone _ hx | callNone _ hx | call _ _ hx => exact Env.grows_of_extend hx
  | primNone hv | primDone _ hv => exact grows _ _ _ _ _ hv
  | assigned hx => exact Env.grows_of_assign hx
  | letRecDone _ hx => exact Env.grows_of_assignAll hx
  | _ => exact .refl h

theorem Transition.move (t : Transition table s h s' h') : Move h h' s s' := by
  cases t with
  | datum | ref | lambda | primNone => exact .give
  | cond => exact .enter (k := .cond _ _ _) .cond List.mem_cons_self fun _ => rfl
  | assign => exact .enter (k := .assign _ _) .assign List.mem_cons_self fun _ => rfl
  | seqOne => exact .replace (e := .seq _) (by simp [Expr.tailParts]) rfl
  | seqFirst => exact .enter (k := .seq _ _ _) .seq List.mem_cons_self fun _ => rfl
  | letNone => exact .replace (e := .letIn _ _ _) List.mem_cons_self rfl
  | letFirst =>
      exact .enter (k := .letIn _ _ _ _ _) (.letIn (List.cons_ne_nil _ _)) List.mem_cons_self
        fun _ => rfl
  | letRecFirst _ hx =>
      exact .enter (k := .letRec _ _ _ _ _) .letRec List.mem_cons_self
        fun henv => Env.enters_of_extend hx henv
  | primFirst => exact .enter (k := .primApp _ _ _ _) .primApp List.mem_cons_self fun _ => rfl
  | app => exact .enter (k := .operator _ _) .operator List.mem_cons_self fun _ => rfl
  | halt => exact .halt
  | @chosen v _ outer conseq alt =>
      have choice : (if v.isTruthy then conseq else alt) ∈ [conseq, alt] := by
        split <;> simp
      refine .last (k := .cond outer conseq alt) rfl ?_ ?_
      · intro e waits
        cases waits
        exact choice
      · intro e outer waits _ enters
        cases waits
        exact enters
  | assigned => exact .pass (k := .assign _ _) rfl
  | seqNext hnext hlt =>
      refine .next (k := .seq _ _ _) rfl ?_ rfl
      intro e waits
      cases waits
      exact ⟨.seq, mem_dropLast_of_getElem? hnext hlt⟩
  | seqLast hnext hlt =>
      refine .last (k := .seq _ _ _) rfl ?_ ?_
      · intro e waits
        cases waits
        exact Option.mem_toList.mpr (getLast?_of_getElem? hnext hlt)
      · intro e outer waits _ enters
        cases waits
        exact enters
  | seqPast => exact .pass (k := .seq _ _ _) rfl
  | letNext hnext =>
      refine .next (k := .letIn _ _ _ _ _) rfl ?_ rfl
      intro e waits
      cases waits with
      | letIn hne => exact ⟨.letIn hne, List.mem_of_getElem? hnext⟩
  | letDone _ hx =>
      refine .last (k := .letIn _ _ _ _ _) rfl ?_ ?_
      · intro e waits
        cases waits
        exact List.mem_cons_self
      · intro e outer waits henv enters
        cases waits with
        | letIn hne =>
            cases enters
            rw [Expr.tailScope, if_neg (by simpa using hne)]
            exact Env.enters_of_extend hx henv
  | letRecNext hnext =>
      refine .next (k := .letRec _ _ _ _ _) rfl ?_ rfl
      intro e waits
      cases waits
      exact ⟨.letRec, List.mem_of_getElem? hnext⟩
  | letRecDone _ hx =>
      refine .last (k := .letRec _ _ _ _ _) rfl ?_ ?_
      · intro e waits
        cases waits
        exact List.mem_cons_self
      · intro e outer waits _ enters
        cases waits
        exact (Env.grows_of_assignAll hx).enters enters
  | primNext hnext =>
      refine .next (k := .primApp _ _ _ _) rfl ?_ rfl
      intro e waits
      cases waits
      exact ⟨.primApp, List.mem_of_getElem? hnext⟩
  | primDone => exact .pass (k := .primApp _ _ _ _) rfl
  | callNone _ hx =>
      refine .call (k := .operator _ _) rfl ?_ List.mem_cons_self
        fun henv => Env.enters_of_extend hx henv
      intro e waits
      cases waits
      exact ⟨_, _, rfl⟩
  | operandFirst =>
      refine .next (k := .operator _ _) rfl ?_ rfl
      intro e waits
      cases waits
      exact ⟨.operand, List.mem_cons_of_mem _ List.mem_cons_self⟩
  | operandNext hnext =>
      refine .next (k := .operand _ _ _ _) rfl ?_ rfl
      intro e waits
      cases waits
      exact ⟨.operand, List.mem_cons_of_mem _ (List.mem_of_getElem? hnext)⟩
  | call _ _ hx =>
      refine .call (k := .operand _ _ _ _) rfl ?_ (by simp [Kont.values])
        fun henv => Env.enters_of_extend hx henv
      intro e waits
      cases waits
      exact ⟨_, _, rfl⟩
  | halted => exact .halted

end Machine

end CoreLisp
